import Vermell.Router.ConnectionHeader
import Vermell.Router.Resolution

/-! What goes out for a request. Every branch of `ExecuteRoute` leaves a whole response but one: a
route whose handlers return without an answer counts as answered with the empty response that its
query began with. -/
namespace Vermell.Router
open Http Text

/-- One response head: a status line, and an empty line at its end and nowhere else. -/
structure OneHead (head : Bytes) : Prop where
  status : ∃ code s, head = Response.statusLine code ++ CRLF ++ s
  ends : ∃ p, head = p ++ CRLFCRLF
  once : ∀ p s, head = p ++ CRLFCRLF ++ s → s = []

/-- The bytes for a request are one response, without a body for HEAD. -/
def OneResponse (raw : Bytes) (executed : Executed) : Prop :=
  OneHead executed.head ∧
    ∀ message, parse raw = some message → message.method = bytes "HEAD" → executed.body = []

/-- The calls that set the response. -/
def Query.Call.answers : Query.Call → Bool
  | .json _ _ => true
  | .html _ _ => true
  | .send _ _ => true
  | .file _ _ _ => true
  | _ => false

/-- Some handler that runs makes an answering call. -/
def Answers (message : Message) (params : List (Bytes × Bytes)) : Query → List Middleware → Prop
  | _, [] => False
  | q, f :: rest =>
    (f message params q.lock).calls.any Query.Call.answers = true ∨
      (q.lock.after (f message params q.lock).calls).nextEnable = true ∧
        Answers message params (q.lock.after (f message params q.lock).calls) rest

/-- The first pattern route that takes the request. -/
def patternFor (message : Message) (patterns : List PatternRoute) :
    Option (Route × List (Bytes × Bytes)) :=
  patterns.findSome? fun pr =>
    if pr.impl.method ≠ message.method then none
    else (matchPattern pr.segments (splitPath message.path)).map (pr.impl, ·)

/-- The route that takes the request, with the parameters it sees. -/
def routeFor (t : Tables) (message : Message) : Option (Route × List (Bytes × Bytes)) :=
  match Assoc.get id (routeKey message.path message.method) t.routes with
  | some r => some (r, [])
  | none => patternFor message t.patternRoutes

/-- A route takes the request to handlers that return without an answering call. -/
def Silent (w : World) (message : Message) (r : Route) (params : List (Bytes × Bytes)) : Prop :=
  timeGuard w.now r.cooldown = false ∧
    (∃ q, runMiddlewares message params {} r.middlewares = .ok q) ∧
    ¬Answers message params {} r.middlewares

/-- Handlers throw nothing but a `std::exception`. -/
def StdExceptionsOnly (t : Tables) : Prop :=
  ∀ r, (r ∈ t.routes.map Prod.snd ∨ r ∈ t.patternRoutes.map PatternRoute.impl) →
    ∀ f ∈ r.middlewares, ∀ message params q, (f message params q).ending ≠ .throwsOther

/-- Lines that are not empty, a status line first, make one head with the empty line behind them. -/
theorem oneHead_joinLines (code : ℤ) {lines : List Bytes}
    (hlines : ∀ line ∈ lines, line ≠ [] ∧ CR ∉ line) :
    OneHead (joinLines CR LF (Response.statusLine code :: lines ++ [[]])) := by
  have hall : ∀ line ∈ Response.statusLine code :: lines, line ≠ [] ∧ CR ∉ line :=
    List.forall_mem_cons.mpr ⟨⟨by simp [Response.statusLine], (clean_statusLine code).cr⟩, hlines⟩
  constructor
  · exact ⟨code, joinLines CR LF (lines ++ [[]]), by simp [CRLF]⟩
  · obtain ⟨p, hp⟩ := joinLines_ends (a := CR) (b := LF)
      (List.cons_ne_nil (Response.statusLine code) lines)
    exact ⟨p, by rw [joinLines_append, hp]; simp [CRLFCRLF]⟩
  · intro p s h
    refine joinLines_blank (a := CR) (b := LF) (p := p) (by decide)
      (fun line hline => (hall line hline).2) (fun line hline => (hall line hline).1) ?_
    rw [h]
    simp [CRLFCRLF]

theorem colon_not_mem_statusLine (code : ℤ) : COLON ∉ Response.statusLine code := by
  have hreason : COLON ∉ reason code :=
    reason_of_forall (P := fun s => COLON ∉ s) (by decide) (by decide +kernel) code
  have hcode : COLON ∉ toCharsInt code := by
    have hdigits (n : ℕ) : COLON ∉ toChars n := by
      intro hmem
      exact absurd ((toChars_digits n).2 _ hmem) (by decide)
    unfold toCharsInt
    split_ifs
    · exact List.not_mem_cons_of_ne_of_not_mem (by decide) (hdigits _)
    · exact hdigits _
  have hversion : COLON ∉ bytes "HTTP/1.1 " := by decide
  unfold Response.statusLine
  simp only [List.mem_append, List.mem_cons, not_or]
  exact ⟨⟨hversion, hcode⟩, by decide, hreason⟩

/-- The patch changes a header line, so the head stays one. -/
theorem oneHead_settle (requested allow : Bool) {code : ℤ} {lines : List Bytes}
    (hlines : ∀ line ∈ lines, line ≠ [] ∧ CR ∉ line) :
    OneHead (settleConnection requested allow
      (joinLines CR LF (Response.statusLine code :: lines ++ [[]]))).2 := by
  rcases settleConnection_lines requested allow (Response.statusLine code :: lines ++ [[]]) with
    hsame | ⟨before, l, r, after, hsplit, hpatched⟩
  · rw [hsame]
    exact oneHead_joinLines code hlines
  · rw [hpatched]
    cases before with
    | nil =>
      -- the status line holds no colon
      have hstatus := (List.cons.inj hsplit).1
      have hcolon : COLON ∈ CONNECTION_KEEP_ALIVE := by decide
      exact absurd (by rw [hstatus]; simp [hcolon]) (colon_not_mem_statusLine code)
    | cons first before =>
      obtain ⟨rfl, hrest⟩ := List.cons.inj hsplit
      cases after using List.reverseRecOn with
      | nil =>
        have hlast := congrArg List.getLast? hrest
        simp at hlast
        exact absurd hlast.2.1 (by decide)
      | append_singleton after last =>
        have hfields : lines ++ [[]] =
            (before ++ (l ++ CONNECTION_KEEP_ALIVE ++ r) :: after) ++ [last] := by
          simpa using hrest
        obtain ⟨rfl, hlast⟩ := List.append_inj' hfields rfl
        obtain rfl : last = [] := (List.cons.inj hlast).1.symm
        have hclose : CONNECTION_CLOSE ≠ [] ∧ CR ∉ CONNECTION_CLOSE := by decide
        have hpatch : ∀ line ∈ before ++ (l ++ CONNECTION_CLOSE ++ r) :: after,
            line ≠ [] ∧ CR ∉ line := by
          rw [List.forall_mem_append, List.forall_mem_cons] at hlines ⊢
          refine ⟨hlines.1, ⟨by simp [hclose.1], ?_⟩, hlines.2.2⟩
          have hmid := hlines.2.1.2
          simp only [List.mem_append, not_or] at hmid ⊢
          exact ⟨⟨hmid.1.1, hclose.2⟩, hmid.2⟩
        simpa using oneHead_joinLines code hpatch

theorem Sent.oneHead {response : WireResponse} (h : Sent response) (requested allow : Bool) :
    OneHead (settleConnection requested allow response.head).2 := by
  obtain ⟨r, hr, rfl⟩ := h
  have hshape := hr.headShape
  have hlines : ∀ line ∈ r.fields.map fieldText, line ≠ [] ∧ CR ∉ line := by
    intro line hline
    obtain ⟨hne, hclean⟩ := hshape.lines_clean line (List.mem_cons_of_mem _ hline)
    exact ⟨hne, hclean.cr⟩
  change OneHead (settleConnection requested allow r.head).2
  rw [hshape.text, headText_eq]
  exact oneHead_settle requested allow hlines

theorem not_oneHead_empty (requested allow : Bool) :
    ¬OneHead (settleConnection requested allow []).2 := by
  have hempty : (settleConnection requested allow []).2 = [] := by
    cases requested <;> cases allow <;> decide
  rw [hempty]
  rintro ⟨⟨code, s, h⟩, -, -⟩
  simp [Response.statusLine, bytes] at h

/-- A call leaves an answer behind, or the response as it was. -/
theorem Query.apply_last (q : Query) (call : Query.Call) :
    (call.answers = true → Sent (q.apply call).last) ∧
      (call.answers = false → (q.apply call).last = q.last) := by
  cases call with
  | setHeaders header => exact ⟨nofun, fun _ => rfl⟩
  | setHeadersBox box => exact ⟨nofun, fun _ => rfl⟩
  | guard key customMsg => exact ⟨nofun, fun _ => rfl⟩
  | next => exact ⟨nofun, fun _ => rfl⟩
  | json text status => exact ⟨fun _ => sent_prepare _ _ _ _, nofun⟩
  | html text status => exact ⟨fun _ => sent_prepare _ _ _ _, nofun⟩
  | send text status => exact ⟨fun _ => sent_prepare _ _ _ _, nofun⟩
  | file data type status => exact ⟨fun _ => sent_prepare _ _ _ _, nofun⟩

theorem Query.after_last (q : Query) (calls : List Query.Call) :
    (calls.any Query.Call.answers = true → Sent (q.after calls).last) ∧
      (calls.any Query.Call.answers = false → (q.after calls).last = q.last) := by
  unfold Query.after
  induction calls using List.reverseRecOn with
  | nil => simp
  | append_singleton calls call ih =>
    obtain ⟨hanswers, hkeeps⟩ := Query.apply_last (calls.foldl Query.apply q) call
    have hany : (calls ++ [call]).any Query.Call.answers =
        (calls.any Query.Call.answers || call.answers) := by simp
    rw [List.foldl_append, hany]
    change (_ → Sent ((calls.foldl Query.apply q).apply call).last) ∧
      (_ → ((calls.foldl Query.apply q).apply call).last = q.last)
    cases hcall : call.answers with
    | true => exact ⟨fun _ => hanswers hcall, by simp⟩
    | false =>
      rw [hkeeps hcall, Bool.or_false]
      exact ih

section
variable {message : Message} {params : List (Bytes × Bytes)} {functions : List Middleware}
  {q q' : Query}

/-- Handlers that return leave an answer behind if one of them answers. -/
theorem sent_of_answers (hrun : runMiddlewares message params q functions = .ok q')
    (h : Sent q.last ∨ Answers message params q functions) : Sent q'.last := by
  induction functions generalizing q with
  | nil =>
    cases hrun
    exact h.resolve_right id
  | cons f rest ih =>
    have hlast := Query.after_last q.lock (f message params q.lock).calls
    have hnow := hlast.1
    have hkept : Sent q.last → Sent (q.lock.after (f message params q.lock).calls).last := by
      intro hsent
      cases hanswers : (f message params q.lock).calls.any Query.Call.answers with
      | true => exact hnow hanswers
      | false =>
        rw [hlast.2 hanswers]
        exact hsent
    simp only [runMiddlewares] at hrun
    split_ifs at hrun with hend hnext
    · refine ih hrun ?_
      rcases h with hsent | hanswers | ⟨-, hrest⟩
      · exact Or.inl (hkept hsent)
      · exact Or.inl (hnow hanswers)
      · exact Or.inr hrest
    · cases hrun
      rcases h with hsent | hanswers | ⟨hnext', -⟩
      · exact hkept hsent
      · exact hnow hanswers
      · exact absurd hnext' hnext

/-- And they leave the response as it was if none does. -/
theorem last_of_not_answers (hrun : runMiddlewares message params q functions = .ok q')
    (h : ¬Answers message params q functions) : q'.last = q.last := by
  induction functions generalizing q with
  | nil =>
    cases hrun
    rfl
  | cons f rest ih =>
    obtain ⟨hnow, hrest⟩ := not_or.mp h
    have hlast := (Query.after_last q.lock (f message params q.lock).calls).2
      (Bool.eq_false_iff.mpr hnow)
    simp only [runMiddlewares] at hrun
    split_ifs at hrun with hend hnext
    · rw [ih hrun (fun hanswers => hrest ⟨hnext, hanswers⟩), hlast]
      rfl
    · cases hrun
      rw [hlast]
      rfl

/-- Handlers that do not return have thrown. -/
theorem runMiddlewares_error {e : Ending} (hrun : runMiddlewares message params q functions =
    .error e) : ∃ f ∈ functions, ∃ q, (f message params q).ending = e := by
  induction functions generalizing q with
  | nil => cases hrun
  | cons f rest ih =>
    simp only [runMiddlewares] at hrun
    split_ifs at hrun with hend hnext
    · cases hrun
      exact ⟨f, by simp, _, rfl⟩
    · obtain ⟨g, hg, hends⟩ := ih hrun
      exact ⟨g, by simp [hg], hends⟩

end

theorem servePatterns_eq_patternFor (w : World) (message : Message) (patterns : List PatternRoute) :
    servePatterns w message patterns =
      match patternFor message patterns with
      | some (r, params) => r.served w message params (.pattern r params)
      | none => .ok none := by
  induction patterns with
  | nil => rfl
  | cons pr rest ih =>
    by_cases hmethod : pr.impl.method = message.method
    · cases hmatch : matchPattern pr.segments (splitPath message.path) with
      | none => simpa [servePatterns, patternFor, hmethod, hmatch] using ih
      | some params => simp [servePatterns, patternFor, hmethod, hmatch, Route.served]
    · simpa [servePatterns, patternFor, hmethod] using ih

/-- A request goes to its route, else to a mount if no pattern route is registered. -/
theorem serveRoutes_cases (w : World) (t : Tables) (message : Message) :
    match routeFor t message with
    | some (r, params) => ∃ answerer, serveRoutes w t message = r.served w message params answerer
    | none => serveRoutes w t message = .ok none ∨
        ∃ served, serveRoutes w t message = .ok (some served) ∧ Sent served.response := by
  unfold routeFor serveRoutes
  cases Assoc.get id (routeKey message.path message.method) t.routes with
  | some r => exact ⟨.exact r, rfl⟩
  | none =>
    simp only
    rw [servePatterns_eq_patternFor]
    by_cases hpatterns : t.patternRoutes = []
    · have hnone : patternFor message t.patternRoutes = none := by
        rw [hpatterns]
        rfl
      rw [hnone, if_neg (not_not.mpr hpatterns)]
      simp only
      cases bestMount message.path t.mounts with
      | none => exact Or.inl rfl
      | some m =>
        cases hserve : m.serve w.disk message.path message.method
            (message.header (bytes "If-None-Match")) with
        | none => exact Or.inl (by simp [hserve])
        | some response =>
          exact Or.inr ⟨⟨.mount m, response, none⟩, by simp [hserve], sent_serve hserve⟩
    · rw [if_pos hpatterns]
      cases patternFor message t.patternRoutes with
      | none => exact Or.inl rfl
      | some found => exact ⟨.pattern found.1 found.2, rfl⟩

/-- The route of a request is one of the tables. -/
theorem routeFor_mem {t : Tables} {message : Message} {r : Route} {params : List (Bytes × Bytes)}
    (h : routeFor t message = some (r, params)) :
    r ∈ t.routes.map Prod.snd ∨ r ∈ t.patternRoutes.map PatternRoute.impl := by
  unfold routeFor at h
  cases hexact : Assoc.get id (routeKey message.path message.method) t.routes with
  | some found =>
    rw [hexact] at h
    obtain rfl : found = r := congrArg Prod.fst (Option.some.inj h)
    exact Or.inl (Assoc.mem_of_get id hexact)
  | none =>
    rw [hexact] at h
    obtain ⟨pr, hpr, htakes⟩ := List.exists_of_findSome?_eq_some h
    split_ifs at htakes with hmethod
    obtain ⟨captured, -, heq⟩ := Option.map_eq_some_iff.mp htakes
    obtain rfl : pr.impl = r := congrArg Prod.fst heq
    exact Or.inr (List.mem_map_of_mem hpr)

/-- What is sent for a parsed request is one response exactly when its head is. -/
theorem oneResponse_of_served {w : World} {t : Tables} {raw : Bytes} {message : Message}
    {served : Served} (allow : Bool) (hparse : parse raw = some message)
    (hserved : serveMessage w t message = .ok served) :
    ∃ executed, executeRoute w t allow raw = .ok executed ∧ (OneResponse raw executed ↔
      OneHead (settleConnection (keepAliveRequested message) allow served.response.head).2) := by
  refine ⟨_, by simp only [executeRoute, hparse, hserved, Bind.bind, Except.bind]; rfl, ?_⟩
  unfold OneResponse
  rw [hparse]
  simp only [Option.some.injEq, forall_eq', and_iff_left_iff_imp]
  intro _ hhead
  rw [if_pos hhead]

/-- Requests that no route takes get a page or a file. -/
theorem serveMessage_without_route {w : World} {t : Tables} {message : Message}
    (h : routeFor t message = none) :
    ∃ served, serveMessage w t message = .ok served ∧ Sent served.response := by
  have hcases := serveRoutes_cases w t message
  rw [h] at hcases
  rcases hcases with hnone | ⟨served, hserved, hsent⟩
  · exact ⟨⟨.notDefined, notDefinedPage, none⟩, by simp only [serveMessage, hnone],
      sent_errorPage _ _⟩
  · exact ⟨served, by simp only [serveMessage, hserved], hsent⟩

/-- A silent route sends an empty response, any other one a response. -/
theorem serveMessage_of_route {w : World} {t : Tables} {message : Message} {r : Route}
    {params : List (Bytes × Bytes)} (hstd : StdExceptionsOnly t)
    (h : routeFor t message = some (r, params)) :
    ∃ served, serveMessage w t message = .ok served ∧
      (Silent w message r params → served.response = {}) ∧
      (¬Silent w message r params → Sent served.response) := by
  have hcases := serveRoutes_cases w t message
  rw [h] at hcases
  obtain ⟨answerer, hserve⟩ := hcases
  have hok {response : WireResponse} {cooldown : Cooldown}
      (hanswer : r.answer w message params = .ok (response, cooldown)) :
      serveMessage w t message = .ok ⟨answerer, response, some cooldown⟩ := by
    simp [serveMessage, hserve, Route.served, hanswer, Bind.bind, Except.bind, Pure.pure,
      Except.pure]
  cases hguard : timeGuard w.now r.cooldown with
  | true =>
    have hanswer : r.answer w message params = .ok
        (guardRoute r.cooldown.timeKey (r.cooldown.guardMsg.getD []), r.cooldown) := by
      rw [Route.answer, if_pos hguard]
    refine ⟨_, hok hanswer, ?_, fun _ => sent_prepare _ _ _ _⟩
    rintro ⟨hopen, -⟩
    simp [hguard] at hopen
  | false =>
    cases hrun : runMiddlewares message params {} r.middlewares with
    | ok q =>
      have hanswer : r.answer w message params = .ok (q.last, if q.timeKey > 0 then
          ⟨q.timeKey, w.finish, if q.timeKey > 0 then some q.guardMsg else none⟩
          else r.cooldown) := by
        simp [Route.answer, hguard, execute, hrun, Bind.bind, Except.bind, Pure.pure, Except.pure]
      refine ⟨_, hok hanswer, ?_, ?_⟩
      · rintro ⟨-, -, hsilent⟩
        exact last_of_not_answers hrun hsilent
      · intro hloud
        refine sent_of_answers hrun (Or.inr ?_)
        by_contra hsilent
        exact hloud ⟨hguard, ⟨q, hrun⟩, hsilent⟩
    | error e =>
      obtain ⟨f, hf, q, hends⟩ := runMiddlewares_error hrun
      have hstd' := hstd r (routeFor_mem h) f hf message params q
      have herror : serveRoutes w t message = .error e := by
        simp [hserve, Route.served, Route.answer, hguard, execute, hrun, Bind.bind, Except.bind]
      refine ⟨⟨.notDefined, notDefinedPage, none⟩, ?_, ?_, fun _ => sent_errorPage _ _⟩
      · rw [hends] at hstd'
        cases e with
        | returns => simp only [serveMessage, herror]
        | throws => simp only [serveMessage, herror]
        | throwsOther => exact absurd rfl hstd'
      · rintro ⟨-, ⟨q, hreturns⟩, -⟩
        rw [hrun] at hreturns
        cases hreturns

/-- `ExecuteRoute` sends one response exactly when the request does not go to a route whose
handlers run, return and answer nothing. -/
theorem one_response_iff (w : World) (t : Tables) (allow : Bool) (raw : Bytes)
    (hstd : StdExceptionsOnly t) : ∃ executed, executeRoute w t allow raw = .ok executed ∧
      (OneResponse raw executed ↔ ¬∃ message r params, parse raw = some message ∧
        routeFor t message = some (r, params) ∧ Silent w message r params) := by
  cases hparse : parse raw with
  | none =>
    refine ⟨_, by simp only [executeRoute, hparse]; rfl, ?_⟩
    have hpage : OneHead (settleConnection false allow malformedPage.head).2 :=
      (sent_errorPage 400 "malformed request").oneHead false allow
    simp [OneResponse, hpage, hparse]
  | some message =>
    cases hroute : routeFor t message with
    | none =>
      obtain ⟨served, hserved, hsent⟩ := serveMessage_without_route (w := w) hroute
      obtain ⟨executed, hexecuted, hone⟩ := oneResponse_of_served allow hparse hserved
      refine ⟨executed, hexecuted, ?_⟩
      rw [hone]
      simp [hsent.oneHead, hroute]
    | some found =>
      obtain ⟨r, params⟩ := found
      obtain ⟨served, hserved, hsilent, hloud⟩ := serveMessage_of_route (w := w) hstd hroute
      obtain ⟨executed, hexecuted, hone⟩ := oneResponse_of_served allow hparse hserved
      refine ⟨executed, hexecuted, ?_⟩
      have hiff : OneHead
          (settleConnection (keepAliveRequested message) allow served.response.head).2 ↔
            ¬Silent w message r params := by
        constructor
        · intro hhead hs
          rw [hsilent hs] at hhead
          exact not_oneHead_empty _ _ hhead
        · exact fun hs => (hloud hs).oneHead _ _
      rw [hone, hiff]
      simp [hroute]

/-- A handler that answers a HEAD. -/
theorem one_response_head :
    let f : Middleware := fun _ _ _ => ⟨[.send (bytes "ok") 200], .returns⟩
    let t : Tables := ({} : Tables).httpResponse ⟨bytes "/", [f], bytes "HEAD", {}⟩
    ∃ executed, executeRoute ⟨emptyDisk, 1, 1⟩ t true
        (bytes "HEAD / HTTP/1.1\r\nHost: a\r\n\r\n") = .ok executed ∧
      OneResponse (bytes "HEAD / HTTP/1.1\r\nHost: a\r\n\r\n") executed := by
  intro f t
  have hstd : StdExceptionsOnly t := by
    intro r hr g hg message params q
    obtain rfl : r = ⟨bytes "/", [f], bytes "HEAD", {}⟩ := by
      cases hr with
      | inl hr =>
        exact List.mem_singleton.mp hr
      | inr hr =>
        cases hr
    obtain rfl := List.mem_singleton.mp hg
    nofun
  obtain ⟨executed, hexecuted, hone⟩ := one_response_iff ⟨emptyDisk, 1, 1⟩ t true
    (bytes "HEAD / HTTP/1.1\r\nHost: a\r\n\r\n") hstd
  refine ⟨executed, hexecuted, hone.mpr ?_⟩
  rintro ⟨message, r, params, hparse, hroute, -, -, hsilent⟩
  obtain rfl : _ = message := Option.some.inj (rfl.symm.trans hparse)
  obtain ⟨rfl, rfl⟩ := Prod.mk.inj (Option.some.inj (rfl.symm.trans hroute))
  exact hsilent (Or.inl rfl)

/-- A middleware that neither answers nor calls `next`: no byte goes out, and the connection is
kept. -/
theorem silent_handler_sends_nothing :
    let f : Middleware := fun _ _ _ => ⟨[.setHeaders (bytes "X: 1")], .returns⟩
    let t : Tables := ({} : Tables).httpResponse ⟨bytes "/", [f], bytes "GET", {}⟩
    let raw := bytes "GET / HTTP/1.1\r\nHost: a\r\n\r\n"
    executeRoute ⟨emptyDisk, 1, 1⟩ t true raw = .ok ⟨[], [], true⟩ ∧
      ¬OneResponse raw ⟨[], [], true⟩ := by
  intro f t raw
  refine ⟨by decide +kernel, ?_⟩
  rintro ⟨hhead, -⟩
  exact not_oneHead_empty true true hhead

end Vermell.Router
