import Vermell.Router.Delimited
import Vermell.Router.Tainted

/-! Requests and the responses to them. Where the handlers leave the framing alone, a client that
reads by the lengths finds the response whole, and stops where the next one begins. -/
namespace Vermell.Router
open Http Text

/-- A call that leaves the framing of the response alone. -/
def Query.Call.Plain : Query.Call → Prop
  | .setHeaders header => ∀ e ∈ blockEntries header, PlainName e.1
  | .setHeadersBox box => ∀ header ∈ box, ∀ e ∈ blockEntries header, PlainName e.1
  | .json text status => FinalStatus status text
  | .html text status => FinalStatus status text
  | .send text status => FinalStatus status text
  | .file data _ status => FinalStatus status data
  | .guard _ _ => True
  | .next => True

/-- Every handler leaves the framing alone, and no route returns without an answer. -/
structure Tables.Plain (t : Tables) : Prop where
  calls : ∀ r, r ∈ t.routes.map Prod.snd ∨ r ∈ t.patternRoutes.map PatternRoute.impl →
    ∀ f ∈ r.middlewares, ∀ message params q, ∀ call ∈ (f message params q).calls, call.Plain
  answers : ∀ r, r ∈ t.routes.map Prod.snd ∨ r ∈ t.patternRoutes.map PatternRoute.impl →
    ∀ message params q, runMiddlewares message params {} r.middlewares = .ok q →
      Answers message params {} r.middlewares

/-- Nothing that the handlers have done so far touches the framing. -/
structure Query.Plain (q : Query) : Prop where
  headers : ∃ strings, q.headers = generate strings ∧
    ∀ header ∈ strings, ∀ e ∈ blockEntries header, PlainName e.1
  last : q.last = {} ∨ ∃ r, Delimited r ∧ q.last = wire r

theorem delimited_prepared {body type headers : Bytes} {status : ℤ}
    (hnames : ∀ e ∈ blockEntries headers, PlainName e.1) (hstatus : FinalStatus status body) :
    Delimited (prepared body type headers status) := by
  refine ⟨(legible_prepared body type headers status).sound, ?_, ?_⟩
  · rw [prepared_headers]
    have htype : PlainName (bytes "Content-Type") := by decide
    exact Assoc.names_putAll lower hnames (List.forall_mem_singleton.mpr htype)
  · have hcode : (prepared body type headers status).code = status := by
      simp only [prepared, applyHeaders_eq]
      rfl
    rwa [hcode]

theorem Query.Plain.answer {q : Query} (h : q.Plain) {body type : Bytes} {status : ℤ}
    (hstatus : FinalStatus status body) : (q.answer body type status).Plain := by
  obtain ⟨strings, hheaders, hnames⟩ := h.headers
  refine ⟨h.headers, Or.inr ⟨_, delimited_prepared ?_ hstatus, rfl⟩⟩
  rw [hheaders, blockEntries_generate]
  intro e he
  obtain ⟨header, hheader, hentry⟩ := List.mem_flatMap.mp he
  exact hnames header hheader e hentry

theorem Query.Plain.headersMore {q : Query} (h : q.Plain) {box : List Bytes}
    (hbox : ∀ header ∈ box, ∀ e ∈ blockEntries header, PlainName e.1) :
    (q.setHeadersBox box).Plain := by
  obtain ⟨strings, hheaders, hnames⟩ := h.headers
  refine ⟨⟨strings ++ box, ?_, List.forall_mem_append.mpr ⟨hnames, hbox⟩⟩, h.last⟩
  simp [Query.setHeadersBox, hheaders, generate]

theorem Query.Plain.apply {q : Query} (h : q.Plain) {call : Query.Call} (hcall : call.Plain) :
    (q.apply call).Plain := by
  cases call with
  | setHeaders header =>
    have hbox : q.setHeaders header = q.setHeadersBox [header] := by
      simp [Query.setHeaders, Query.setHeadersBox, generate]
    rw [Query.apply, hbox]
    exact h.headersMore (List.forall_mem_singleton.mpr hcall)
  | setHeadersBox box => exact h.headersMore hcall
  | json text status => exact h.answer hcall
  | html text status => exact h.answer hcall
  | send text status => exact h.answer hcall
  | file data type status => exact h.answer hcall
  | guard key customMsg => exact ⟨h.headers, h.last⟩
  | next => exact ⟨h.headers, h.last⟩

theorem Query.Plain.after {q : Query} (h : q.Plain) {calls : List Query.Call}
    (hcalls : ∀ call ∈ calls, call.Plain) : (q.after calls).Plain := by
  unfold Query.after
  induction calls generalizing q with
  | nil => exact h
  | cons call rest ih =>
    obtain ⟨hcall, hrest⟩ := List.forall_mem_cons.mp hcalls
    exact ih (h.apply hcall) hrest

theorem plain_runMiddlewares {message : Message} {params : List (Bytes × Bytes)} {q q' : Query}
    {functions : List Middleware} (h : q.Plain)
    (hcalls : ∀ f ∈ functions, ∀ q, ∀ call ∈ (f message params q).calls, call.Plain)
    (hrun : runMiddlewares message params q functions = .ok q') : q'.Plain := by
  induction functions generalizing q with
  | nil =>
    cases hrun
    exact h
  | cons f rest ih =>
    obtain ⟨hf, hrest⟩ := List.forall_mem_cons.mp hcalls
    have hlock : q.lock.Plain := ⟨h.headers, h.last⟩
    have hafter := hlock.after (hf q.lock)
    simp only [runMiddlewares] at hrun
    split_ifs at hrun with hend hnext
    · exact ih hafter hrest hrun
    · cases hrun
      exact hafter

theorem FinalStatus.page {status : ℤ} (h : 200 ≤ status ∧ status ≤ 999)
    (hbody : status ≠ 204 ∧ status ≠ 304) (body : Bytes) : FinalStatus status body :=
  ⟨h.1, h.2, fun hnone => absurd hnone (not_or.mpr hbody)⟩

/-- A route answers with a delimited response: its guard page, or what its handlers left. -/
theorem delimited_answer {t : Tables} (h : t.Plain) {w : World} {r : Route} {message : Message}
    {params : List (Bytes × Bytes)}
    (hmem : r ∈ t.routes.map Prod.snd ∨ r ∈ t.patternRoutes.map PatternRoute.impl)
    {response : WireResponse} {cooldown : Cooldown}
    (hanswer : r.answer w message params = .ok (response, cooldown)) :
    ∃ d, Delimited d ∧ response = wire d := by
  unfold Route.answer at hanswer
  split_ifs at hanswer with hguard
  · cases hanswer
    refine ⟨_, delimited_prepared ?_ (.page (by decide) (by decide) _), rfl⟩
    simp [blockEntries, entryOf]
  · cases hrun : runMiddlewares message params {} r.middlewares with
    | error e => simp [execute, hrun, Bind.bind, Except.bind] at hanswer
    | ok q =>
      simp only [execute, hrun, Bind.bind, Except.bind, Pure.pure, Except.pure] at hanswer
      cases hanswer
      have hfresh : Query.Plain {} := ⟨⟨[], rfl, by simp⟩, Or.inl rfl⟩
      have hplain := plain_runMiddlewares hfresh
        (fun f hf q => h.calls r hmem f hf message params q) hrun
      rcases hplain.last with hnone | hsome
      · -- a response that was sent has a status line
        obtain ⟨sent, -, hsent⟩ := sent_of_answers hrun (Or.inr (h.answers r hmem _ _ q hrun))
        rw [hnone] at hsent
        have hhead : ([] : Bytes) = sent.head := congrArg WireResponse.head hsent
        rw [Response.head_eq] at hhead
        simp [headText, Response.statusLine, CRLF] at hhead
      · exact hsome

theorem delimited_staticResponse {status : ℤ} {body : Bytes} (hstatus : FinalStatus status body)
    (mime cacheControl etag : Bytes) :
    Delimited (staticResponse status body mime cacheControl etag) := by
  have hset {d : Response} (h : Delimited d) (name value : Bytes) (hname : PlainName name)
      (hsame : sanitize name = name) : Delimited (d.set name value) := by
    refine ⟨h.sound.set name value, Response.names_set h.names (fun _ => hsame.symm ▸ hname) value,
      ?_⟩
    unfold Response.set
    split_ifs <;> exact h.status
  have hfresh : Delimited (((({} : Response).status status).type mime).setBody body) := by
    refine ⟨((Response.sound_fresh.apply (.status status)).apply (.type mime)).apply (.body body),
      ?_, hstatus⟩
    exact Response.names_set (by simp [Response.status]) (fun _ => by decide) mime
  unfold staticResponse
  simp only
  split_ifs
  · exact hset (hset hfresh _ _ (by decide) (by decide)) _ _ (by decide) (by decide)
  · exact hset hfresh _ _ (by decide) (by decide)
  · exact hset hfresh _ _ (by decide) (by decide)
  · exact hfresh

theorem delimited_respond {status : ℤ} {body : Bytes} (hstatus : FinalStatus status body)
    (mime cacheControl etag : Bytes) :
    ∃ d, Delimited d ∧ respond status body mime cacheControl etag = wire d :=
  ⟨_, delimited_staticResponse hstatus mime cacheControl etag, rfl⟩

theorem delimited_serveFile (disk : Disk) (m : StaticMount) (full ifNoneMatch : Bytes)
    {missing : WireResponse} (h : ∃ d, Delimited d ∧ missing = wire d) :
    ∃ d, Delimited d ∧ m.serveFile disk full ifNoneMatch missing = wire d := by
  have hpage {status : ℤ} (hrange : 200 ≤ status ∧ status ≤ 999)
      (hbody : status ≠ 204 ∧ status ≠ 304) (body mime cacheControl etag : Bytes) :=
    delimited_respond (.page hrange hbody body) mime cacheControl etag
  unfold StaticMount.serveFile
  simp only
  cases (disk.readBounded full m.options.maxFileBytes).err with
  | notFound => exact h
  | forbidden => exact hpage (by decide) (by decide) _ _ _ _
  | tooLarge => exact hpage (by decide) (by decide) _ _ _ _
  | ioError => exact hpage (by decide) (by decide) _ _ _ _
  | ok =>
    simp only
    split_ifs
    · exact delimited_respond ⟨by decide, by decide, fun _ => rfl⟩ _ _ _
    · exact hpage (by decide) (by decide) _ _ _ _
    · exact hpage (by decide) (by decide) _ _ _ _

theorem delimited_serve {disk : Disk} {m : StaticMount} {path method ifNoneMatch : Bytes}
    {response : WireResponse} (h : m.serve disk path method ifNoneMatch = some response) :
    ∃ d, Delimited d ∧ response = wire d := by
  have hforbidden : ∃ d, Delimited d ∧ StaticMount.forbidden = wire d :=
    delimited_respond (.page (by decide) (by decide) _) _ _ _
  have hmissing : ∃ d, Delimited d ∧ StaticMount.notFound = wire d :=
    delimited_respond (.page (by decide) (by decide) _) _ _ _
  unfold StaticMount.serve at h
  simp only at h
  split_ifs at h
  all_goals cases h
  · exact hforbidden
  · exact hforbidden
  · refine delimited_serveFile disk m _ _ ?_
    unfold StaticMount.serveIndex
    split_ifs
    · exact hforbidden
    · exact delimited_serveFile disk m _ _ hmissing
    · exact hmissing

theorem delimited_errorPage (status : ℤ) (h : 200 ≤ status ∧ status ≤ 999)
    (hbody : status ≠ 204 ∧ status ≠ 304) (error : String) :
    Delimited (errorPage status error) := by
  refine ⟨((Response.sound_fresh.apply (.status status)).apply (.type _)).apply (.body _), ?_,
    .page h hbody _⟩
  exact Response.names_set (by simp [Response.status]) (fun _ => by decide) _

/-- What no route takes and is served comes from a mount. -/
theorem serveRoutes_unrouted {w : World} {t : Tables} {message : Message} {served : Served}
    (hroute : routeFor t message = none) (h : serveRoutes w t message = .ok (some served)) :
    ∃ m : StaticMount, m.serve w.disk message.path message.method
      (message.header (bytes "If-None-Match")) = some served.response := by
  unfold routeFor at hroute
  unfold serveRoutes at h
  cases hexact : Assoc.get id (routeKey message.path message.method) t.routes with
  | some r => simp [hexact] at hroute
  | none =>
    simp only [hexact] at hroute h
    rw [servePatterns_eq_patternFor, hroute] at h
    split_ifs at h with hpatterns
    · cases h
    · cases hbest : bestMount message.path t.mounts with
      | none => simp [hbest] at h
      | some m =>
        simp only [hbest, Except.ok.injEq, Option.map_eq_some_iff] at h
        obtain ⟨response, hserve, rfl⟩ := h
        exact ⟨m, hserve⟩

/-- Every request that is served gets a delimited response. -/
theorem delimited_serveMessage {t : Tables} (h : t.Plain) {w : World} {message : Message}
    {served : Served} (hserved : serveMessage w t message = .ok served) :
    ∃ d, Delimited d ∧ served.response = wire d := by
  have hpage : ∃ d, Delimited d ∧ notDefinedPage = wire d :=
    ⟨_, delimited_errorPage _ (by decide) (by decide) _, rfl⟩
  unfold serveMessage at hserved
  cases hroutes : serveRoutes w t message with
  | error e =>
    cases e <;> simp only [hroutes] at hserved <;> cases hserved
    all_goals exact hpage
  | ok found =>
    cases found with
    | none =>
      simp only [hroutes] at hserved
      cases hserved
      exact hpage
    | some served' =>
      simp only [hroutes] at hserved
      cases hserved
      have hcases := serveRoutes_cases w t message
      cases hroute : routeFor t message with
      | some found =>
        obtain ⟨r, params⟩ := found
        rw [hroute] at hcases
        obtain ⟨answerer, hserve⟩ := hcases
        rw [hserve] at hroutes
        cases hanswer : r.answer w message params with
        | error e => simp [Route.served, hanswer, Bind.bind, Except.bind] at hroutes
        | ok a =>
          simp only [Route.served, hanswer, Bind.bind, Except.bind, Pure.pure, Except.pure]
            at hroutes
          cases hroutes
          exact delimited_answer h (routeFor_mem hroute) hanswer
      | none =>
        obtain ⟨m, hserve⟩ := serveRoutes_unrouted hroute hroutes
        exact delimited_serve hserve

/-- The client asked for the head only. -/
def headOnly (raw : Bytes) : Bool :=
  (parse raw).any fun message => message.method = bytes "HEAD"

/-- A request on a connection, what it met, and what was sent for it. -/
structure Exchange where
  world : World
  tables : Tables
  allow : Bool
  raw : Bytes
  executed : Executed

/-- `ExecuteRoute` came to its end, over tables that leave the framing alone. -/
structure Exchange.Served (e : Exchange) : Prop where
  plain : e.tables.Plain
  executes : executeRoute e.world e.tables e.allow e.raw = .ok e.executed

theorem Exchange.Served.read {e : Exchange} (h : e.Served) (s : Bytes) :
    ∃ reply, Reply.read (headOnly e.raw) (e.executed.head ++ e.executed.body ++ s) =
      some (reply, s) ∧ e.executed.ReadAs reply := by
  have hexecutes := h.executes
  unfold executeRoute at hexecutes
  cases hparse : parse e.raw with
  | none =>
    rw [hparse] at hexecutes
    have hread := (delimited_errorPage 400 (by decide) (by decide)
      "malformed request").read false e.allow false s
    simp only at hexecutes
    have hheadOnly : headOnly e.raw = false := by simp [headOnly, hparse]
    rw [hheadOnly, ← Except.ok.inj hexecutes]
    exact hread
  | some message =>
    rw [hparse] at hexecutes
    cases hserved : serveMessage e.world e.tables message with
    | error ending => simp [hserved, Bind.bind, Except.bind] at hexecutes
    | ok served =>
      obtain ⟨d, hd, hresponse⟩ := delimited_serveMessage h.plain hserved
      simp only [hserved, Bind.bind, Except.bind, Pure.pure, Except.pure] at hexecutes
      have hread := hd.read (keepAliveRequested message) e.allow (headOnly e.raw) s
      have hheadOnly : headOnly e.raw = decide (message.method = bytes "HEAD") := by
        simp [headOnly, hparse]
      rw [← Except.ok.inj hexecutes, hresponse]
      simp only [hheadOnly, decide_eq_true_eq] at hread ⊢
      exact hread

end Vermell.Router
