import Vermell.Router.Execute

/-! Whether the head that is sent tells the client what the server does with the connection. The
decision and the patch of the head are made on its text, the promise is about its header lines. -/
namespace Vermell.Router
open Http Text

/-- The head has a header Connection with the value close, ignoring case in both. -/
def Closes (head : Bytes) : Prop :=
  ∃ f, HasHeader head f ∧ iequals f.1 (bytes "Connection") = true ∧
    iequals f.2 (bytes "close") = true

/-- The first place where the head says `Connection: keep-alive` is a header line of its own. -/
def KeepAliveLine (head : Bytes) : Prop :=
  ∃ p s, head = p ++ CRLF ++ CONNECTION_KEEP_ALIVE ++ CRLF ++ s ∧
    find CONNECTION_KEEP_ALIVE head = some (p.length + 2)

/-- What makes the head tell the truth: a connection that is kept has no closing header, and one
that is closed has one, or a line that the patch turns into one. -/
def TruthfulHead (requested allow : Bool) (head : Bytes) : Prop :=
  if requested = true ∧ allow = true ∧ ¬CONNECTION_CLOSE <:+: head then ¬Closes head
  else Closes head ∨ KeepAliveLine head

theorem asciiLower_eq_self {c d : UInt8} (hd : d < 65) (h : asciiLower c = d) : c = d := by
  unfold asciiLower isUpper at h
  split_ifs at h with hupper
  · simp only [Bool.and_eq_true, decide_eq_true_eq, UInt8.le_iff_toNat_le] at hupper
    have hval := congrArg UInt8.toNat h
    rw [UInt8.lt_iff_toNat_lt] at hd
    simp at hupper hval hd
    omega
  · exact h

theorem eq_of_lower_eq {s t : Bytes} (ht : t.all (· < 65) = true) (h : lower s = t) : s = t := by
  subst h
  have hsame : ∀ c ∈ s, asciiLower c = c := by
    intro c hc
    have hlow := List.all_eq_true.mp ht _ (List.mem_map_of_mem hc)
    exact (asciiLower_eq_self (of_decide_eq_true hlow) rfl).symm
  exact ((List.map_congr_left hsame).trans (List.map_id' s)).symm

theorem not_mem_of_iequals {s t : Bytes} {c : UInt8} (h : iequals s t = true)
    (hc : asciiLower c ∉ lower t) : c ∉ s := by
  rw [iequals_iff] at h
  rw [← h] at hc
  exact fun hmem => hc (List.mem_map_of_mem hmem)

theorem lower_append (s t : Bytes) : lower (s ++ t) = lower s ++ lower t := List.map_append

/-- A line closes when it is the closing header, ignoring case. -/
theorem closing_line_iff (line : Bytes) : iequals line CONNECTION_CLOSE = true ↔
    ∃ f, line = fieldText f ∧ iequals f.1 (bytes "Connection") = true ∧
      iequals f.2 (bytes "close") = true := by
  have hclose : lower CONNECTION_CLOSE =
      lower (bytes "Connection") ++ (bytes ": " ++ lower (bytes "close")) := by decide
  simp only [iequals_iff]
  constructor
  · intro h
    rw [hclose] at h
    obtain ⟨name, rest, rfl, hname, hrest⟩ := List.map_eq_append_iff.mp h
    obtain ⟨sep, value, rfl, hsep, hvalue⟩ := List.map_eq_append_iff.mp hrest
    have hsame : sep = bytes ": " := eq_of_lower_eq (by decide) hsep
    exact ⟨(name, value), by rw [hsame, fieldText, List.append_assoc], hname, hvalue⟩
  · rintro ⟨f, rfl, hname, hvalue⟩
    have hsep : lower (bytes ": ") = bytes ": " := by decide
    rw [fieldText, lower_append, lower_append, hname, hvalue, hsep, hclose, List.append_assoc]

/-- The closing headers of a text are the closing lines behind its first. -/
theorem closes_joinLines {lines : List Bytes} (hfree : ∀ line ∈ lines, CR ∉ line) :
    Closes (joinLines CR LF lines) ↔
      ∃ line ∈ lines.tail, iequals line CONNECTION_CLOSE = true := by
  constructor
  · rintro ⟨f, hf, hname, hvalue⟩
    obtain ⟨-, -, -, hmem⟩ := (hasHeader_joinLines hfree f).mp hf
    exact ⟨fieldText f, hmem, (closing_line_iff _).mpr ⟨f, rfl, hname, hvalue⟩⟩
  · rintro ⟨line, hmem, hclose⟩
    obtain ⟨f, rfl, hname, hvalue⟩ := (closing_line_iff line).mp hclose
    refine ⟨f, (hasHeader_joinLines hfree f).mpr ⟨?_, ?_, ?_, hmem⟩, hname, hvalue⟩
    · exact not_mem_of_iequals hname (by decide)
    · exact not_mem_of_iequals hname (by decide)
    · exact not_mem_of_iequals hvalue (by decide)

section
variable {requested allow : Bool} {head : Bytes}

theorem settleConnection_kept (h : requested = true ∧ allow = true ∧ ¬CONNECTION_CLOSE <:+: head) :
    settleConnection requested allow head = (true, head) := by
  obtain ⟨hreq, hallow, hnone⟩ := h
  simp [settleConnection, hreq, hallow, (find_isNone_iff _ _).mpr hnone]

theorem settleConnection_closed
    (h : ¬(requested = true ∧ allow = true ∧ ¬CONNECTION_CLOSE <:+: head)) :
    settleConnection requested allow head =
      (false, match find CONNECTION_KEEP_ALIVE head with
        | none => head
        | some pos => head.take (pos + 12) ++ bytes "close" ++ head.drop (pos + 12 + 10)) := by
  have hno : (requested && allow && (find CONNECTION_CLOSE head).isNone) = false := by
    rw [Bool.eq_false_iff]
    intro hyes
    simp only [Bool.and_eq_true, find_isNone_iff] at hyes
    exact h ⟨hyes.1.1, hyes.1.2, hyes.2⟩
  cases hfind : find CONNECTION_KEEP_ALIVE head with
  | none => simp [settleConnection, hno, hfind]
  | some pos => simp [settleConnection, hno, hfind]

/-- The patch turns `Connection: keep-alive` into `Connection: close`. -/
theorem patch_eq (p s : Bytes) :
    (p ++ (CONNECTION_KEEP_ALIVE ++ s)).take (p.length + 12) ++ bytes "close"
        ++ (p ++ (CONNECTION_KEEP_ALIVE ++ s)).drop (p.length + 12 + 10) =
      p ++ (CONNECTION_CLOSE ++ s) := by
  have hparts : CONNECTION_KEEP_ALIVE = bytes "Connection: " ++ bytes "keep-alive" := by decide
  have hclose : CONNECTION_CLOSE = bytes "Connection: " ++ bytes "close" := by decide
  have htake : (p ++ (CONNECTION_KEEP_ALIVE ++ s)).take (p.length + 12) =
      p ++ bytes "Connection: " := by
    rw [List.take_length_add_append, hparts, List.append_assoc]
    exact congrArg (p ++ ·) (List.take_left' rfl)
  have hdrop : (p ++ (CONNECTION_KEEP_ALIVE ++ s)).drop (p.length + 12 + 10) = s := by
    rw [Nat.add_assoc, List.drop_length_add_append]
    exact List.drop_left' rfl
  rw [htake, hdrop, hclose]
  simp

end

theorem iequals_length {s t : Bytes} (h : iequals s t = true) : s.length = t.length := by
  simpa [lower] using congrArg List.length ((iequals_iff s t).mp h)

/-- A line around the patch closes when it is the patch and nothing else. -/
theorem patched_line_closes_iff (l r : Bytes) :
    iequals (l ++ CONNECTION_CLOSE ++ r) CONNECTION_CLOSE = true ↔ l = [] ∧ r = [] := by
  constructor
  · intro h
    have hlen := iequals_length h
    simp only [List.length_append] at hlen
    exact ⟨List.length_eq_zero_iff.mp (by omega), List.length_eq_zero_iff.mp (by omega)⟩
  · rintro ⟨rfl, rfl⟩
    decide

theorem keepAlive_line_open (l r : Bytes) :
    iequals (l ++ CONNECTION_KEEP_ALIVE ++ r) CONNECTION_CLOSE = false := by
  rw [Bool.eq_false_iff]
  intro h
  have hlen := iequals_length h
  have hkeep : CONNECTION_KEEP_ALIVE.length = 22 := by decide
  have hclose : CONNECTION_CLOSE.length = 17 := by decide
  simp only [List.length_append] at hlen
  omega

/-- The lines around the first `Connection: keep-alive` decide whether it is a line of its own. -/
theorem keepAliveLine_iff {before after : List Bytes} {l r : Bytes}
    (hfree : ∀ line ∈ before ++ (l ++ CONNECTION_KEEP_ALIVE ++ r) :: after, CR ∉ line ∧ LF ∉ line)
    (hfind : find CONNECTION_KEEP_ALIVE
        (joinLines CR LF (before ++ (l ++ CONNECTION_KEEP_ALIVE ++ r) :: after)) =
      some (joinLines CR LF before ++ l).length) :
    KeepAliveLine (joinLines CR LF (before ++ (l ++ CONNECTION_KEEP_ALIVE ++ r) :: after)) ↔
      before ≠ [] ∧ l = [] ∧ r = [] := by
  have hjoin : joinLines CR LF (before ++ (l ++ CONNECTION_KEEP_ALIVE ++ r) :: after) =
      joinLines CR LF before ++ l ++
        (CONNECTION_KEEP_ALIVE ++ (r ++ CR :: LF :: joinLines CR LF after)) := by
    simp
  obtain ⟨hcr, hlf⟩ := hfree (l ++ CONNECTION_KEEP_ALIVE ++ r) (by simp)
  simp only [List.mem_append, not_or] at hcr hlf
  constructor
  · rintro ⟨p, s, htext, hpos⟩
    rw [hpos] at hfind
    -- both splits of the text are at the same place
    have hlen : (p ++ CRLF).length = (joinLines CR LF before ++ l).length := by
      simpa [CRLF] using Option.some.inj hfind
    have hsplit : p ++ CRLF ++ (CONNECTION_KEEP_ALIVE ++ (CRLF ++ s)) =
        joinLines CR LF before ++ l ++
          (CONNECTION_KEEP_ALIVE ++ (r ++ CR :: LF :: joinLines CR LF after)) := by
      rw [← hjoin, htext]
      simp
    obtain ⟨hfront, hback⟩ := List.append_inj hsplit hlen
    have hend := List.append_cancel_left hback
    have hl : l = [] := by
      cases l using List.reverseRecOn with
      | nil => rfl
      | append_singleton l c =>
        have hlast := congrArg List.getLast? hfront
        simp [CRLF] at hlast
        exact absurd (by simp [hlast]) hlf.1.1
    subst hl
    refine ⟨?_, rfl, ?_⟩
    · rintro rfl
      simp [CRLF] at hfront
    · cases r with
      | nil => rfl
      | cons c r =>
        have hfirst := (List.cons.inj hend).1
        exact absurd (by simp [← hfirst]) hcr.2
  · rintro ⟨hne, rfl, rfl⟩
    obtain ⟨p, hp⟩ := joinLines_ends (a := CR) (b := LF) hne
    refine ⟨p, joinLines CR LF after, ?_, ?_⟩
    · rw [hjoin, hp]
      simp [CRLF]
    · rw [hfind, hp]
      simp

/-- The patch changes the line of its place and no other. -/
theorem settleConnection_patched {requested allow : Bool} {before after : List Bytes} {l r : Bytes}
    (hkeep : ¬(requested = true ∧ allow = true ∧ ¬CONNECTION_CLOSE <:+:
      joinLines CR LF (before ++ (l ++ CONNECTION_KEEP_ALIVE ++ r) :: after)))
    (hfind : find CONNECTION_KEEP_ALIVE
        (joinLines CR LF (before ++ (l ++ CONNECTION_KEEP_ALIVE ++ r) :: after)) =
      some (joinLines CR LF before ++ l).length) :
    settleConnection requested allow
        (joinLines CR LF (before ++ (l ++ CONNECTION_KEEP_ALIVE ++ r) :: after)) =
      (false, joinLines CR LF (before ++ (l ++ CONNECTION_CLOSE ++ r) :: after)) := by
  have hjoin (w : Bytes) : joinLines CR LF (before ++ (l ++ w ++ r) :: after) =
      joinLines CR LF before ++ l ++ (w ++ (r ++ CR :: LF :: joinLines CR LF after)) := by
    simp
  rw [settleConnection_closed hkeep, hfind, hjoin CONNECTION_KEEP_ALIVE, hjoin CONNECTION_CLOSE]
  exact congrArg (Prod.mk false) (patch_eq _ _)

/-- The head that is sent is the one it was, or one with the patch in one of its lines. -/
theorem settleConnection_lines (requested allow : Bool) (lines : List Bytes) :
    (settleConnection requested allow (joinLines CR LF lines)).2 = joinLines CR LF lines ∨
      ∃ before l r after, lines = before ++ (l ++ CONNECTION_KEEP_ALIVE ++ r) :: after ∧
        (settleConnection requested allow (joinLines CR LF lines)).2 =
          joinLines CR LF (before ++ (l ++ CONNECTION_CLOSE ++ r) :: after) := by
  by_cases hkeep : requested = true ∧ allow = true ∧ ¬CONNECTION_CLOSE <:+: joinLines CR LF lines
  · rw [settleConnection_kept hkeep]
    exact Or.inl rfl
  · cases hfind : find CONNECTION_KEEP_ALIVE (joinLines CR LF lines) with
    | none =>
      rw [settleConnection_closed hkeep, hfind]
      exact Or.inl rfl
    | some i =>
      obtain ⟨before, l, r, after, rfl, rfl⟩ :=
        find_word (by decide) (by decide) (by decide) hfind
      rw [settleConnection_patched hkeep hfind]
      exact Or.inr ⟨before, l, r, after, rfl, rfl⟩

/-- A head of lines without CR and LF tells the truth after the patch exactly when it did not
promise the wrong thing before, or the patch hits the line it is meant for. -/
theorem settleConnection_truthful_iff (requested allow : Bool) {lines : List Bytes}
    (hfree : ∀ line ∈ lines, CR ∉ line ∧ LF ∉ line) :
    ((settleConnection requested allow (joinLines CR LF lines)).1 = false ↔
        Closes (settleConnection requested allow (joinLines CR LF lines)).2) ↔
      TruthfulHead requested allow (joinLines CR LF lines) := by
  unfold TruthfulHead
  split_ifs with hkeep
  · simp [settleConnection_kept hkeep]
  · cases hfind : find CONNECTION_KEEP_ALIVE (joinLines CR LF lines) with
    | none =>
      have hline : ¬KeepAliveLine (joinLines CR LF lines) := by
        rintro ⟨p, s, -, hpos⟩
        rw [hfind] at hpos
        cases hpos
      simp [settleConnection_closed hkeep, hfind, hline]
    | some i =>
      obtain ⟨before, l, r, after, rfl, rfl⟩ :=
        find_word (by decide) (by decide) (by decide) hfind
      have hcr : ∀ line ∈ before ++ (l ++ CONNECTION_KEEP_ALIVE ++ r) :: after, CR ∉ line :=
        fun line hmem => (hfree line hmem).1
      have hpatched : ∀ line ∈ before ++ (l ++ CONNECTION_CLOSE ++ r) :: after, CR ∉ line := by
        have hclose : CR ∉ CONNECTION_CLOSE := by decide
        simp only [List.mem_append, List.mem_cons, or_imp, forall_and, forall_eq, not_or] at hcr ⊢
        exact ⟨hcr.1, ⟨⟨hcr.2.1.1.1, hclose⟩, hcr.2.1.2⟩, hcr.2.2⟩
      rw [settleConnection_patched hkeep hfind, closes_joinLines hpatched, closes_joinLines hcr,
        keepAliveLine_iff hfree hfind]
      have hopen := keepAlive_line_open l r
      have hclose := patched_line_closes_iff l r
      cases before with
      | nil => simp
      | cons first before =>
        simp only [List.cons_append, List.tail_cons, List.mem_append, List.mem_cons, or_and_right,
          exists_or, exists_eq_left, ne_eq, reduceCtorEq, not_false_eq_true, true_and]
        rw [hopen, hclose, or_assoc]
        simp only [Bool.false_eq_true, false_or, true_iff]
        exact or_congr_right or_comm

/-- A response is empty, as a query's is before the first answer, or that of a sound `Response`. -/
def Framed (response : WireResponse) : Prop :=
  response = {} ∨ ∃ r : Response, r.Sound ∧ response = wire r

/-- A response that a sound `Response` has built. -/
def Sent (response : WireResponse) : Prop := ∃ r : Response, r.Sound ∧ response = wire r

theorem Sent.framed {response : WireResponse} (h : Sent response) : Framed response := Or.inr h

theorem sent_prepare (body type headers : Bytes) (status : ℤ) :
    Sent (prepare body type headers status) :=
  ⟨_, (legible_prepared body type headers status).sound, rfl⟩

theorem Framed.after {q : Query} (h : Framed q.last) (calls : List Query.Call) :
    Framed (q.after calls).last := by
  unfold Query.after
  induction calls generalizing q with
  | nil => exact h
  | cons call rest ih =>
    refine ih ?_
    cases call with
    | setHeaders header => exact h
    | setHeadersBox box => exact h
    | json text status => exact (sent_prepare _ _ _ _).framed
    | html text status => exact (sent_prepare _ _ _ _).framed
    | send text status => exact (sent_prepare _ _ _ _).framed
    | file data type status => exact (sent_prepare _ _ _ _).framed
    | guard key customMsg => exact h
    | next => exact h

theorem framed_runMiddlewares {message : Message} {params : List (Bytes × Bytes)} {q q' : Query}
    {functions : List Middleware} (h : Framed q.last)
    (hrun : runMiddlewares message params q functions = .ok q') : Framed q'.last := by
  induction functions generalizing q with
  | nil =>
    cases hrun
    exact h
  | cons f rest ih =>
    have hlock : Framed q.lock.last := h
    have hafter := hlock.after (f message params q.lock).calls
    simp only [runMiddlewares] at hrun
    split_ifs at hrun with hend hnext
    · exact ih hafter hrun
    · cases hrun
      exact hafter

theorem framed_answer {w : World} {r : Route} {message : Message} {params : List (Bytes × Bytes)}
    {response : WireResponse} {cooldown : Cooldown}
    (h : r.answer w message params = .ok (response, cooldown)) : Framed response := by
  unfold Route.answer at h
  split_ifs at h with hguard
  · cases h
    exact (sent_prepare _ _ _ _).framed
  · cases hrun : runMiddlewares message params {} r.middlewares with
    | error e => simp [execute, hrun, Bind.bind, Except.bind] at h
    | ok q =>
      simp only [execute, hrun, Bind.bind, Except.bind, Pure.pure, Except.pure] at h
      cases h
      exact framed_runMiddlewares (Or.inl rfl) hrun

theorem sent_respond (status : ℤ) (body mime cacheControl etag : Bytes) :
    Sent (respond status body mime cacheControl etag) := by
  have hfresh : (((({} : Response).status status).type mime).setBody body).Sound :=
    ((Response.Sound.apply Response.sound_fresh (.status status)).apply (.type mime)).apply
      (.body body)
  refine ⟨_, ?_, rfl⟩
  unfold staticResponse
  simp only
  split_ifs
  · exact (hfresh.set _ _).set _ _
  · exact hfresh.set _ _
  · exact hfresh.set _ _
  · exact hfresh

theorem sent_serveFile (disk : Disk) (m : StaticMount) (full ifNoneMatch : Bytes)
    {missing : WireResponse} (h : Sent missing) :
    Sent (m.serveFile disk full ifNoneMatch missing) := by
  unfold StaticMount.serveFile
  simp only
  cases (disk.readBounded full m.options.maxFileBytes).err with
  | notFound => exact h
  | forbidden => exact sent_respond _ _ _ _ _
  | tooLarge => exact sent_respond _ _ _ _ _
  | ioError => exact sent_respond _ _ _ _ _
  | ok =>
    simp only
    split_ifs <;> exact sent_respond _ _ _ _ _

theorem sent_servePath (disk : Disk) (m : StaticMount) (full ifNoneMatch : Bytes) :
    Sent (m.servePath disk full ifNoneMatch) := by
  have hmissing : Sent StaticMount.notFound := sent_respond _ _ _ _ _
  refine sent_serveFile disk m full ifNoneMatch ?_
  unfold StaticMount.serveIndex
  split_ifs
  · exact sent_respond _ _ _ _ _
  · exact sent_serveFile disk m _ _ hmissing
  · exact hmissing

theorem sent_serve {disk : Disk} {m : StaticMount} {path method ifNoneMatch : Bytes}
    {response : WireResponse} (h : m.serve disk path method ifNoneMatch = some response) :
    Sent response := by
  have hforbidden : Sent StaticMount.forbidden := sent_respond _ _ _ _ _
  unfold StaticMount.serve at h
  simp only at h
  split_ifs at h
  all_goals cases h
  · exact hforbidden
  · exact hforbidden
  · exact sent_servePath disk m _ _

theorem framed_served {w : World} {r : Route} {message : Message} {params : List (Bytes × Bytes)}
    {answerer : Answerer} {served : Served}
    (h : (do
      let (response, cooldown) ← r.answer w message params
      return some ⟨answerer, response, some cooldown⟩ : Except Ending (Option Served)) =
        .ok (some served)) : Framed served.response := by
  cases hanswer : r.answer w message params with
  | error e => simp [hanswer, Bind.bind, Except.bind] at h
  | ok a =>
    simp only [hanswer, Bind.bind, Except.bind, Pure.pure, Except.pure] at h
    cases h
    exact framed_answer hanswer

theorem framed_servePatterns {w : World} {message : Message} {patterns : List PatternRoute}
    {served : Served} (h : servePatterns w message patterns = .ok (some served)) :
    Framed served.response := by
  induction patterns with
  | nil => cases h
  | cons pr rest ih =>
    unfold servePatterns at h
    split_ifs at h with hmethod
    · exact ih h
    · cases hmatch : matchPattern pr.segments (splitPath message.path) with
      | none => exact ih (by simpa [hmatch] using h)
      | some captured =>
        rw [hmatch] at h
        exact framed_served h

theorem framed_serveRoutes {w : World} {t : Tables} {message : Message} {served : Served}
    (h : serveRoutes w t message = .ok (some served)) : Framed served.response := by
  unfold serveRoutes at h
  cases hexact : Assoc.get id (routeKey message.path message.method) t.routes with
  | some r =>
    rw [hexact] at h
    exact framed_served h
  | none =>
    simp only [hexact] at h
    split_ifs at h with hpatterns
    · exact framed_servePatterns h
    · cases hbest : bestMount message.path t.mounts with
      | none => simp [hbest] at h
      | some m =>
        simp only [hbest, Except.ok.injEq, Option.map_eq_some_iff] at h
        obtain ⟨response, hserve, rfl⟩ := h
        exact (sent_serve hserve).framed

theorem sent_errorPage (status : ℤ) (error : String) : Sent (wire (errorPage status error)) :=
  ⟨_, ((Response.sound_fresh.apply (.status status)).apply (.type _)).apply (.body _), rfl⟩

theorem framed_serveMessage {w : World} {t : Tables} {message : Message} {served : Served}
    (h : serveMessage w t message = .ok served) : Framed served.response := by
  have hpage : Framed notDefinedPage := (sent_errorPage _ _).framed
  unfold serveMessage at h
  cases hroutes : serveRoutes w t message with
  | error e =>
    cases e <;> simp only [hroutes] at h <;> cases h
    all_goals exact hpage
  | ok found =>
    cases found with
    | none =>
      simp only [hroutes] at h
      cases h
      exact hpage
    | some served' =>
      simp only [hroutes] at h
      cases h
      exact framed_serveRoutes hroutes

/-- The head of such a response is lines without control bytes. -/
theorem Framed.lines {response : WireResponse} (h : Framed response) :
    ∃ lines, response.head = joinLines CR LF lines ∧ ∀ line ∈ lines, CR ∉ line ∧ LF ∉ line := by
  rcases h with rfl | ⟨r, hr, rfl⟩
  · exact ⟨[], rfl, by simp⟩
  · refine ⟨_, hr.headShape.text.trans (headText_eq _ _), ?_⟩
    intro line hmem
    exact ⟨hr.headShape.lines_free (by decide) line hmem,
      hr.headShape.lines_free (by decide) line hmem⟩

/-- What `ExecuteRoute` returns and the Connection header of the head that it sends agree exactly
when the head of the answer was truthful in itself. -/
theorem connection_header_truthful_iff (w : World) (t : Tables) (allow : Bool) (raw : Bytes)
    (message : Message) (served : Served) (hparse : parse raw = some message)
    (hserved : serveMessage w t message = .ok served) :
    (∃ executed, executeRoute w t allow raw = .ok executed ∧
        (executed.keepAlive = false ↔ Closes executed.head)) ↔
      TruthfulHead (keepAliveRequested message) allow served.response.head := by
  obtain ⟨lines, hhead, hfree⟩ := (framed_serveMessage hserved).lines
  have hsettle := settleConnection_truthful_iff (keepAliveRequested message) allow hfree
  rw [← hhead] at hsettle
  simpa [executeRoute, hparse, hserved, Bind.bind, Except.bind, Pure.pure, Except.pure]
    using hsettle

theorem connection_header_truthful_not_defined :
    ∃ executed, executeRoute ⟨emptyDisk, 1, 1⟩ {} true (bytes "GET / HTTP/1.0\r\n\r\n") =
        .ok executed ∧ (executed.keepAlive = false ↔ Closes executed.head) := by
  refine (connection_header_truthful_iff ⟨emptyDisk, 1, 1⟩ {} true
    (bytes "GET / HTTP/1.0\r\n\r\n") _ _ rfl rfl).mpr ?_
  -- the page says keep-alive in its last header, and the patch is made there
  refine Or.inr ⟨notDefinedPage.head.take (notDefinedPage.head.length - 28), CRLF, ?_, ?_⟩
  · decide +kernel
  · decide +kernel

/-- A handler that closes in lower case: the connection is kept. -/
theorem lower_case_close_kept :
    let f : Middleware := fun _ _ _ =>
      ⟨[.setHeaders (bytes "connection: close"), .send (bytes "ok") 200], .returns⟩
    let t : Tables := ({} : Tables).httpResponse ⟨bytes "/", [f], bytes "GET", {}⟩
    ∃ executed, executeRoute ⟨emptyDisk, 1, 1⟩ t true
        (bytes "GET / HTTP/1.1\r\nHost: a\r\n\r\n") = .ok executed ∧
      ¬(executed.keepAlive = false ↔ Closes executed.head) := by
  intro f t
  let head := bytes ("HTTP/1.1 200 OK\r\nServer: Vermell\r\nContent-Type: text/plain\r\n" ++
    "connection: close\r\nContent-Length: 2\r\nAccept-Ranges: bytes\r\n" ++
    "X-Content-Type-Options: nosniff\r\n\r\n")
  refine ⟨⟨head, bytes "ok", true⟩, by decide +kernel, ?_⟩
  have hheader : HasHeader head (bytes "connection", bytes "close") :=
    ⟨by decide, by decide, by decide, bytes ("HTTP/1.1 200 OK\r\nServer: Vermell\r\n" ++
      "Content-Type: text/plain"), bytes ("Content-Length: 2\r\nAccept-Ranges: bytes\r\n" ++
      "X-Content-Type-Options: nosniff\r\n\r\n"), by decide +kernel⟩
  have hcloses : Closes head := ⟨_, hheader, by decide, by decide⟩
  simp [hcloses]

end Vermell.Router
