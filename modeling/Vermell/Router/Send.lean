import Vermell.Router.ConnectionHeader

/-! `sendResponse` over every sequence of outcomes of `sendmsg` and `poll`, and what it means for a
connection that `ExecuteRoute` keeps. -/
namespace Vermell.Router
open Http Text

/-- What one `sendmsg` returns: a count, or an error. Behind EAGAIN stands what `poll` found. -/
inductive SendOutcome
  | sent (n : ℕ)
  | interrupted
  | again (writable : Bool)
  | failed
  deriving DecidableEq, Repr

namespace SendOutcome

/-- The outcomes that reach the `break` of the loop. -/
def givesUp : SendOutcome → Bool
  | sent n => n == 0
  | interrupted => false
  | again writable => !writable
  | failed => true

def count : SendOutcome → ℕ
  | sent n => n
  | _ => 0

end SendOutcome

/-- The loop's `bufs`, from where they stand, and `done`; `wire` is what the socket has accepted. -/
structure Sending where
  bufs : List Bytes
  done : ℕ := 0
  wire : Bytes := []

namespace Sending

/-- The `iov` of a call: the buffers that still hold bytes. -/
def iov (s : Sending) : List Bytes := s.bufs.filter (· ≠ [])

/-- The inner loop: it moves the buffers past the bytes of a call. -/
def consume : ℕ → List Bytes → List Bytes
  | _, [] => []
  | 0, bufs => bufs
  | consumed, buf :: rest =>
    let take := min consumed buf.length
    buf.drop take :: consume (consumed - take) rest

/-- A call that accepts bytes of what it is offered. -/
def accept (s : Sending) (n : ℕ) : Sending :=
  { bufs := consume n s.bufs, done := s.done + n, wire := s.wire ++ s.iov.flatten.take n }

/-- The loop. It has not ended when the outcomes run out before `done` reaches the total. -/
def loop (total : ℕ) (s : Sending) : List SendOutcome → Option Sending
  | [] => if s.done < total then none else some s
  | o :: rest =>
    if s.done < total then
      if o.givesUp then some s
      else
        match o with
        | .sent n => loop total (s.accept n) rest
        | _ => loop total s rest
    else some s

end Sending

/-- `sendResponse`, for the descriptor of a client: the bytes that the socket accepted when it
returns. It tells its caller nothing. -/
def sendResponse (head body : Bytes) (outcomes : List SendOutcome) : Option Bytes :=
  (Sending.loop (head.length + body.length) { bufs := [head, body] } outcomes).map (·.wire)

namespace Sending

/-- What is accepted and what is left make up the response, and `done` counts what is accepted. -/
structure Sound (whole : Bytes) (s : Sending) : Prop where
  parts : s.wire ++ s.bufs.flatten = whole
  counted : s.wire.length = min s.done whole.length

theorem iov_flatten (s : Sending) : s.iov.flatten = s.bufs.flatten := by
  unfold iov
  induction s.bufs with
  | nil => rfl
  | cons buf rest ih => cases buf <;> simp_all

theorem consume_flatten (n : ℕ) (bufs : List Bytes) :
    (consume n bufs).flatten = bufs.flatten.drop n := by
  induction bufs generalizing n with
  | nil => simp [consume]
  | cons buf rest ih =>
    cases n with
    | zero => simp [consume]
    | succ n =>
      simp only [consume, List.flatten_cons, ih, List.drop_append]
      congr 1
      · rcases Nat.le_total (n + 1) buf.length with h | h
        · rw [min_eq_left h]
        · rw [min_eq_right h, List.drop_length, List.drop_eq_nil_of_le h]
      · congr 1
        omega

theorem sound_start (head body : Bytes) : Sound (head ++ body) { bufs := [head, body] } :=
  ⟨by simp, by simp⟩

theorem Sound.accept {whole : Bytes} {s : Sending} (h : s.Sound whole) (n : ℕ) :
    (s.accept n).Sound whole := by
  obtain ⟨hparts, hcounted⟩ := h
  refine ⟨?_, ?_⟩
  · simp only [Sending.accept, iov_flatten, consume_flatten, List.append_assoc,
      List.take_append_drop]
    exact hparts
  · have hlen := congrArg List.length hparts
    simp only [List.length_append] at hlen
    simp only [Sending.accept, iov_flatten, List.length_append, List.length_take]
    omega

theorem Sound.wire_eq_iff {whole : Bytes} {s : Sending} (h : s.Sound whole) :
    s.wire = whole ↔ whole.length ≤ s.done := by
  obtain ⟨hparts, hcounted⟩ := h
  constructor
  · intro heq
    rw [heq] at hcounted
    omega
  · intro hle
    have hlen := congrArg List.length hparts
    simp only [List.length_append] at hlen
    have hrest : s.bufs.flatten = [] := List.length_eq_zero_iff.mp (by omega)
    simpa [hrest] using hparts

/-- The invariant over the whole loop. -/
theorem Sound.loop {whole : Bytes} {outcomes : List SendOutcome} {s s' : Sending}
    (h : s.Sound whole) (hloop : loop whole.length s outcomes = some s') : s'.Sound whole := by
  induction outcomes generalizing s with
  | nil =>
    simp only [Sending.loop] at hloop
    split_ifs at hloop
    cases hloop
    exact h
  | cons o rest ih =>
    simp only [Sending.loop] at hloop
    split_ifs at hloop
    · cases hloop
      exact h
    · cases o with
      | sent n => exact ih (h.accept n) hloop
      | interrupted => exact ih h hloop
      | again writable => exact ih h hloop
      | failed => exact ih h hloop
    · cases hloop
      exact h

/-- The state behind an iteration that goes on. -/
def next (s : Sending) : SendOutcome → Sending
  | .sent n => s.accept n
  | _ => s

theorem loop_next {total : ℕ} {o : SendOutcome} {rest : List SendOutcome} {s : Sending}
    (hdone : s.done < total) (hup : o.givesUp = false) :
    s.loop total (o :: rest) = (s.next o).loop total rest := by
  cases o <;> simp [loop, next, hdone, hup]

/-- The states in which the loop tests its condition, one for each iteration and one behind the
last. -/
def visits (total : ℕ) (s : Sending) : List SendOutcome → List Sending
  | [] => [s]
  | o :: rest =>
    if s.done < total ∧ o.givesUp = false then
      s :: visits total (s.next o) rest
    else [s]

/-- The loop ends in the last of them. -/
theorem getLast?_visits {total : ℕ} {outcomes : List SendOutcome} {s s' : Sending}
    (h : loop total s outcomes = some s') : (visits total s outcomes).getLast? = some s' := by
  induction outcomes generalizing s with
  | nil =>
    simp only [Sending.loop] at h
    split_ifs at h
    cases h
    rfl
  | cons o rest ih =>
    by_cases hdone : s.done < total
    · cases hup : o.givesUp with
      | true =>
        simp only [loop, hdone, hup, if_true] at h
        cases h
        simp [visits, hup]
      | false =>
        rw [loop_next hdone hup] at h
        simp only [visits, hdone, hup, true_and, if_true]
        rw [List.getLast?_cons, ih h]
        rfl
    · simp only [loop, if_neg hdone] at h
      cases h
      simp [visits, hdone]

/-- The invariant holds at every iteration. -/
theorem Sound.visits {whole : Bytes} {total : ℕ} {outcomes : List SendOutcome} {s s' : Sending}
    (h : s.Sound whole) (hs' : s' ∈ visits total s outcomes) : s'.Sound whole := by
  induction outcomes generalizing s with
  | nil =>
    obtain rfl := List.mem_singleton.mp hs'
    exact h
  | cons o rest ih =>
    simp only [Sending.visits] at hs'
    split_ifs at hs' with hgo
    · cases List.mem_cons.mp hs' with
      | inl heq => exact heq ▸ h
      | inr hmem =>
        cases o with
        | sent n => exact ih (h.accept n) hmem
        | interrupted => exact ih h hmem
        | again writable => exact ih h hmem
        | failed => exact ih h hmem
    · obtain rfl := List.mem_singleton.mp hs'
      exact h

/-- While bytes are missing, some buffer still holds bytes. -/
theorem Sound.iov_ne_nil {whole : Bytes} {s : Sending} (h : s.Sound whole)
    (hdone : s.done < whole.length) : s.iov ≠ [] := by
  intro hnil
  have hparts := h.parts
  rw [← iov_flatten, hnil, List.flatten_nil, List.append_nil] at hparts
  exact absurd (h.wire_eq_iff.mp hparts) (not_le.mpr hdone)

end Sending

/-- `sendResponse` writes the response and nothing else, whatever `sendmsg` and `poll` answer: at
every iteration what is accepted and the vector that is left are the response, which is not empty
while bytes are missing; so the wire holds a prefix of it, and all of it when the counts say so. -/
theorem sendResponse_exact (head body : Bytes) (outcomes : List SendOutcome) :
    let total := head.length + body.length
    let start : Sending := { bufs := [head, body] }
    (∀ s ∈ start.visits total outcomes, s.wire ++ s.iov.flatten = head ++ body ∧
        (s.done < total → s.iov ≠ []) ∧ s.wire.length = min s.done total) ∧
      ∀ s, start.loop total outcomes = some s →
        sendResponse head body outcomes = some s.wire ∧ s ∈ start.visits total outcomes ∧
          s.wire <+: head ++ body ∧ (s.done = total → s.wire = head ++ body) := by
  intro total start
  have hstart : start.Sound (head ++ body) := Sending.sound_start head body
  have htotal : (head ++ body).length = total := List.length_append
  constructor
  · intro s hs
    have hsound := hstart.visits hs
    rw [Sending.iov_flatten]
    refine ⟨hsound.parts, ?_, ?_⟩
    · intro hdone
      exact hsound.iov_ne_nil (htotal ▸ hdone)
    · rw [hsound.counted, htotal]
  · intro s hloop
    have hmem := List.mem_of_getLast? (Sending.getLast?_visits hloop)
    have hsound := hstart.visits hmem
    refine ⟨?_, hmem, ⟨s.bufs.flatten, hsound.parts⟩, ?_⟩
    · change (start.loop total outcomes).map _ = _
      rw [hloop]
      rfl
    · intro hdone
      exact hsound.wire_eq_iff.mpr (by omega)

/-- No outcome gives up before the counts in front of it reach the total. -/
def Outlasts (total : ℕ) (outcomes : List SendOutcome) : Prop :=
  ∀ before o after, outcomes = before ++ o :: after → o.givesUp = true →
    total ≤ (before.map SendOutcome.count).sum

theorem outlasts_nil (total : ℕ) : Outlasts total [] := by
  intro before o after h
  simp at h

theorem outlasts_cons {total : ℕ} {o : SendOutcome} {rest : List SendOutcome} :
    Outlasts total (o :: rest) ↔
      (o.givesUp = true → total = 0) ∧ Outlasts (total - o.count) rest := by
  constructor
  · intro h
    refine ⟨fun hup => Nat.le_zero.mp (h [] o rest rfl hup), ?_⟩
    intro before o' after hsplit hup
    have := h (o :: before) o' after (by rw [hsplit, List.cons_append]) hup
    simp only [List.map_cons, List.sum_cons] at this
    omega
  · rintro ⟨hfirst, hrest⟩ before o' after hsplit hup
    cases before with
    | nil =>
      obtain ⟨rfl, -⟩ := List.cons.inj hsplit
      simp [hfirst hup]
    | cons b before =>
      obtain ⟨rfl, htail⟩ := List.cons.inj hsplit
      have := hrest before o' after htail hup
      simp only [List.map_cons, List.sum_cons]
      omega

theorem outlasts_zero (outcomes : List SendOutcome) : Outlasts 0 outcomes :=
  fun _ _ _ _ _ => Nat.zero_le _

/-- Every way out of the loop has sent everything exactly when the outcomes last for the rest. -/
theorem Sending.loop_complete_iff (total : ℕ) (outcomes : List SendOutcome) (s : Sending) :
    (∀ s', s.loop total outcomes = some s' → total ≤ s'.done) ↔
      Outlasts (total - s.done) outcomes := by
  induction outcomes generalizing s with
  | nil =>
    simp only [loop, outlasts_nil, iff_true]
    intro s' h
    split_ifs at h with hdone
    cases h
    omega
  | cons o rest ih =>
    by_cases hdone : s.done < total
    · rw [outlasts_cons]
      by_cases hup : o.givesUp = true
      · have hloop : s.loop total (o :: rest) = some s := by simp [loop, hdone, hup]
        simp only [hloop, hup, Option.some.injEq, forall_eq', forall_const]
        omega
      · have hnext : s.loop total (o :: rest) =
            (match o with | .sent n => s.accept n | _ => s).loop total rest := by
          cases o <;> simp [loop, hdone, hup]
        have hcount : total - (match o with | .sent n => s.accept n | _ => s).done =
            total - s.done - o.count := by
          cases o <;> simp [accept, SendOutcome.count, Nat.sub_sub]
        rw [hnext, ih, hcount]
        exact (and_iff_right fun hyes => absurd hyes hup).symm
    · have hzero : total - s.done = 0 := by omega
      simp only [loop, hdone, if_false, hzero, outlasts_zero, iff_true]
      intro s' h
      cases h
      omega

/-- `sendResponse` returns with all of the response sent exactly when the outcomes last for it. -/
theorem sendResponse_complete_iff (head body : Bytes) (outcomes : List SendOutcome) :
    (∀ wire, sendResponse head body outcomes = some wire → wire = head ++ body) ↔
      Outlasts (head.length + body.length) outcomes := by
  have hiff := Sending.loop_complete_iff (head.length + body.length) outcomes
    { bufs := [head, body] }
  rw [← List.length_append] at hiff
  simp only [sendResponse, Option.map_eq_some_iff, forall_exists_index, and_imp,
    forall_apply_eq_imp_iff₂, ← List.length_append]
  refine Iff.trans ?_ hiff
  refine forall₂_congr fun s' hloop => ?_
  exact ((Sending.sound_start head body).loop hloop).wire_eq_iff

/-- The body that goes out for a request. -/
def sentBody (message : Message) (response : WireResponse) : Bytes :=
  if message.method = bytes "HEAD" then [] else response.body

/-- The request and the answer keep the connection. -/
def Keeps (allow : Bool) (message : Message) (response : WireResponse) : Prop :=
  keepAliveRequested message = true ∧ allow = true ∧ ¬CONNECTION_CLOSE <:+: response.head

/-- `ExecuteRoute` returns true for those, and then it sends the answer as it is. -/
theorem executeRoute_kept_iff {w : World} {t : Tables} {allow : Bool} {raw : Bytes}
    {executed : Executed} :
    executeRoute w t allow raw = .ok executed ∧ executed.keepAlive = true ↔
      ∃ message served, parse raw = some message ∧ serveMessage w t message = .ok served ∧
        Keeps allow message served.response ∧
        executed = ⟨served.response.head, sentBody message served.response, true⟩ := by
  cases hparse : parse raw with
  | none =>
    have hclosed : (settleConnection false allow malformedPage.head).1 = false := by
      rw [settleConnection_closed (by simp)]
    simp only [executeRoute, hparse, hclosed, Except.ok.injEq, reduceCtorEq, false_and,
      exists_false, iff_false, not_and]
    rintro rfl
    simp
  | some message =>
    cases hserved : serveMessage w t message with
    | error e => simp [executeRoute, hparse, hserved, Bind.bind, Except.bind]
    | ok served =>
      have hrun : executeRoute w t allow raw =
          .ok ⟨(settleConnection (keepAliveRequested message) allow served.response.head).2,
            sentBody message served.response,
            (settleConnection (keepAliveRequested message) allow served.response.head).1⟩ := by
        simp [executeRoute, hparse, hserved, Bind.bind, Except.bind, Pure.pure, Except.pure,
          sentBody]
      rw [hrun]
      constructor
      · rintro ⟨heq, hkept⟩
        obtain rfl := (Except.ok.inj heq).symm
        by_cases hkeep : Keeps allow message served.response
        · rw [settleConnection_kept hkeep]
          exact ⟨message, served, rfl, hserved, hkeep, rfl⟩
        · rw [settleConnection_closed hkeep] at hkept
          cases hkept
      · rintro ⟨message', served', hmessage, hserved', hkeep, rfl⟩
        cases hmessage
        obtain rfl := Except.ok.inj (hserved.symm.trans hserved')
        rw [settleConnection_kept hkeep]
        exact ⟨rfl, rfl⟩

/-- A connection that is kept has got its whole response exactly when, for a request and an answer
that keep it, the outcomes of the socket last for head and body. -/
theorem kept_response_sent_iff (w : World) (t : Tables) (allow : Bool) (raw : Bytes)
    (outcomes : List SendOutcome) :
    (∀ executed wire, executeRoute w t allow raw = .ok executed →
        sendResponse executed.head executed.body outcomes = some wire →
        executed.keepAlive = true → wire = executed.head ++ executed.body) ↔
      ∀ message served, parse raw = some message → serveMessage w t message = .ok served →
        Keeps allow message served.response →
        Outlasts (served.response.head.length + (sentBody message served.response).length)
          outcomes := by
  constructor
  · intro h message served hparse hserved hkeep
    obtain ⟨hrun, hkept⟩ := executeRoute_kept_iff.mpr ⟨message, served, hparse, hserved, hkeep, rfl⟩
    exact (sendResponse_complete_iff _ _ _).mp fun wire hsend => h _ wire hrun hsend hkept
  · intro h executed wire hrun hsend hkept
    obtain ⟨message, served, hparse, hserved, hkeep, rfl⟩ := executeRoute_kept_iff.mp ⟨hrun, hkept⟩
    exact (sendResponse_complete_iff _ _ _).mpr (h message served hparse hserved hkeep) wire hsend

/-- Ten bytes of a response, then a socket that stays full: the connection is kept. -/
theorem short_response_kept :
    let f : Middleware := fun _ _ _ => ⟨[.send (bytes "ok") 200], .returns⟩
    let t : Tables := ({} : Tables).httpResponse ⟨bytes "/", [f], bytes "GET", {}⟩
    ∃ executed wire, executeRoute ⟨emptyDisk, 1, 1⟩ t true
        (bytes "GET / HTTP/1.1\r\nHost: a\r\n\r\n") = .ok executed ∧
      sendResponse executed.head executed.body [.sent 10, .again false] = some wire ∧
      executed.keepAlive = true ∧ wire ≠ executed.head ++ executed.body := by
  intro f t
  let head := bytes ("HTTP/1.1 200 OK\r\nServer: Vermell\r\nContent-Type: text/plain\r\n" ++
    "Content-Length: 2\r\nAccept-Ranges: bytes\r\nX-Content-Type-Options: nosniff\r\n" ++
    "Connection: keep-alive\r\n\r\n")
  exact ⟨⟨head, bytes "ok", true⟩, head.take 10, by decide +kernel, by decide +kernel, rfl,
    by decide +kernel⟩

end Vermell.Router
