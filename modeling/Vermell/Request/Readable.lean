import Vermell.Http.Inspect

/-! One call of `HandleReadable`, up to its effect on the rest of `RequestIO`: the recv loop, the
request loop and every way they end. What `recv`, the clock, the pool and the handlers answer is
an input of the call. -/
namespace Vermell.Request
open Http

/-- Time points and spans of the steady clock, in nanoseconds; the default time point is 0. -/
abbrev Ticks := ℤ

structure Config where
  maxRequestSize : UInt64 := 4*1024*1024
  maxConnections : UInt64 := 1024
  readChunk : UInt64 := 16*1024
  requestTimeout : Ticks := 60*10^9
  readTimeout : Ticks := 5*10^9
  deriving DecidableEq, Repr

structure ConnState where
  buffer : Bytes := []
  start : Ticks := 0
  lastActivity : Ticks := 0
  expected : ℕ := 0
  headKnown : Bool := false
  dispatching : Bool := false
  deriving DecidableEq, Repr

/-- What one `recv` returns: bytes (none at the end of the stream) or one of its errors. -/
inductive Recv
  | data (bytes : Bytes) (time : Ticks)
  | interrupted
  | wouldBlock
  | failed
  deriving DecidableEq, Repr

/-- What `ExecuteRoute` does: it answers, or something other than a `std::exception` leaves it. -/
inductive Handler
  | returns (keepAlive : Bool)
  | escapes
  deriving DecidableEq, Repr

/-- What the outside answers to one call: the clock at its start and end, the recv results
(after the last of them, `EAGAIN`), the pool's answer and the inline handlers. -/
structure ReadEnv where
  now : Ticks := 1
  recvs : List Recv := []
  accepted : Bool := true
  handlers : ℕ → Handler := fun _ => .returns true
  finish : Ticks := 1

structure Rejection where
  code : ℕ
  error : String
  deriving DecidableEq, Repr

def malformedRequest : Rejection := ⟨400, "malformed request"⟩
def payloadTooLarge : Rejection := ⟨413, "payload too large"⟩
def requestTimedOut : Rejection := ⟨408, "request timeout"⟩
def tooManyHeaders : Rejection := ⟨431, "too many headers"⟩
def transferEncodingUnsupported : Rejection := ⟨501, "transfer encoding not supported"⟩

inductive ReadResult
  | ok (st : ConnState) (got : Bytes) (peerClosed : Bool)
  | reject (r : Rejection) (got : Bytes)
  deriving DecidableEq, Repr

/-- The recv loop. `got` collects the bytes of this call. -/
def readLoop (cfg : Config) (bufsz : ℕ) (st : ConnState) (got : Bytes) : List Recv → ReadResult
  | [] => .ok st got false
  | .interrupted :: rest => readLoop cfg bufsz st got rest
  | .wouldBlock :: _ => .ok st got false
  | .failed :: _ => .reject malformedRequest got
  | .data bytes time :: rest =>
    if bytes = [] then .ok st got true
    else
      let st := { st with buffer := st.buffer ++ bytes, lastActivity := time }
      if st.buffer.length > cfg.maxRequestSize.toNat then .reject payloadTooLarge (got ++ bytes)
      else if bytes.length < bufsz then .ok st (got ++ bytes) false
      else readLoop cfg bufsz st (got ++ bytes) rest

/-- One pass of the request loop up to the cut: an error, more bytes needed, or a request. -/
inductive Taken
  | reject (r : Rejection)
  | wait (st : ConnState)
  | cut (raw : Bytes) (st : ConnState)
  deriving DecidableEq, Repr

/-- The first bytes leave the buffer; a buffer that is moved from is empty. -/
def cutRequest (st : ConnState) (requestLen : ℕ) : Taken :=
  .cut (st.buffer.take requestLen)
    { st with buffer := st.buffer.drop requestLen, expected := 0, headKnown := false }

/-- A request that is still on the wire. -/
def awaitMore (peerClosed deadlineOver : Bool) (st : ConnState) : Taken :=
  if peerClosed then .reject malformedRequest
  else if deadlineOver then .reject requestTimedOut
  else .wait st

def takeRequest (cfg : Config) (peerClosed deadlineOver : Bool) (st : ConnState) : Taken :=
  if st.headKnown then
    if st.buffer.length < st.expected then awaitMore peerClosed deadlineOver st
    else cutRequest st st.expected
  else
    let inspection := inspect st.buffer
    match inspection.framing with
    | .incomplete =>
      if inspection.expected > cfg.maxRequestSize.toNat then .reject payloadTooLarge
      else awaitMore peerClosed deadlineOver
        { st with expected := inspection.expected, headKnown := inspection.expected > 0 }
    | .complete => cutRequest st inspection.expected
    | .badRequest => .reject malformedRequest
    | .tooManyHeaders => .reject tooManyHeaders
    | .notImplemented => .reject transferEncodingUnsupported

/-- How a call ends: the slot stays and the descriptor is armed again, an error is answered, a
handler asked for the close, a request goes to the pool, or an exception leaves the call. -/
inductive ReadEnd
  | waits (st : ConnState)
  | rejected (r : Rejection)
  | closed
  | dispatched (raw : Bytes) (st : ConnState)
  | escaped (st : ConnState)
  deriving DecidableEq, Repr

/-- A cut takes the cached length, or the length a fresh inspection reports. -/
theorem takeRequest_cut_iff (cfg : Config) (peerClosed deadlineOver : Bool) (st st' : ConnState)
    (raw : Bytes) : takeRequest cfg peerClosed deadlineOver st = .cut raw st' ↔
      ∃ n, .cut raw st' = cutRequest st n ∧
        (st.headKnown = true ∧ n = st.expected ∧ n ≤ st.buffer.length ∨
          st.headKnown = false ∧ inspect st.buffer = ⟨.complete, n⟩) := by
  have hwait (s : ConnState) : awaitMore peerClosed deadlineOver s ≠ .cut raw st' := by
    unfold awaitMore
    split_ifs <;> simp
  unfold takeRequest
  cases hk : st.headKnown with
  | true =>
    simp only [if_true]
    split_ifs with hlen
    · simp only [hwait, false_iff]
      rintro ⟨n, -, ⟨-, rfl, hle⟩ | ⟨h, -⟩⟩
      · omega
      · cases h
    · constructor
      · intro h
        exact ⟨st.expected, h.symm, Or.inl ⟨trivial, rfl, by omega⟩⟩
      · rintro ⟨n, hcut, ⟨-, rfl, -⟩ | ⟨h, -⟩⟩
        · exact hcut.symm
        · cases h
  | false =>
    simp only [Bool.false_eq_true, if_false, false_and, false_or, true_and]
    generalize inspect st.buffer = i
    obtain ⟨framing, expected⟩ := i
    cases framing with
    | complete =>
      simp only [Inspection.mk.injEq, true_and]
      constructor
      · intro h
        exact ⟨expected, h.symm, rfl⟩
      · rintro ⟨n, hcut, rfl⟩
        exact hcut.symm
    | incomplete =>
      simp only [Inspection.mk.injEq, reduceCtorEq, false_and, and_false, exists_false, iff_false]
      split_ifs
      · simp
      · exact hwait _
    | badRequest => simp
    | tooManyHeaders => simp
    | notImplemented => simp

theorem awaitMore_wait_iff {peerClosed deadlineOver : Bool} {st st' : ConnState} :
    awaitMore peerClosed deadlineOver st = .wait st' ↔
      peerClosed = false ∧ deadlineOver = false ∧ st' = st := by
  cases peerClosed <;> cases deadlineOver <;> simp [awaitMore, eq_comm]

/-- The slot that a pass leaves when its request is still on the wire. -/
def ConnState.Awaits (st st' : ConnState) : Prop :=
  st.headKnown = true ∧ st.buffer.length < st.expected ∧ st' = st ∨
    st.headKnown = false ∧ ∃ n, inspect st.buffer = ⟨.incomplete, n⟩ ∧
      st' = { st with expected := n, headKnown := n > 0 }

/-- What a pass can do: await more of its request, cut it, or answer an error of its own. -/
theorem takeRequest_cases (cfg : Config) (peerClosed deadlineOver : Bool) (st : ConnState) :
    (∃ st', st.Awaits st' ∧
        takeRequest cfg peerClosed deadlineOver st = awaitMore peerClosed deadlineOver st') ∨
      (∃ n, takeRequest cfg peerClosed deadlineOver st = cutRequest st n) ∨
      ∃ r, r ≠ requestTimedOut ∧ takeRequest cfg peerClosed deadlineOver st = .reject r := by
  unfold takeRequest
  cases hk : st.headKnown with
  | true =>
    simp only [if_true]
    split_ifs with hlen
    · exact Or.inl ⟨st, Or.inl ⟨hk, hlen, rfl⟩, rfl⟩
    · exact Or.inr (Or.inl ⟨st.expected, rfl⟩)
  | false =>
    simp only [Bool.false_eq_true, if_false]
    cases hi : inspect st.buffer with
    | mk framing expected =>
    cases framing with
    | incomplete =>
      simp only
      split_ifs
      · exact Or.inr (Or.inr ⟨payloadTooLarge, by decide, rfl⟩)
      · exact Or.inl ⟨_, Or.inr ⟨hk, expected, hi, rfl⟩, rfl⟩
    | complete => exact Or.inr (Or.inl ⟨expected, rfl⟩)
    | badRequest => exact Or.inr (Or.inr ⟨malformedRequest, by decide, rfl⟩)
    | tooManyHeaders => exact Or.inr (Or.inr ⟨tooManyHeaders, by decide, rfl⟩)
    | notImplemented => exact Or.inr (Or.inr ⟨transferEncodingUnsupported, by decide, rfl⟩)

/-- A pass that waits does so for more of its request, with the stream and the deadline open. -/
theorem takeRequest_wait {cfg : Config} {peerClosed deadlineOver : Bool} {st st' : ConnState}
    (h : takeRequest cfg peerClosed deadlineOver st = .wait st') :
    peerClosed = false ∧ deadlineOver = false ∧ st.Awaits st' := by
  rcases takeRequest_cases cfg peerClosed deadlineOver st with
    ⟨s, hawaits, heq⟩ | ⟨n, heq⟩ | ⟨r, -, heq⟩
  · obtain ⟨hpc, hdl, rfl⟩ := awaitMore_wait_iff.mp (heq.symm.trans h)
    exact ⟨hpc, hdl, hawaits⟩
  · cases heq.symm.trans h
  · cases heq.symm.trans h

/-- Each pass takes bytes off the buffer or the cached length out of the way. -/
theorem takeRequest_cut_lt {cfg : Config} {peerClosed deadlineOver : Bool} {st st' : ConnState}
    {raw : Bytes} (h : takeRequest cfg peerClosed deadlineOver st = .cut raw st') :
    2*st'.buffer.length + st'.headKnown.toNat < 2*st.buffer.length + st.headKnown.toNat := by
  obtain ⟨n, hcut, hn⟩ := (takeRequest_cut_iff _ _ _ _ _ _).mp h
  obtain ⟨-, rfl⟩ := Taken.cut.inj hcut
  rw [List.length_drop]
  rcases hn with ⟨hk, -, -⟩ | ⟨hk, hi⟩
  · simp only [hk, Bool.toNat_true, Bool.toNat_false]
    omega
  · have hle := inspect_complete_le hi
    simp only [hk, Bool.toNat_false]
    omega

/-- The request loop: the requests handed over so far, and how it ends. Inline, every request of
the buffer is served in turn; with a pool, the first one is dispatched and the call is over. -/
def serveLoop (cfg : Config) (pool : Bool) (env : ReadEnv) (peerClosed deadlineOver : Bool)
    (st : ConnState) (handed : List Bytes) : List Bytes × ReadEnd :=
  match _h : takeRequest cfg peerClosed deadlineOver st with
  | .reject r => (handed, .rejected r)
  | .wait st' => (handed, .waits st')
  | .cut raw st' =>
    if pool then (handed ++ [raw], .dispatched raw st')
    else
      match env.handlers handed.length with
      | .escapes => (handed ++ [raw], .escaped st')
      | .returns false => (handed ++ [raw], .closed)
      | .returns true =>
        if st'.buffer = [] then
          (handed ++ [raw], .waits { st' with start := env.finish, lastActivity := env.finish })
        else serveLoop cfg pool env peerClosed deadlineOver st' (handed ++ [raw])
  termination_by 2*st.buffer.length + st.headKnown.toNat
  decreasing_by exact takeRequest_cut_lt _h

theorem serveLoop_eq (cfg : Config) (pool : Bool) (env : ReadEnv) (peerClosed deadlineOver : Bool)
    (st : ConnState) (handed : List Bytes) :
    serveLoop cfg pool env peerClosed deadlineOver st handed =
      match takeRequest cfg peerClosed deadlineOver st with
      | .reject r => (handed, .rejected r)
      | .wait st' => (handed, .waits st')
      | .cut raw st' =>
        if pool then (handed ++ [raw], .dispatched raw st')
        else
          match env.handlers handed.length with
          | .escapes => (handed ++ [raw], .escaped st')
          | .returns false => (handed ++ [raw], .closed)
          | .returns true =>
            if st'.buffer = [] then
              (handed ++ [raw], .waits { st' with start := env.finish, lastActivity := env.finish })
            else serveLoop cfg pool env peerClosed deadlineOver st' (handed ++ [raw]) := by
  rw [serveLoop]
  split <;> simp_all only

structure ReadOutcome where
  got : Bytes
  handed : List Bytes
  stop : ReadEnd
  deriving DecidableEq, Repr

/-- The two timeouts, judged by the time the call began. -/
def deadlineOver (cfg : Config) (now : Ticks) (st : ConnState) : Bool :=
  (cfg.requestTimeout > 0 && now - st.start > cfg.requestTimeout) ||
    (cfg.readTimeout > 0 && now - st.lastActivity > cfg.readTimeout)

/-- A slot without a start time starts now. -/
def ConnState.started (st : ConnState) (now : Ticks) : ConnState :=
  if st.start = 0 then { st with start := now } else st

/-- `HandleReadable` on the slot of its descriptor. -/
def readable (cfg : Config) (pool : Bool) (bufsz : ℕ) (env : ReadEnv) (st : ConnState) :
    ReadOutcome :=
  match readLoop cfg bufsz (st.started env.now) [] env.recvs with
  | .reject r got => ⟨got, [], .rejected r⟩
  | .ok st got peerClosed =>
    if st.buffer = [] then ⟨got, [], .waits st⟩
    else
      let served := serveLoop cfg pool env peerClosed (deadlineOver cfg env.now st) st []
      ⟨got, served.1, served.2⟩

end Vermell.Request
