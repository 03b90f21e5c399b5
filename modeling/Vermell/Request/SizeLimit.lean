import Vermell.Http.RequestLength
import Vermell.Request.Inline
import Vermell.Request.Stream

/-! `max_request_size` as the limit of one request. What is handed over always keeps it. The recv
loop, though, compares the whole buffer with it, and the requests of a pipeline share the buffer. -/
namespace Vermell.Request
open Http Runs

/-- The bytes in the buffer when the recv loop finds them to be more than the limit. -/
def overflow (limit bufsz : ℕ) (buffer : Bytes) : List Recv → Option Bytes
  | [] => none
  | .interrupted :: rest => overflow limit bufsz buffer rest
  | .wouldBlock :: _ => none
  | .failed :: _ => none
  | .data bytes _ :: rest =>
    if bytes = [] then none
    else if limit < (buffer ++ bytes).length then some (buffer ++ bytes)
    else if bytes.length < bufsz then none
    else overflow limit bufsz (buffer ++ bytes) rest

theorem overflow_lt {limit bufsz : ℕ} {buffer b : Bytes} {recvs : List Recv}
    (h : overflow limit bufsz buffer recvs = some b) : limit < b.length := by
  induction recvs generalizing buffer with
  | nil => cases h
  | cons r rest ih =>
    cases r with
    | interrupted => exact ih h
    | wouldBlock => cases h
    | failed => cases h
    | data bytes time =>
      simp only [overflow] at h
      split_ifs at h with hend hbig hshort
      · cases h
        exact hbig
      · exact ih h

section
variable {cfg : Config} {bufsz : ℕ} {st : ConnState}

/-- The recv loop answers 413 where the buffer overflows. -/
theorem readLoop_of_overflow (got : Bytes) {recvs : List Recv} {b : Bytes}
    (h : overflow cfg.maxRequestSize.toNat bufsz st.buffer recvs = some b) :
    ∃ more, b = st.buffer ++ more ∧
      readLoop cfg bufsz st got recvs = .reject payloadTooLarge (got ++ more) := by
  induction recvs generalizing st got with
  | nil => cases h
  | cons r rest ih =>
    cases r with
    | interrupted => exact ih got h
    | wouldBlock => cases h
    | failed => cases h
    | data bytes time =>
      simp only [overflow] at h
      simp only [readLoop, gt_iff_lt]
      split_ifs at h ⊢ with hend hbig hshort
      · cases h
        exact ⟨bytes, rfl, rfl⟩
      · let st' : ConnState := { st with buffer := st.buffer ++ bytes, lastActivity := time }
        have hrest : overflow cfg.maxRequestSize.toNat bufsz st'.buffer rest = some b := h
        obtain ⟨more, rfl, hloop⟩ := ih (got ++ bytes) hrest
        exact ⟨bytes ++ more, List.append_assoc _ _ _, by rw [hloop, List.append_assoc]⟩

/-- The recv loop answers 413 nowhere else. -/
theorem overflow_of_readLoop {got got' : Bytes} {recvs : List Recv}
    (h : readLoop cfg bufsz st got recvs = .reject payloadTooLarge got') :
    ∃ more, got' = got ++ more ∧
      overflow cfg.maxRequestSize.toNat bufsz st.buffer recvs = some (st.buffer ++ more) := by
  induction recvs generalizing st got with
  | nil => cases h
  | cons r rest ih =>
    cases r with
    | interrupted => exact ih h
    | wouldBlock => cases h
    | failed =>
      obtain ⟨hr, -⟩ := ReadResult.reject.inj h
      exact absurd hr (by decide)
    | data bytes time =>
      simp only [readLoop, gt_iff_lt] at h
      simp only [overflow]
      split_ifs at h ⊢ with hend hbig hshort
      · obtain ⟨-, rfl⟩ := ReadResult.reject.inj h
        exact ⟨bytes, rfl, rfl⟩
      · obtain ⟨more, rfl, hrest⟩ := ih h
        exact ⟨bytes ++ more, List.append_assoc _ _ _, by rw [hrest, List.append_assoc]⟩

/-- The recv loop keeps the buffer within the limit. -/
theorem readLoop_within {got got' : Bytes} {recvs : List Recv} {st' : ConnState} {peerClosed : Bool}
    (hst : st.buffer.length ≤ cfg.maxRequestSize.toNat)
    (h : readLoop cfg bufsz st got recvs = .ok st' got' peerClosed) :
    st'.buffer.length ≤ cfg.maxRequestSize.toNat ∧ ∃ more, got' = got ++ more ∧
      st'.buffer = st.buffer ++ more := by
  induction recvs generalizing st got with
  | nil =>
    cases h
    exact ⟨hst, [], by simp, by simp⟩
  | cons r rest ih =>
    cases r with
    | interrupted => exact ih hst h
    | wouldBlock =>
      cases h
      exact ⟨hst, [], by simp, by simp⟩
    | failed => cases h
    | data bytes time =>
      simp only [readLoop, gt_iff_lt] at h
      split_ifs at h with hend hbig hshort
      · cases h
        exact ⟨hst, [], by simp, by simp⟩
      · cases h
        exact ⟨not_lt.mp hbig, bytes, rfl, rfl⟩
      · obtain ⟨hst', more, rfl, hbuffer⟩ := ih (not_lt.mp hbig) h
        exact ⟨hst', bytes ++ more, List.append_assoc _ _ _, by rw [hbuffer, List.append_assoc]⟩

end

section
variable (cfg : Config) (peerClosed dl : Bool) {st : ConnState}

/-- What a pass takes and what it leaves are the bytes it found. -/
theorem takeRequest_cut_append {raw : Bytes} {st' : ConnState}
    (h : takeRequest cfg peerClosed dl st = .cut raw st') : raw ++ st'.buffer = st.buffer := by
  obtain ⟨n, hcut, -⟩ := (takeRequest_cut_iff _ _ _ _ _ _).mp h
  obtain ⟨rfl, rfl⟩ := Taken.cut.inj hcut
  exact List.take_append_drop _ _

/-- A pass answers 413 to a declared total beyond the limit. -/
theorem takeRequest_tooLarge (h : takeRequest cfg peerClosed dl st = .reject payloadTooLarge) :
    ∃ n, cfg.maxRequestSize.toNat < n ∧ inspect st.buffer = ⟨.incomplete, n⟩ := by
  have hwait (s : ConnState) : awaitMore peerClosed dl s ≠ .reject payloadTooLarge := by
    cases peerClosed <;> cases dl <;>
      simp [awaitMore, malformedRequest, requestTimedOut, payloadTooLarge]
  unfold takeRequest at h
  split_ifs at h with hknown hlen
  · exact absurd h (hwait st)
  · cases h
  · cases hi : inspect st.buffer with
    | mk framing expected =>
    simp only [hi] at h
    cases framing with
    | incomplete =>
      simp only at h
      split_ifs at h with hbig
      · exact ⟨expected, hbig, rfl⟩
      · exact absurd h (hwait _)
    | complete => cases h
    | badRequest => cases h
    | tooManyHeaders => cases h
    | notImplemented => cases h

/-- The requests served are off the front of the buffer, which leaves `front`. A 413 answers a
declared total beyond the limit there. -/
structure LeavesFront (st : ConnState) (served : List Bytes) (front : Bytes) (stop : ReadEnd) :
    Prop where
  bytes : served.flatten ++ front = st.buffer
  left : ∀ st', stop.state? = some st' → st'.buffer = front
  tooLarge : stop = .rejected payloadTooLarge →
    ∃ n, cfg.maxRequestSize.toNat < n ∧ inspect front = ⟨.incomplete, n⟩

theorem serveLoop_front (st : ConnState) (pool : Bool) (env : ReadEnv) (handed : List Bytes) :
    ∃ served, (serveLoop cfg pool env peerClosed dl st handed).1 = handed ++ served ∧
      ∃ front, LeavesFront cfg st served front
        (serveLoop cfg pool env peerClosed dl st handed).2 := by
  apply serveLoop_rule cfg pool env peerClosed dl
    (P := fun st served stop => ∃ front, LeavesFront cfg st served front stop)
  · intro st r h
    refine ⟨st.buffer, rfl, by simp [ReadEnd.state?], ?_⟩
    rintro ⟨rfl⟩
    exact takeRequest_tooLarge cfg peerClosed dl h
  · intro st st' h
    have hbuffer : st'.buffer = st.buffer := by
      obtain ⟨-, -, ⟨-, -, rfl⟩ | ⟨-, n, -, rfl⟩⟩ := takeRequest_wait h
      · rfl
      · rfl
    refine ⟨st.buffer, rfl, ?_, by simp⟩
    rintro _ ⟨rfl⟩
    exact hbuffer
  · intro st raw st' stop h hstop
    refine ⟨st'.buffer, ?_, fun _ hstate => (hstop.state? hstate).1, ?_⟩
    · simpa using takeRequest_cut_append cfg peerClosed dl h
    · rintro rfl
      cases hstop
  · rintro st raw st' served stop h ⟨front, hfront⟩
    refine ⟨front, ?_, hfront.left, hfront.tooLarge⟩
    rw [List.flatten_cons, List.append_assoc, hfront.bytes]
    exact takeRequest_cut_append cfg peerClosed dl h

end

section
variable (cfg : Config) (pool : Bool) (bufsz : ℕ) (env : ReadEnv) (st : ConnState)

/-- The bytes at the front of the buffer when the call is over. -/
def frontOf : Bytes :=
  (st.buffer ++ (readable cfg pool bufsz env st).got).drop
    (readable cfg pool bufsz env st).handed.flatten.length

/-- A call on a buffer that overflows answers 413 to all its bytes. -/
theorem readable_of_overflow {b : Bytes}
    (h : overflow cfg.maxRequestSize.toNat bufsz st.buffer env.recvs = some b) :
    (readable cfg pool bufsz env st).stop = .rejected payloadTooLarge ∧
      frontOf cfg pool bufsz env st = b := by
  rw [← ConnState.started_buffer st env.now] at h
  obtain ⟨more, rfl, hloop⟩ := readLoop_of_overflow [] h
  rw [List.nil_append] at hloop
  have hread : readable cfg pool bufsz env st = ⟨more, [], .rejected payloadTooLarge⟩ := by
    simp only [readable, hloop]
  unfold frontOf
  rw [hread, ConnState.started_buffer]
  exact ⟨rfl, rfl⟩

/-- A call answers 413 to a buffer that overflows, or to a declared total beyond the limit. -/
theorem readable_tooLarge (hst : st.buffer.length ≤ cfg.maxRequestSize.toNat)
    (h : (readable cfg pool bufsz env st).stop = .rejected payloadTooLarge) :
    overflow cfg.maxRequestSize.toNat bufsz st.buffer env.recvs =
        some (frontOf cfg pool bufsz env st) ∨
      ∃ n, cfg.maxRequestSize.toNat < n ∧
        inspect (frontOf cfg pool bufsz env st) = ⟨.incomplete, n⟩ := by
  rw [← ConnState.started_buffer st env.now] at hst
  unfold frontOf
  unfold readable at h ⊢
  cases hloop : readLoop cfg bufsz (st.started env.now) [] env.recvs with
  | reject r got =>
    left
    simp only [hloop, ReadEnd.rejected.injEq] at h
    subst h
    obtain ⟨more, rfl, hover⟩ := overflow_of_readLoop hloop
    rw [ConnState.started_buffer] at hover
    simpa using hover
  | ok st₁ got peerClosed =>
    right
    obtain ⟨-, more, hgot, hbuffer⟩ := readLoop_within hst hloop
    rw [ConnState.started_buffer] at hbuffer
    obtain rfl : got = more := hgot
    simp only [hloop] at h ⊢
    split_ifs at h ⊢ with hempty
    obtain ⟨served, hserved, front, hfront⟩ :=
      serveLoop_front cfg peerClosed (deadlineOver cfg env.now st₁) st₁ pool env []
    rw [hserved, List.nil_append, ← hbuffer, ← hfront.bytes, List.drop_left]
    exact hfront.tooLarge h

/-- What a call hands over, and what it leaves in the slot, is within the limit. -/
theorem readable_within (hst : st.buffer.length ≤ cfg.maxRequestSize.toNat) :
    (∀ raw ∈ (readable cfg pool bufsz env st).handed, raw.length ≤ cfg.maxRequestSize.toNat) ∧
      ∀ st', (readable cfg pool bufsz env st).stop.state? = some st' →
        st'.buffer.length ≤ cfg.maxRequestSize.toNat := by
  rw [← ConnState.started_buffer st env.now] at hst
  unfold readable
  cases hloop : readLoop cfg bufsz (st.started env.now) [] env.recvs with
  | reject r got => simp [ReadEnd.state?]
  | ok st₁ got peerClosed =>
    obtain ⟨hst₁, -⟩ := readLoop_within hst hloop
    simp only
    split_ifs with hempty
    · refine ⟨by simp, ?_⟩
      rintro _ ⟨rfl⟩
      exact hst₁
    · obtain ⟨served, hserved, front, hfront⟩ :=
        serveLoop_front cfg peerClosed (deadlineOver cfg env.now st₁) st₁ pool env []
      rw [List.nil_append] at hserved
      have hlen := congrArg List.length hfront.bytes
      rw [List.length_append] at hlen
      constructor
      · intro raw hraw
        change raw ∈ (serveLoop cfg pool env peerClosed _ st₁ []).1 at hraw
        rw [hserved] at hraw
        have hle := (List.sublist_flatten_of_mem hraw).length_le
        omega
      · intro st' hst'
        rw [hfront.left st' hst']
        omega

end

/-- A connection with the bytes that were in front of its buffer at each of its 413s. -/
structure Sized where
  io : RequestIO
  tooLarge : List Bytes := []

namespace Sized
open RequestIO
section
variable (s : Sized) (fd : ℕ)

def limit : ℕ := s.io.cfg.maxRequestSize.toNat

/-- `HandleReadable`, with the bytes that it answers 413 to. -/
def read (env : ReadEnv) : Sized :=
  { io := s.io.handleReadable fd env
    tooLarge :=
      if (s.io.readOutcome fd env).stop = .rejected payloadTooLarge then
        s.tooLarge ++ [frontOf s.io.cfg s.io.pool s.io.bufsz env (s.io.pendingSlot fd)]
      else s.tooLarge }

/-- The first half of `RearmConnection`. -/
def rearmed (now : Ticks) : Sized := { s with io := s.io.rearmed fd now }

def rearm (now : Ticks) (env : ReadEnv) : Sized :=
  let s := s.rearmed fd now
  if (s.io.pendingSlot fd).buffer ≠ [] then s.read fd env else s

/-- A call on an open connection, with the configuration it was accepted under. -/
def step (fd : ℕ) (s : Sized) : Call → Option Sized
  | .config _ => none
  | .readable env => if fd ∈ s.io.openFds then some (s.read fd env) else none
  | .rearm now env => if fd ∈ s.io.openFds then some (s.rearm fd now env) else none

/-- The limit is one of each request: what is handed over keeps it, and a 413 answers a request
that breaks it, never the start of one that ends within it. -/
structure PerRequest (fd : ℕ) (s : Sized) : Prop where
  handed : ∀ raw ∈ (s.io.history fd).handed, raw.length ≤ s.limit
  longer : ∀ front ∈ s.tooLarge, LongerThan s.limit front
  pipelined : ∀ front ∈ s.tooLarge, ∀ more n, (front ++ more).length ≤ npos →
    inspect (front ++ more) = ⟨.complete, n⟩ → s.limit < n

/-- No recv of the call takes the buffer past the limit behind a request that ends before it. -/
def FrontUnended (env : ReadEnv) : Prop :=
  ∀ b, overflow s.limit s.io.bufsz (s.io.pendingSlot fd).buffer env.recvs = some b →
    Unended s.limit b

/-- `RearmConnection` only reads when bytes are left in the slot. -/
def Unbundled (fd : ℕ) (s : Sized) : Call → Prop
  | .config _ => True
  | .readable env => s.FrontUnended fd env
  | .rearm _ env => (s.io.pendingSlot fd).buffer ≠ [] → s.FrontUnended fd env

end

variable {s : Sized} {fd : ℕ}

/-- The calls are those of `RequestIO`. -/
theorem step_io {c : Call} {t : Sized} (h : s.step fd c = some t) :
    t.io = s.io.call fd c := by
  cases c with
  | config cfg => cases h
  | readable env =>
    simp only [step] at h
    split_ifs at h
    cases h
    rfl
  | rearm now env =>
    simp only [step] at h
    split_ifs at h
    cases h
    unfold rearm rearmed call rearmConnection
    simp only
    split_ifs <;> rfl

/-- What is handed over is within the limit, and so is the buffer of an open connection. -/
structure Within (fd : ℕ) (s : Sized) : Prop where
  handed : ∀ raw ∈ (s.io.history fd).handed, raw.length ≤ s.limit
  buffered : fd ∈ s.io.openFds → (s.io.pendingSlot fd).buffer.length ≤ s.limit

/-- The invariant of the runs without a bundle: each 413 answered a request beyond the limit. -/
structure Limited (fd : ℕ) (s : Sized) : Prop extends Within fd s where
  longer : ∀ front ∈ s.tooLarge, LongerThan s.limit front

theorem Limited.perRequest (h : s.Limited fd) : s.PerRequest fd :=
  ⟨h.handed, h.longer, fun front hfront _ _ hfits hi =>
    (h.longer front hfront).lt_of_complete hfits hi⟩

theorem read_limit (env : ReadEnv) : (s.read fd env).limit = s.limit := by
  have hsetup := congrArg (fun x => x.1.maxRequestSize.toNat) (s.io.setup_handleReadable fd env)
  exact hsetup

theorem Within.read (h : s.Within fd) (hopen : fd ∈ s.io.openFds) (env : ReadEnv) :
    (s.read fd env).Within fd := by
  obtain ⟨hhanded, hleft⟩ :=
    readable_within s.io.cfg s.io.pool s.io.bufsz env (s.io.pendingSlot fd) (h.buffered hopen)
  constructor
  · rw [read_limit]
    intro raw hraw
    simp only [Sized.read, handleReadable_history, List.mem_append] at hraw
    cases hraw with
    | inl hraw =>
      exact h.handed raw hraw
    | inr hraw =>
      exact hhanded raw hraw
  · rw [read_limit]
    intro hopen'
    obtain ⟨-, st, hst', hbuffer, -⟩ := finishRead_open _ fd hopen'
    change ((s.io.handleReadable fd env).pendingSlot fd).buffer.length ≤ s.limit
    unfold handleReadable
    rw [hbuffer]
    exact hleft st hst'

theorem Limited.read (h : s.Limited fd) (hopen : fd ∈ s.io.openFds) {env : ReadEnv}
    (hfront : s.FrontUnended fd env) : (s.read fd env).Limited fd := by
  refine ⟨h.toWithin.read hopen env, ?_⟩
  rw [read_limit]
  unfold Sized.read
  simp only
  split_ifs with hstop
  · rw [List.forall_mem_append, List.forall_mem_singleton]
    refine ⟨h.longer, ?_⟩
    rcases readable_tooLarge _ _ _ _ _ (h.buffered hopen) hstop with hover | ⟨n, hn, hi⟩
    · exact (longerThan_iff_unended (overflow_lt hover)).mpr (hfront _ hover)
    · exact longerThan_of_declared hn hi
  · exact h.longer

/-- A call that answers 413 behind a request that ends before the limit breaks it. -/
theorem frontUnended_of_read {env : ReadEnv} (h : (s.read fd env).PerRequest fd) :
    s.FrontUnended fd env := by
  intro b hover
  obtain ⟨hstop, hfront⟩ := readable_of_overflow s.io.cfg s.io.pool _ _ _ hover
  have hlonger := h.longer b
  rw [read_limit] at hlonger
  apply (longerThan_iff_unended (overflow_lt hover)).mp
  apply hlonger
  unfold Sized.read
  change (s.io.readOutcome fd env).stop = _ at hstop
  simp [hstop, hfront]

/-- Rearming alone touches nothing that the limit is about. -/
theorem rearmed_eq (s : Sized) (fd : ℕ) (now : Ticks) : ∃ p armed,
    s.rearmed fd now = { s with io := { s.io with pending := p, armed := armed } } ∧
      ((s.rearmed fd now).io.pendingSlot fd).buffer = (s.io.pendingSlot fd).buffer := by
  obtain ⟨p, armed, heq, -⟩ := s.io.rearmed_eq fd now
  refine ⟨p, armed, by rw [rearmed, heq], ?_⟩
  rw [rearmed, s.io.pendingSlot_rearmed fd now]

theorem Within.rearmed (h : s.Within fd) (now : Ticks) : (s.rearmed fd now).Within fd := by
  obtain ⟨p, armed, heq, hbuffer⟩ := s.rearmed_eq fd now
  constructor
  · rw [heq]
    exact h.handed
  · rw [hbuffer, heq]
    exact h.buffered

theorem Limited.rearmed (h : s.Limited fd) (now : Ticks) : (s.rearmed fd now).Limited fd := by
  refine ⟨h.toWithin.rearmed now, ?_⟩
  obtain ⟨p, armed, heq, -⟩ := s.rearmed_eq fd now
  rw [heq]
  exact h.longer

theorem frontUnended_rearmed (now : Ticks) (env : ReadEnv) :
    (s.rearmed fd now).FrontUnended fd env ↔ s.FrontUnended fd env := by
  obtain ⟨p, armed, heq, hbuffer⟩ := s.rearmed_eq fd now
  unfold FrontUnended
  rw [hbuffer, heq]
  rfl

/-- A call reads from a connection that it may have rearmed, or only rearms it. -/
theorem step_cases {c : Call} {t : Sized} (hs : s.step fd c = some t) :
    fd ∈ s.io.openFds ∧
      ((∃ env, c = .readable env ∧ t = s.read fd env) ∨
        (∃ now env, c = .rearm now env ∧ (s.io.pendingSlot fd).buffer ≠ [] ∧
          fd ∈ (s.rearmed fd now).io.openFds ∧ t = (s.rearmed fd now).read fd env) ∨
        ∃ now env, c = .rearm now env ∧ (s.io.pendingSlot fd).buffer = [] ∧
          t = s.rearmed fd now) := by
  cases c with
  | config cfg => cases hs
  | readable env =>
    simp only [step] at hs
    split_ifs at hs with hopen
    cases hs
    exact ⟨hopen, Or.inl ⟨env, rfl, rfl⟩⟩
  | rearm now env =>
    simp only [step] at hs
    split_ifs at hs with hopen
    cases hs
    obtain ⟨p, armed, heq, hbuffer⟩ := s.rearmed_eq fd now
    refine ⟨hopen, Or.inr ?_⟩
    by_cases hempty : (s.io.pendingSlot fd).buffer = []
    · refine Or.inr ⟨now, env, rfl, hempty, ?_⟩
      exact if_neg (not_not.mpr (hbuffer.trans hempty))
    · refine Or.inl ⟨now, env, rfl, hempty, by rwa [heq], ?_⟩
      exact if_pos (by rwa [← hbuffer] at hempty)

theorem within_step {c : Call} {t : Sized} (h : s.Within fd)
    (hs : s.step fd c = some t) : t.Within fd := by
  obtain ⟨hopen, ⟨env, rfl, rfl⟩ | ⟨now, env, rfl, -, hopen', rfl⟩ | ⟨now, env, rfl, -, rfl⟩⟩ :=
    step_cases hs
  · exact h.read hopen env
  · exact (h.rearmed now).read hopen' env
  · exact h.rearmed now

/-- A call with no bundle in it keeps the invariant. -/
theorem limited_step {c : Call} {t : Sized} (h : s.Limited fd) (hc : s.Unbundled fd c)
    (hs : s.step fd c = some t) : t.Limited fd := by
  obtain ⟨hopen,
    ⟨env, rfl, rfl⟩ | ⟨now, env, rfl, hbytes, hopen', rfl⟩ | ⟨now, env, rfl, -, rfl⟩⟩ :=
    step_cases hs
  · exact h.read hopen hc
  · exact (h.rearmed now).read hopen' ((frontUnended_rearmed now env).mpr (hc hbytes))
  · exact h.rearmed now

/-- A call that keeps the limit one of each request has no bundle in it. -/
theorem unbundled_of_step {c : Call} {t : Sized} (hs : s.step fd c = some t)
    (ht : t.PerRequest fd) : s.Unbundled fd c := by
  obtain ⟨-, ⟨env, rfl, rfl⟩ | ⟨now, env, rfl, -, -, rfl⟩ | ⟨now, env, rfl, hempty, rfl⟩⟩ :=
    step_cases hs
  · exact frontUnended_of_read ht
  · intro _
    exact (frontUnended_rearmed now env).mp (frontUnended_of_read ht)
  · exact fun hbytes => absurd hempty hbytes

/-- A connection as it is accepted. -/
def accepted (io : RequestIO) (a : Accepted) : Sized := { io := io.acceptOne a }

theorem limited_accepted (io : RequestIO) (a : Accepted) :
    (accepted io a).Limited a.fd := by
  have hhistory : (io.acceptOne a).history a.fd = {} := by
    unfold acceptOne
    simp only
    split_ifs <;> simp [closeFd, setSlot]
  refine ⟨⟨?_, ?_⟩, by simp [accepted]⟩
  · simp [accepted, hhistory]
  · intro hopen
    have hstream := (streamed_accept a hopen).bytes
    change ((io.acceptOne a).pendingSlot a.fd).buffer.length ≤ _
    rw [hhistory] at hstream
    obtain ⟨-, hbuffer⟩ := List.append_eq_nil_iff.mp hstream
    rw [hbuffer]
    exact Nat.zero_le _

/-- In every run, no request longer than the limit is handed over. -/
theorem handed_within_limit (io : RequestIO) (a : Accepted) (cs : List Call) :
    Along (step a.fd) (fun s => ∀ raw ∈ (s.io.history a.fd).handed, raw.length ≤ s.limit)
      (accepted io a) cs := by
  have hwithin : Along (step a.fd) (Within a.fd) (accepted io a) cs :=
    along_of_invariant (fun _ _ _ h hs => within_step h hs) (limited_accepted io a).toWithin cs
  exact hwithin.mono fun _ h => h.handed

/-- `max_request_size` is a limit of each request along exactly the runs in which no recv takes the
buffer past it behind a request that ends before it. -/
theorem max_request_size_per_request (io : RequestIO) (a : Accepted) (cs : List Call) :
    Along (step a.fd) (PerRequest a.fd) (accepted io a) cs ↔
      Guarded (step a.fd) (Unbundled a.fd) (accepted io a) cs :=
  along_iff_guarded (fun _ h => h.perRequest) (fun _ _ _ h hc hs => limited_step h hc hs)
    (fun _ _ _ _ hs ht => unbundled_of_step hs ht) (limited_accepted io a) cs

/-- Two requests of 18 bytes, in one segment. -/
def bundle : Bytes := bytes "GET / HTTP/1.0\r\n\r\nGET / HTTP/1.0\r\n\r\n"

/-- With a limit of 30 bytes each of the two is within it, and yet the answer is 413. -/
theorem bundle_tooLarge : ¬ ∀ (io : RequestIO) (a : Accepted) (cs : List Call),
    Along (step a.fd) (PerRequest a.fd) (accepted io a) cs := by
  intro hall
  let io : RequestIO :=
    { cfg := { maxRequestSize := 30 }, pool := false, listenerFd := 3, notifyFd := 4 }
  have hrun : (exec (step 5) (accepted io ⟨5, true, 1⟩)
      [.readable { recvs := [.data bundle 1] }]).map
      (fun s => (s.tooLarge, s.limit)) = some ([bundle], 30) := by decide +kernel
  obtain ⟨s, hs, hmap⟩ := Option.map_eq_some_iff.mp hrun
  obtain ⟨htooLarge, hlimit⟩ := Prod.mk.inj hmap
  have hkept := (hall io ⟨5, true, 1⟩ _).exec hs
  have hlt := hkept.pipelined bundle (by rw [htooLarge]; simp) [] 18 (by decide) (by decide +kernel)
  rw [hlimit] at hlt
  exact absurd hlt (by decide)

end Sized

end Vermell.Request
