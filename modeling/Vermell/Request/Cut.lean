import Vermell.Request.Readable

/-! What one call of `HandleReadable` does to the bytes of its connection: it appends what it
receives, cuts complete requests off the front, and caches a length only where every longer buffer
would be given the same. -/
namespace Vermell.Request
open Http

/-- The buffer is a `std::string`, and a cached length is what inspection answers for it and for
every longer buffer. -/
structure ConnState.Sound (st : ConnState) : Prop where
  fits : st.buffer.length ≤ npos
  known : st.headKnown = true → ∀ s, inspect (st.buffer ++ s) =
    ⟨if (st.buffer ++ s).length ≥ st.expected then .complete else .incomplete, st.expected⟩

theorem ConnState.Sound.append {st : ConnState} (h : st.Sound) {more : Bytes} (time : Ticks)
    (hlen : (st.buffer ++ more).length ≤ npos) :
    ({ st with buffer := st.buffer ++ more, lastActivity := time } : ConnState).Sound := by
  refine ⟨hlen, ?_⟩
  intro hk s
  simp only [List.append_assoc]
  exact h.known hk (more ++ s)

theorem maxRequestSize_le (cfg : Config) : cfg.maxRequestSize.toNat ≤ npos := by
  have := cfg.maxRequestSize.toNat_lt
  simp only [npos]
  omega

/-- The recv loop appends the bytes of this call and leaves the rest of the slot alone. -/
theorem readLoop_ok {cfg : Config} {bufsz : ℕ} {st st' : ConnState} {got got' : Bytes}
    {recvs : List Recv} {peerClosed : Bool} (hst : st.Sound)
    (h : readLoop cfg bufsz st got recvs = .ok st' got' peerClosed) :
    st'.Sound ∧ ∃ more time, got' = got ++ more ∧
      st' = { st with buffer := st.buffer ++ more, lastActivity := time } := by
  induction recvs generalizing st got with
  | nil =>
    cases h
    exact ⟨hst, [], st'.lastActivity, by simp, by simp⟩
  | cons r rest ih =>
    cases r with
    | interrupted => exact ih hst h
    | wouldBlock =>
      cases h
      exact ⟨hst, [], st'.lastActivity, by simp, by simp⟩
    | failed => cases h
    | data bytes time =>
      simp only [readLoop] at h
      split_ifs at h with hend hbig hshort
      · cases h
        exact ⟨hst, [], st'.lastActivity, by simp, by simp⟩
      · cases h
        have hlen := (not_lt.mp hbig).trans (maxRequestSize_le cfg)
        exact ⟨hst.append time hlen, bytes, time, rfl, rfl⟩
      · have hsound := hst.append time ((not_lt.mp hbig).trans (maxRequestSize_le cfg))
        obtain ⟨hst', more, time', hgot, hst''⟩ := ih hsound h
        exact ⟨hst', bytes ++ more, time', by rw [hgot, List.append_assoc],
          by rw [hst'']; simp⟩

section
variable (cfg : Config) (peerClosed dl : Bool) {st st' : ConnState} {raw : Bytes}

/-- On a sound slot the cached length and a fresh inspection cut alike. -/
theorem takeRequest_eq_cut_iff (hst : st.Sound) :
    takeRequest cfg peerClosed dl st = .cut raw st' ↔
      ∃ n, inspect st.buffer = ⟨.complete, n⟩ ∧ .cut raw st' = cutRequest st n := by
  rw [takeRequest_cut_iff]
  cases hk : st.headKnown with
  | false =>
    simp only [Bool.false_eq_true, false_and, false_or, true_and]
    exact exists_congr fun n => and_comm
  | true =>
    have hi := hst.known hk []
    rw [List.append_nil] at hi
    rw [hi]
    simp only [true_and, reduceCtorEq, false_and, or_false, Inspection.mk.injEq]
    apply exists_congr
    intro n
    constructor
    · rintro ⟨hcut, rfl, hle⟩
      exact ⟨⟨if_pos hle, rfl⟩, hcut⟩
    · rintro ⟨⟨hle, rfl⟩, hcut⟩
      split_ifs at hle with hle'
      exact ⟨hcut, rfl, hle'⟩

/-- A cut takes a whole request off the front of the buffer. -/
theorem takeRequest_cut_sound (hst : st.Sound)
    (h : takeRequest cfg peerClosed dl st = .cut raw st') :
    inspect raw = ⟨.complete, raw.length⟩ ∧ raw ++ st'.buffer = st.buffer ∧ st'.Sound := by
  obtain ⟨n, hi, hcut⟩ := (takeRequest_eq_cut_iff _ _ _ hst).mp h
  obtain ⟨rfl, rfl⟩ := Taken.cut.inj hcut
  obtain ⟨hn, -, htake⟩ := inspect_complete_stable hst.fits hi
  refine ⟨?_, List.take_append_drop _ _, ?_, ?_⟩
  · rw [htake, List.length_take, min_eq_left hn]
  · have hfits := hst.fits
    simp only [List.length_drop]
    omega
  · intro hk
    cases hk

/-- A pass that waits keeps the buffer and may cache the length. -/
theorem takeRequest_wait_sound (hst : st.Sound)
    (h : takeRequest cfg peerClosed dl st = .wait st') :
    st'.buffer = st.buffer ∧ st'.Sound := by
  obtain ⟨-, -, ⟨-, -, rfl⟩ | ⟨-, n, hi, rfl⟩⟩ := takeRequest_wait h
  · exact ⟨rfl, hst⟩
  · refine ⟨rfl, hst.fits, ?_⟩
    intro hpos s
    exact inspect_incomplete_stable (of_decide_eq_true hpos) hi s

end

/-- The slot a call leaves behind, where the connection lives on. -/
def ReadEnd.state? : ReadEnd → Option ConnState
  | .waits st => some st
  | .dispatched _ st => some st
  | .escaped st => some st
  | .rejected _ => none
  | .closed => none

/-- How the request loop may end right behind a cut, with the slot that the cut left. -/
inductive EndsBehind (pool : Bool) (raw : Bytes) (st : ConnState) : ReadEnd → Prop
  | dispatched (hpool : pool = true) : EndsBehind pool raw st (.dispatched raw st)
  | escaped : EndsBehind pool raw st (.escaped st)
  | closed : EndsBehind pool raw st .closed
  | drained (time : Ticks) (hempty : st.buffer = []) :
    EndsBehind pool raw st (.waits { st with start := time, lastActivity := time })

theorem EndsBehind.state? {pool : Bool} {raw : Bytes} {st st' : ConnState} {stop : ReadEnd}
    (h : EndsBehind pool raw st stop) (hstop : stop.state? = some st') :
    st'.buffer = st.buffer ∧ (st.Sound → st'.Sound) := by
  cases h with
  | dispatched hpool =>
    cases hstop
    exact ⟨rfl, id⟩
  | escaped =>
    cases hstop
    exact ⟨rfl, id⟩
  | closed => cases hstop
  | drained time hempty =>
    cases hstop
    exact ⟨rfl, fun hst => ⟨hst.fits, hst.known⟩⟩

/-- What holds of the passes that end the request loop, and goes from the rest of the buffer to the
buffer, holds of the loop. -/
theorem serveLoop_rule (cfg : Config) (pool : Bool) (env : ReadEnv) (peerClosed dl : Bool)
    {P : ConnState → List Bytes → ReadEnd → Prop}
    (hreject : ∀ st r, takeRequest cfg peerClosed dl st = .reject r → P st [] (.rejected r))
    (hwait : ∀ st st', takeRequest cfg peerClosed dl st = .wait st' → P st [] (.waits st'))
    (hlast : ∀ st raw st' stop, takeRequest cfg peerClosed dl st = .cut raw st' →
      EndsBehind pool raw st' stop → P st [raw] stop)
    (hmore : ∀ st raw st' served stop, takeRequest cfg peerClosed dl st = .cut raw st' →
      P st' served stop → P st (raw :: served) stop) (st : ConnState) (handed : List Bytes) :
    ∃ served, (serveLoop cfg pool env peerClosed dl st handed).1 = handed ++ served ∧
      P st served (serveLoop cfg pool env peerClosed dl st handed).2 := by
  induction st, handed using serveLoop.induct cfg pool env peerClosed dl with
  | case1 st handed r h =>
    rw [serveLoop_eq, h]
    exact ⟨[], by simp, hreject st r h⟩
  | case2 st handed st' h =>
    rw [serveLoop_eq, h]
    exact ⟨[], by simp, hwait st st' h⟩
  | case3 st handed raw st' h hpool =>
    rw [serveLoop_eq, h]
    simp only [hpool, if_true]
    exact ⟨[raw], rfl, hlast st raw st' _ h (.dispatched hpool)⟩
  | case4 st handed raw st' h hpool hh =>
    rw [serveLoop_eq, h]
    simp only [if_neg hpool, hh]
    exact ⟨[raw], rfl, hlast st raw st' _ h .escaped⟩
  | case5 st handed raw st' h hpool hh =>
    rw [serveLoop_eq, h]
    simp only [if_neg hpool, hh]
    exact ⟨[raw], rfl, hlast st raw st' _ h .closed⟩
  | case6 st handed raw st' h hpool hh hempty =>
    rw [serveLoop_eq, h]
    simp only [if_neg hpool, hh, if_pos hempty]
    exact ⟨[raw], rfl, hlast st raw st' _ h (.drained env.finish hempty)⟩
  | case7 st handed raw st' h hpool hh hempty ih =>
    rw [serveLoop_eq, h]
    obtain ⟨served, hserved, hP⟩ := ih
    simp only [if_neg hpool, hh, if_neg hempty]
    exact ⟨raw :: served, by rw [hserved]; simp, hmore st raw st' served _ h hP⟩

/-- Whole requests off the front of a sound buffer, and a sound slot with the bytes behind them. -/
def ServesWhole (st : ConnState) (served : List Bytes) (stop : ReadEnd) : Prop :=
  st.Sound → (∀ raw ∈ served, inspect raw = ⟨.complete, raw.length⟩) ∧
    ∀ st', stop.state? = some st' → served.flatten ++ st'.buffer = st.buffer ∧ st'.Sound

/-- The request loop hands over whole requests and keeps exactly the bytes behind them. -/
theorem serveLoop_sound (cfg : Config) (pool : Bool) (env : ReadEnv) (peerClosed dl : Bool)
    {st : ConnState} (hst : st.Sound) (handed : List Bytes) :
    ∃ served, (serveLoop cfg pool env peerClosed dl st handed).1 = handed ++ served ∧
      (∀ raw ∈ served, inspect raw = ⟨.complete, raw.length⟩) ∧
      ∀ st', (serveLoop cfg pool env peerClosed dl st handed).2.state? = some st' →
        served.flatten ++ st'.buffer = st.buffer ∧ st'.Sound := by
  have hreject (s : ConnState) (r : Rejection) (_ : takeRequest cfg peerClosed dl s = .reject r) :
      ServesWhole s [] (.rejected r) := fun _ => ⟨by simp, by simp [ReadEnd.state?]⟩
  have hwait (s s' : ConnState) (h : takeRequest cfg peerClosed dl s = .wait s') :
      ServesWhole s [] (.waits s') := by
    intro hs
    refine ⟨by simp, ?_⟩
    rintro _ ⟨rfl⟩
    exact takeRequest_wait_sound _ _ _ hs h
  have hlast (s : ConnState) (raw : Bytes) (s' : ConnState) (stop : ReadEnd)
      (h : takeRequest cfg peerClosed dl s = .cut raw s') (hstop : EndsBehind pool raw s' stop) :
      ServesWhole s [raw] stop := by
    intro hs
    obtain ⟨hraw, hbuf, hs'⟩ := takeRequest_cut_sound _ _ _ hs h
    refine ⟨by simpa using hraw, ?_⟩
    intro st' hstate
    obtain ⟨hsame, hsound⟩ := hstop.state? hstate
    exact ⟨by simpa [hsame] using hbuf, hsound hs'⟩
  have hmore (s : ConnState) (raw : Bytes) (s' : ConnState) (served : List Bytes) (stop : ReadEnd)
      (h : takeRequest cfg peerClosed dl s = .cut raw s') (hrest : ServesWhole s' served stop) :
      ServesWhole s (raw :: served) stop := by
    intro hs
    obtain ⟨hraw, hbuf, hs'⟩ := takeRequest_cut_sound _ _ _ hs h
    obtain ⟨hall, hleft⟩ := hrest hs'
    refine ⟨List.forall_mem_cons.mpr ⟨hraw, hall⟩, ?_⟩
    intro st' hstate
    obtain ⟨hflat, hsound⟩ := hleft st' hstate
    exact ⟨by rw [List.flatten_cons, List.append_assoc, hflat, hbuf], hsound⟩
  obtain ⟨served, hserved, hwhole⟩ :=
    serveLoop_rule cfg pool env peerClosed dl hreject hwait hlast hmore st handed
  exact ⟨served, hserved, hwhole hst⟩

section
variable (cfg : Config) (bufsz : ℕ) (env : ReadEnv) {st : ConnState}

theorem ConnState.started_buffer (st : ConnState) (now : Ticks) :
    (st.started now).buffer = st.buffer := by
  unfold ConnState.started
  split_ifs <;> rfl

theorem ConnState.Sound.started (hst : st.Sound) (now : Ticks) : (st.started now).Sound := by
  unfold ConnState.started
  split_ifs
  · exact ⟨hst.fits, hst.known⟩
  · exact hst

/-- A call hands over whole requests; they, and the buffer it leaves, are the bytes it found and
the bytes it received. -/
theorem readable_sound (pool : Bool) (hst : st.Sound) :
    (∀ raw ∈ (readable cfg pool bufsz env st).handed, inspect raw = ⟨.complete, raw.length⟩) ∧
      ∀ st', (readable cfg pool bufsz env st).stop.state? = some st' →
        (readable cfg pool bufsz env st).handed.flatten ++ st'.buffer =
          st.buffer ++ (readable cfg pool bufsz env st).got ∧ st'.Sound := by
  unfold readable
  cases hr : readLoop cfg bufsz (st.started env.now) [] env.recvs with
  | reject r got => simp [ReadEnd.state?]
  | ok st₁ got peerClosed =>
    obtain ⟨hst₁, more, time, hgot, hbuf⟩ := readLoop_ok (hst.started env.now) hr
    have hbuffer : st₁.buffer = st.buffer ++ got := by
      rw [hbuf, hgot, ConnState.started_buffer, List.nil_append]
    simp only
    split_ifs with hempty
    · refine ⟨by simp, ?_⟩
      rintro _ ⟨rfl⟩
      exact ⟨by simpa using hbuffer, hst₁⟩
    · obtain ⟨served, hserved, hall, hrest⟩ :=
        serveLoop_sound cfg pool env peerClosed (deadlineOver cfg env.now st₁) hst₁ []
      rw [List.nil_append] at hserved
      rw [hserved, ← hbuffer]
      exact ⟨hall, hrest⟩

/-- The bytes the slot holds when the recv loop is over, unless the call answers an error there. -/
def arrived (st : ConnState) : Option Bytes :=
  match readLoop cfg bufsz (st.started env.now) [] env.recvs with
  | .ok st _ _ => some st.buffer
  | .reject _ _ => none

/-- With a pool, a call waits, answers an error or dispatches one request. -/
theorem readable_pool (st : ConnState) :
    (∃ raw st', (readable cfg true bufsz env st).handed = [raw] ∧
      (readable cfg true bufsz env st).stop = .dispatched raw st') ∨
    (readable cfg true bufsz env st).handed = [] ∧
      ((∃ st', (readable cfg true bufsz env st).stop = .waits st') ∨
        ∃ r, (readable cfg true bufsz env st).stop = .rejected r) := by
  unfold readable
  cases readLoop cfg bufsz (st.started env.now) [] env.recvs with
  | reject r got => exact Or.inr ⟨rfl, Or.inr ⟨r, rfl⟩⟩
  | ok st₁ got peerClosed =>
    simp only
    split_ifs
    · exact Or.inr ⟨rfl, Or.inl ⟨st₁, rfl⟩⟩
    · rw [serveLoop_eq]
      cases takeRequest cfg peerClosed (deadlineOver cfg env.now st₁) st₁ with
      | reject r => exact Or.inr ⟨rfl, Or.inr ⟨r, rfl⟩⟩
      | wait st' => exact Or.inr ⟨rfl, Or.inl ⟨st', rfl⟩⟩
      | cut raw st' => exact Or.inl ⟨raw, st', rfl, rfl⟩

/-- A call with a pool dispatches exactly where the bytes start with a complete request. -/
theorem readable_dispatched_iff (hst : st.Sound) (raw rest : Bytes) :
    (∃ st', (readable cfg true bufsz env st).stop = .dispatched raw st' ∧ st'.buffer = rest) ↔
      arrived cfg bufsz env st = some (raw ++ rest) ∧
        inspect (raw ++ rest) = ⟨.complete, raw.length⟩ := by
  unfold readable arrived
  cases hr : readLoop cfg bufsz (st.started env.now) [] env.recvs with
  | reject r got => simp
  | ok st₁ got peerClosed =>
    obtain ⟨hst₁, -⟩ := readLoop_ok (hst.started env.now) hr
    simp only [Option.some.injEq]
    split_ifs with hempty
    · rw [hempty]
      simp only [false_and, exists_false, false_iff, not_and]
      intro hnil
      rw [← hnil]
      simp [show inspect [] = ⟨.incomplete, 0⟩ by decide]
    · rw [serveLoop_eq]
      constructor
      · rintro ⟨st', hstop, rfl⟩
        cases ht : takeRequest cfg peerClosed (deadlineOver cfg env.now st₁) st₁ with
        | reject r => simp [ht] at hstop
        | wait s => simp [ht] at hstop
        | cut raw' s =>
          simp only [ht, if_true, ReadEnd.dispatched.injEq] at hstop
          obtain ⟨rfl, rfl⟩ := hstop
          obtain ⟨-, hbuf, -⟩ := takeRequest_cut_sound _ _ _ hst₁ ht
          obtain ⟨n, hi, hcut⟩ := (takeRequest_eq_cut_iff _ _ _ hst₁).mp ht
          obtain ⟨hraw, -⟩ := Taken.cut.inj hcut
          have hn : raw'.length = n := by
            rw [hraw, List.length_take, min_eq_left (inspect_complete_le hi).2]
          rw [hbuf, hi, hn]
          exact ⟨rfl, rfl⟩
      · rintro ⟨hbuf, hi⟩
        have hcut : cutRequest st₁ raw.length = .cut raw { st₁ with
            buffer := rest, expected := 0, headKnown := false } := by
          unfold cutRequest
          rw [hbuf, List.take_left, List.drop_left]
        have ht := (takeRequest_eq_cut_iff cfg peerClosed (deadlineOver cfg env.now st₁) hst₁).mpr
          ⟨raw.length, hbuf ▸ hi, hcut.symm⟩
        rw [ht]
        exact ⟨_, rfl, rfl⟩

/-- Without a pool nothing is dispatched. -/
theorem readable_inline (st : ConnState) (raw : Bytes) (st' : ConnState) :
    (readable cfg false bufsz env st).stop ≠ .dispatched raw st' := by
  have hloop (peerClosed dl : Bool) (s : ConnState) (handed : List Bytes) :
      (serveLoop cfg false env peerClosed dl s handed).2 ≠ .dispatched raw st' := by
    have hlast (s : ConnState) (raw' : Bytes) (s' : ConnState) (stop : ReadEnd)
        (_ : takeRequest cfg peerClosed dl s = .cut raw' s')
        (hstop : EndsBehind false raw' s' stop) :
        stop ≠ .dispatched raw st' := by
      cases hstop with
      | dispatched hpool => cases hpool
      | escaped => simp
      | closed => simp
      | drained time hempty => simp
    obtain ⟨_, -, hne⟩ := serveLoop_rule cfg false env peerClosed dl
      (P := fun _ _ stop => stop ≠ .dispatched raw st') (by simp) (by simp) hlast
      (fun _ _ _ _ _ _ hrest => hrest) s handed
    exact hne
  unfold readable
  cases readLoop cfg bufsz (st.started env.now) [] env.recvs with
  | reject r got => simp
  | ok st₁ got peerClosed =>
    simp only
    split_ifs
    · simp
    · exact hloop _ _ _ _

end

end Vermell.Request
