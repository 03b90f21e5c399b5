import Vermell.Request.Lanes
import Vermell.Request.Stamps
import Vermell.Simulation

/-! The deadlines over whole runs of the loop. A connection that gets no request through keeps the
start of its slot, whatever arrives on it, so a sweep ends it when the time is over. -/
namespace Vermell.Request
open Http Runs
namespace RequestIO

section
variable {io io' : RequestIO} {fd : ℕ}

theorem isOpen_of_lane (h : io'.lane [] fd = io.lane [] fd) :
    fd ∈ io'.openFds ↔ fd ∈ io.openFds :=
  iff_of_eq (congrArg Lane.isOpen h)

theorem lane_drainEach {done : List Completion} (hdone : ∀ c ∈ done, c.fd ≠ fd)
    (envs : ℕ → DrainEnv) : (drainEach envs done io).lane [] fd = io.lane [] fd := by
  induction done generalizing io envs with
  | nil => rfl
  | cons c rest ih =>
    obtain ⟨hc, hrest⟩ := List.forall_mem_cons.mp hdone
    rw [drainEach, ih hrest]
    unfold drainOne
    split_ifs
    · exact lane_rearmConnection io [] _ hc.symm _
    · exact lane_retire io [] hc.symm

/-- A connection that is open is none of those that come in. -/
theorem lane_acceptPending {accs : List Accepted} (ha : io.acceptPending accs = some io')
    (hopen : fd ∈ io.openFds) : io'.lane [] fd = io.lane [] fd := by
  induction accs generalizing io with
  | nil =>
    cases ha
    rfl
  | cons a rest ih =>
    unfold acceptPending at ha
    split_ifs at ha with hunused
    have hne : fd ≠ a.fd := by
      rintro rfl
      simp only [unused, Bool.and_eq_true, decide_eq_true_eq] at hunused
      exact hunused.1.1.1 hopen
    have hlane := lane_acceptOne io [] hne
    rw [ih ha ((isOpen_of_lane hlane).mpr hopen), hlane]

theorem lane_dispatchClient {e : Event} (env : ReadEnv) (hne : fd ≠ e.fd) :
    (io.dispatchClient e env).lane [] fd = io.lane [] fd := by
  have hread := lane_handleReadable io [] env hne
  unfold dispatchClient
  cases e.readable with
  | true =>
    simp only [if_true]
    split_ifs
    · exact hread
    · exact (lane_retire _ [] hne).trans hread
    · exact hread
    · exact hread
  | false =>
    simp only [Bool.false_eq_true, if_false]
    split_ifs
    · rfl
    · exact lane_retire io [] hne
    · rfl
    · rfl

/-- An event on a connection that it leaves open is a call, or nothing. -/
theorem dispatchClient_open {e : Event} {env : ReadEnv}
    (hopen : e.fd ∈ (io.dispatchClient e env).openFds) :
    io.dispatchClient e env = io ∨ io.dispatchClient e env = io.handleReadable e.fd env := by
  have hreject (io : RequestIO) : e.fd ∉ (io.reject e.fd).openFds := Finset.notMem_erase e.fd _
  unfold dispatchClient at hopen ⊢
  cases hreadable : e.readable with
  | true =>
    rw [hreadable] at hopen
    simp only [if_true] at hopen ⊢
    split_ifs at hopen ⊢
    · exact Or.inr rfl
    · exact absurd hopen (hreject _)
    · exact Or.inr rfl
    · exact Or.inr rfl
  | false =>
    rw [hreadable] at hopen
    simp only [Bool.false_eq_true, if_false] at hopen ⊢
    split_ifs at hopen ⊢
    · exact Or.inl rfl
    · exact absurd hopen (hreject _)
    · exact Or.inl rfl
    · exact Or.inl rfl

theorem lane_sweepSlot {now : Ticks} {g : ℕ} (hopen : fd ∈ (sweepSlot now io g).openFds) :
    (sweepSlot now io g).lane [] fd = io.lane [] fd := by
  unfold sweepSlot at hopen ⊢
  split
  · rfl
  · rename_i st hslot
    simp only [hslot] at hopen
    split_ifs at hopen ⊢
    · apply lane_retire io []
      rintro rfl
      exact Finset.notMem_erase fd _ hopen
    · rfl

/-- A sweep closes a connection or leaves it alone. -/
theorem lane_sweep {now : Ticks} {fds : List ℕ}
    (hopen : fd ∈ (fds.foldl (sweepSlot now) io).openFds) :
    (fds.foldl (sweepSlot now) io).lane [] fd = io.lane [] fd := by
  induction fds generalizing io with
  | nil => rfl
  | cons g rest ih =>
    have hrest := ih hopen
    exact hrest.trans (lane_sweepSlot ((isOpen_of_lane hrest).mp hopen))

theorem sweep_closed {now : Ticks} {fds : List ℕ} (h : fd ∉ io.openFds) :
    fd ∉ (fds.foldl (sweepSlot now) io).openFds := fun hopen =>
  h ((isOpen_of_lane (lane_sweep hopen)).mp hopen)

/-- It closes what is over its time. -/
theorem sweep_stale {now : Ticks} {fds : List ℕ} {st : ConnState} (hfd : fd ∈ fds)
    (hslot : io.slot fd = some st) (hstale : stale io.cfg now st = true) :
    fd ∉ (fds.foldl (sweepSlot now) io).openFds := by
  induction fds generalizing io with
  | nil => cases hfd
  | cons g rest ih =>
    by_cases hopen : fd ∈ (sweepSlot now io g).openFds
    · have hlane := lane_sweepSlot hopen
      rcases List.mem_cons.mp hfd with rfl | hrest
      · simp only [sweepSlot, hslot, hstale, if_true] at hopen
        exact absurd hopen (Finset.notMem_erase fd _)
      · apply ih hrest ((congrArg Lane.slot hlane).trans hslot)
        rw [show (sweepSlot now io g).cfg = io.cfg from congrArg Lane.cfg hlane]
        exact hstale
    · rw [List.foldl_cons]
      exact sweep_closed hopen

/-- What a step does to an open connection with nothing in flight, where it leaves it open: nothing,
or a call. -/
theorem lane_step {l : LoopStep} (hs : io.step l = some io') (hkept : io'.Kept [])
    (hopen : fd ∈ io.openFds) (hidle : io.flights [] fd = 0) (hopen' : fd ∈ io'.openFds) :
    io'.lane [] fd = io.lane [] fd ∨ ∃ (u : RequestIO) (env : ReadEnv),
      u.lane [] fd = io.lane [] fd ∧ io'.lane [] fd = (u.handleReadable fd env).lane [] fd := by
  obtain ⟨htasks, hcompletions⟩ := lane_idle hidle
  cases stepped hs with
  | wait polling nodup reported => exact Or.inl rfl
  | @event env e rest io₁ ready dispatched =>
    have hunwind : io₁.unwind.lane [] fd = io₁.lane [] fd := by
      obtain ⟨r, phase, u, heq⟩ := io₁.unwind_eq
      rw [heq]
      rfl
    have hopen₁ := (isOpen_of_lane hunwind).mp hopen'
    rw [hunwind]
    unfold dispatchEvent at dispatched
    split_ifs at dispatched
    · cases dispatched
      left
      -- nothing of the connection is in flight, so the drain is about others
      have hdone : ∀ c ∈ io.completed, c.fd ≠ fd := by
        intro c hc hfd
        have hcount : io.completed.countP (·.fd == fd) = 0 := by
          simpa [lane] using hcompletions
        simpa [hfd] using List.countP_eq_zero.mp hcount c hc
      refine (lane_drainEach hdone _).trans (lane_congr rfl rfl rfl Iff.rfl rfl ?_)
      simpa [lane] using hcompletions.symm
    · have hlane := lane_acceptPending dispatched hopen
      exact Or.inl hlane
    · cases dispatched
      by_cases hne : fd = e.fd
      · subst hne
        rcases dispatchClient_open hopen₁ with heq | heq
        · rw [heq]
          exact Or.inl rfl
        · rw [heq]
          exact Or.inr ⟨{ io with ready := rest }, _, rfl, rfl⟩
      · exact Or.inl (lane_dispatchClient _ hne)
  | sweep ready => exact Or.inl (lane_sweep hopen')
  | take taken => exact Or.inl (lane_take io [] taken)
  | @finish i handler _ served =>
    obtain ⟨t, ht, -⟩ := Option.map_eq_some_iff.mp served
    left
    apply lane_serveRequest io [] ht served
    -- the task that is done would be in flight
    rintro rfl
    have hmem : t.raw ∈ (io.lane [] t.fd).tasks := by
      apply List.mem_map_of_mem
      simp [List.mem_of_getElem? ht]
    rw [htasks] at hmem
    cases hmem
  | stop polling => exact Or.inl rfl
  | shutdown stopping queue running =>
    rw [hkept.totals.down rfl] at hopen'
    exact absurd hopen' (Finset.notMem_empty fd)

end
end RequestIO

section
variable {cfg : Config} {st st' : ConnState}

/-- The recv loop touches the time of the last input only where it takes input. -/
theorem readLoop_quiet {bufsz : ℕ} {got got' : Bytes} {recvs : List Recv} {peerClosed : Bool}
    (h : readLoop cfg bufsz st got recvs = .ok st' got' peerClosed) :
    st'.start = st.start ∧ st'.dispatching = st.dispatching ∧ got <+: got' ∧
      (got' = got → st'.lastActivity = st.lastActivity) := by
  induction recvs generalizing st got with
  | nil =>
    cases h
    exact ⟨rfl, rfl, List.prefix_rfl, fun _ => rfl⟩
  | cons r rest ih =>
    cases r with
    | interrupted => exact ih h
    | wouldBlock =>
      cases h
      exact ⟨rfl, rfl, List.prefix_rfl, fun _ => rfl⟩
    | failed => cases h
    | data bytes time =>
      simp only [readLoop] at h
      split_ifs at h with hend hbig hshort
      · cases h
        exact ⟨rfl, rfl, List.prefix_rfl, fun _ => rfl⟩
      · cases h
        refine ⟨rfl, rfl, List.prefix_append got bytes, fun hgot => ?_⟩
        exact absurd (List.append_right_eq_self.mp hgot) hend
      · obtain ⟨hstart, hdispatching, hgot, -⟩ := ih h
        refine ⟨hstart, hdispatching, (List.prefix_append got bytes).trans hgot, fun heq => ?_⟩
        have hlen := hgot.length_le
        rw [heq, List.length_append] at hlen
        exact absurd (List.length_eq_zero_iff.mp (by omega)) hend

/-- A request that is cut is handed over. -/
theorem serveLoop_cut (pool : Bool) (env : ReadEnv) {peerClosed dl : Bool} {raw : Bytes}
    (h : takeRequest cfg peerClosed dl st = .cut raw st') :
    (serveLoop cfg pool env peerClosed dl st []).1 ≠ [] := by
  obtain ⟨served, hserved, hne⟩ := serveLoop_rule cfg pool env peerClosed dl
    (P := fun st served _ => (∃ raw st', takeRequest cfg peerClosed dl st = .cut raw st') →
      served ≠ [])
    (fun st r hreject => by simp [hreject]) (fun st st' hwait => by simp [hwait])
    (fun _ raw _ _ _ _ _ => List.cons_ne_nil raw [])
    (fun _ raw _ served _ _ _ _ => List.cons_ne_nil raw served) st []
  rw [hserved, List.nil_append]
  exact hne ⟨raw, st', h⟩

/-- A call that hands over nothing and keeps its connection waits, with the start of its slot. -/
theorem readable_quiet {pool : Bool} {bufsz : ℕ} {env : ReadEnv}
    (hhanded : (readable cfg pool bufsz env st).handed = [])
    (hends : (readable cfg pool bufsz env st).stop.ends env.accepted = false) :
    ∃ st', (readable cfg pool bufsz env st).stop = .waits st' ∧
      st'.start = (st.started env.now).start ∧ st'.dispatching = st.dispatching ∧
      ((readable cfg pool bufsz env st).got = [] → st'.lastActivity = st.lastActivity) := by
  have hstarted : (st.started env.now).dispatching = st.dispatching ∧
      (st.started env.now).lastActivity = st.lastActivity := by
    unfold ConnState.started
    split_ifs
    · exact ⟨rfl, rfl⟩
    · exact ⟨rfl, rfl⟩
  unfold readable at hhanded hends ⊢
  cases hread : readLoop cfg bufsz (st.started env.now) [] env.recvs with
  | reject r got =>
    rw [hread] at hends
    cases hends
  | ok st₁ got peerClosed =>
    obtain ⟨hstart, hdispatching, -, hlast⟩ := readLoop_quiet hread
    simp only [hread] at hhanded hends ⊢
    split_ifs at hhanded hends ⊢
    · exact ⟨st₁, rfl, hstart, hdispatching.trans hstarted.1, fun hgot =>
        (hlast hgot).trans hstarted.2⟩
    · have hwaits : ∃ st', takeRequest cfg peerClosed (deadlineOver cfg env.now st₁) st₁ =
          .wait st' := by
        cases htaken : takeRequest cfg peerClosed (deadlineOver cfg env.now st₁) st₁ with
        | reject r =>
          rw [serveLoop_eq, htaken] at hends
          cases hends
        | wait st' => exact ⟨st', rfl⟩
        | cut raw st' => exact absurd hhanded (serveLoop_cut pool env htaken)
      obtain ⟨st', htaken⟩ := hwaits
      obtain ⟨hstart', hdispatching'⟩ := takeRequest_keeps (Or.inl htaken)
      refine ⟨st', by rw [serveLoop_eq, htaken], hstart'.trans hstart,
        (hdispatching'.trans hdispatching).trans hstarted.1, fun hgot => ?_⟩
      rw [takeRequest_lastActivity (Or.inl htaken), hlast hgot, hstarted.2]

end

/-- A connection that has waited since `T` for a request to come through. -/
structure Lane.Stalled (T : Ticks) (received : Bytes) (l : Lane) : Prop where
  tasks : l.tasks = []
  completions : l.completions = 0
  stream : received <+: l.history.received
  slot : ∃ st, l.slot = some st ∧ st.dispatching = false ∧ Past T st.start ∧
    (l.history.received = received → st.lastActivity ≤ T)

namespace RequestIO
variable {io io' : RequestIO} {fd : ℕ} {T : Ticks} {received : Bytes}

theorem flights_of_stalled (h : (io.lane [] fd).Stalled T received) : io.flights [] fd = 0 := by
  rw [← lane_flights, h.tasks, h.completions]
  rfl

/-- A call that gets no request through leaves its connection waiting. -/
theorem stalled_handleReadable {env : ReadEnv} (h : (io.lane [] fd).Stalled T received)
    (hopen : fd ∈ (io.handleReadable fd env).openFds)
    (hhanded : ((io.handleReadable fd env).history fd).handed = (io.history fd).handed) :
    ((io.handleReadable fd env).lane [] fd).Stalled T received := by
  have hidle := flights_of_stalled h
  obtain ⟨htasks, hslot⟩ := lane_open hidle hopen
  have hhistory := io.handleReadable_history fd env
  obtain ⟨-, hcompletions, hprefix, st, hst, hdispatching, hstart, hlast⟩ := h
  have hst : io.slot fd = some st := hst
  have hends : (io.readOutcome fd env).stop.ends env.accepted = false := by
    by_contra hends
    obtain ⟨p, n, hist, heq, -⟩ := io.handleReadable_ended fd env (by simpa using hends)
    rw [heq] at hopen
    exact Finset.notMem_erase fd _ hopen
  rw [hhistory] at hhanded
  have hnone := List.append_right_eq_self.mp hhanded
  have hread : io.readOutcome fd env = readable io.cfg io.pool io.bufsz env st := by
    rw [readOutcome, pendingSlot, hst, Option.getD_some]
  obtain ⟨p, armed, u, n, hist, heq, -⟩ := io.handleReadable_kept fd env hends
  rw [hread] at hnone hends
  obtain ⟨st', hstop, hstart', hdispatching', hlast'⟩ := readable_quiet hnone hends
  rw [← hread] at hstop hlast'
  rw [hstop] at htasks hslot
  refine ⟨htasks, ?_, ?_, st', hslot, hdispatching'.trans hdispatching, ?_, ?_⟩
  · rw [heq]
    exact hcompletions
  · change received <+: ((io.handleReadable fd env).history fd).received
    rw [hhistory]
    exact hprefix.trans (List.prefix_append _ _)
  -- the start is no default, so the call does not set it again
  · rw [hstart', ConnState.started, if_neg hstart.1.ne']
    exact hstart
  · intro hreceived
    change ((io.handleReadable fd env).history fd).received = received at hreceived
    rw [hhistory] at hreceived
    have hlen := hprefix.length_le
    change received.length ≤ (io.history fd).received.length at hlen
    have hgot : (io.readOutcome fd env).got = [] := by
      have hlen' := congrArg List.length hreceived
      rw [List.length_append] at hlen'
      exact List.length_eq_zero_iff.mp (by omega)
    rw [hgot, List.append_nil] at hreceived
    exact (hlast' hgot).trans_le (hlast hreceived)

/-- As long as no request comes through, a connection that is kept open waits. -/
theorem stalled_along {ls : List LoopStep} {handed : List Bytes} (hkept : io.Kept [])
    (h : (io.lane [] fd).Stalled T received) (horderly : Guarded step Orderly io ls)
    (hquiet : Along step (fun t => fd ∈ t.openFds ∧ (t.history fd).handed = handed) io ls)
    (hs : exec step io ls = some io') :
    io'.Kept [] ∧ (io'.lane [] fd).Stalled T received := by
  induction ls generalizing io with
  | nil =>
    cases hs
    exact ⟨hkept, h⟩
  | cons l ls ih =>
    obtain ⟨t, ht, hs⟩ := Option.bind_eq_some_iff.mp hs
    obtain ⟨hok, hguarded⟩ := horderly t ht
    obtain ⟨⟨hopen, hhanded⟩, hrest⟩ := hquiet
    obtain ⟨hopen', hhanded'⟩ := (hrest t ht).head
    have hkept' := hkept.preserved hok ht
    refine ih hkept' ?_ hguarded (hrest t ht) hs
    rcases lane_step ht hkept' hopen (flights_of_stalled h) hopen' with hlane | ⟨u, env, hu, hlane⟩
    · rwa [hlane]
    · rw [hlane]
      apply stalled_handleReadable (hu ▸ h)
      · exact (iff_of_eq (congrArg Lane.isOpen hlane)).mp hopen'
      · have hnext := congrArg (·.history.handed) hlane
        have hlast := congrArg (·.history.handed) hu
        exact hnext.symm.trans ((hhanded'.trans hhanded.symm).trans hlast.symm)

/-- A connection that stays open without getting a request through is closed by a sweep: when the
time for a request has gone by since the last reading of the clock before, however much arrives on
it, and when the time for input has, if nothing arrives. -/
theorem stalled_connections_closed (cfg : Config) (pool : Bool) (listenerFd notifyFd : ℕ)
    (before ls : List LoopStep) (T now : Ticks) (hpassed : ∀ l ∈ before, l.Passed T)
    (io t u : RequestIO) (hio : exec step (start cfg pool listenerFd notifyFd) before = some io)
    (hbefore : Guarded step Orderly (start cfg pool listenerFd notifyFd) before)
    (hls : Guarded step Orderly io ls) (ht : exec step io ls = some t)
    (hu : t.step (.sweep now) = some u) (fd : ℕ) (st : ConnState) (hslot : io.slot fd = some st)
    (hwaits : st.dispatching = false)
    (hquiet : Along step
      (fun t => fd ∈ t.openFds ∧ (t.history fd).handed = (io.history fd).handed) io ls)
    (hlate : 0 < cfg.requestTimeout ∧ T + cfg.requestTimeout < now ∨
      0 < cfg.readTimeout ∧ T + cfg.readTimeout < now ∧
        (t.history fd).received = (io.history fd).received) :
    fd ∉ u.openFds := by
  have hkept : io.Kept [] :=
    (along_of_guarded (fun _ _ _ hkept hok hs => Kept.preserved hkept hok hs)
      (kept_start cfg pool listenerFd notifyFd) hbefore).exec hio
  have hstamped : io.Stamped T :=
    (along_of_guarded (fun _ _ _ hstamped hl hs => Stamped.step hstamped hl hs)
      (fun _ _ hnone => by cases hnone) (guarded_of_mem hpassed _)).exec hio
  have hcfg : t.cfg = cfg := by
    have hkeeps : ∀ (u : RequestIO) (l : LoopStep) (v : RequestIO), u.cfg = cfg →
        u.step l = some v → v.cfg = cfg :=
      fun u l v hu hv => (congrArg Prod.fst (setup_step hv)).trans hu
    exact (along_of_invariant hkeeps ((along_of_invariant hkeeps rfl before).exec hio) ls).exec ht
  have hidle : io.flights [] fd = 0 := by
    have hledger := hkept.ledgers fd
    have hone := hledger.one
    have hne : io.flights [] fd ≠ 1 := by
      intro hflight
      rw [(hledger.filled st hslot).2.2 hflight] at hwaits
      cases hwaits
    omega
  have hstalled : (io.lane [] fd).Stalled T (io.history fd).received := by
    obtain ⟨htasks, hcompletions⟩ := lane_idle hidle
    have hst := hstamped fd st hslot
    exact ⟨htasks, hcompletions, List.prefix_rfl, st, hslot, hwaits, hst.start,
      fun _ => hst.lastActivity⟩
  obtain ⟨-, hend⟩ := stalled_along hkept hstalled hls hquiet ht
  obtain ⟨st', hst', hdispatching, hstart, hlast⟩ := hend.slot
  have hstale : stale t.cfg now st' = true := by
    unfold stale deadlineOver
    rw [hcfg, hdispatching, Bool.not_false, Bool.true_and, Bool.or_eq_true, Bool.and_eq_true,
      Bool.and_eq_true, decide_eq_true_eq, decide_eq_true_eq, decide_eq_true_eq, decide_eq_true_eq]
    rcases hlate with ⟨hlimit, hlate⟩ | ⟨hlimit, hlate, hreceived⟩
    · have hstart := hstart.2
      exact Or.inl ⟨hlimit, by linarith⟩
    · have hlast := hlast hreceived
      exact Or.inr ⟨hlimit, by linarith⟩
  have hfd : fd ∈ List.range t.pending.length := by
    rw [List.mem_range]
    by_contra hlen
    have hnone := Slots.get_eq_none_of_le (not_lt.mp hlen)
    cases hst'.symm.trans hnone
  cases stepped hu with
  | sweep ready => exact sweep_stale hfd hst' hstale

/-- A client that has connected at 1 sends a byte at the very end of the time for its request. -/
theorem stalled_connections_closed_trickle :
    let before : List LoopStep := [.wait [⟨3, true, false⟩],
      .event ⟨[⟨5, true, 1⟩], fun _ => ⟨1, {}⟩⟩, .sweep 1]
    let byte : ReadEnv := { now := 60*10^9, recvs := [.data (bytes "G") (60*10^9)] }
    let ls : List LoopStep := [.wait [⟨5, true, false⟩],
      .event ⟨[], fun _ => ⟨60*10^9, byte⟩⟩, .sweep (60*10^9), .wait []]
    ∃ t u, exec step (start {} true 3 4) (before ++ ls) = some t ∧
      t.step (.sweep (60*10^9 + 2)) = some u ∧ 5 ∈ t.openFds ∧ 5 ∉ u.openFds := by
  intro before byte ls
  have hfacts : ∃ io ∈ exec step (start {} true 3 4) before, ∃ t ∈ exec step io ls,
      ∃ u ∈ t.step (.sweep (60*10^9 + 2)), Guarded step Orderly io ls ∧
        io.slot 5 = some { start := 1, lastActivity := 1 } ∧ 5 ∈ t.openFds ∧
        Along step
          (fun t => 5 ∈ t.openFds ∧ (t.history 5).handed = (io.history 5).handed) io ls := by
    decide +kernel
  obtain ⟨io, hio, t, ht, u, hu, hls, hslot, hopen, hquiet⟩ := hfacts
  refine ⟨t, u, ?_, hu, hopen, ?_⟩
  · rw [exec_append, hio, Option.bind_some, ht]
  · exact stalled_connections_closed {} true 3 4 before ls 1 (60*10^9 + 2)
      (by simp [before, LoopStep.Passed, ReadEnv.Passed, Past]) io t u hio (by decide +kernel) hls
      ht hu 5 _ hslot rfl hquiet (Or.inl (by decide))

end RequestIO
end Vermell.Request
