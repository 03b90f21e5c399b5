import Vermell.Request.Inline

/-! What a run keeps of one connection, and when a property of it is kept by whole runs: no step
touches two connections at once, so it is enough to look at what the loop does to the one that it
has in hand. -/
namespace Vermell.Request
open Http Runs

/-- One connection: what passed through it, its slot, and what of it is in flight. -/
structure Lane where
  cfg : Config
  history : History
  slot : Option ConnState
  isOpen : Prop
  tasks : List Bytes
  completions : ℕ

def Lane.buffer (l : Lane) : Bytes := (l.slot.getD {}).buffer

namespace RequestIO

/-- The lane of one descriptor, with the completions that a drain still has to process. -/
def lane (io : RequestIO) (done : List Completion) (fd : ℕ) : Lane where
  cfg := io.cfg
  history := io.history fd
  slot := io.slot fd
  isOpen := fd ∈ io.openFds
  tasks := ((io.running ++ io.queue).filter (·.fd == fd)).map Task.raw
  completions := (io.completed ++ done).countP (·.fd == fd)

section
variable {io io' : RequestIO} {done done' : List Completion} {fd : ℕ}

theorem lane_congr (hcfg : io'.cfg = io.cfg)
    (hhistory : io'.history fd = io.history fd) (hslot : io'.slot fd = io.slot fd)
    (hopen : fd ∈ io'.openFds ↔ fd ∈ io.openFds)
    (htasks : (io'.running ++ io'.queue).filter (·.fd == fd) =
      (io.running ++ io.queue).filter (·.fd == fd))
    (hdone : (io'.completed ++ done').countP (·.fd == fd) =
      (io.completed ++ done).countP (·.fd == fd)) : io'.lane done' fd = io.lane done fd := by
  simp only [lane, hcfg, hhistory, hslot, hopen, htasks, hdone]

theorem lane_flights (io : RequestIO) (done : List Completion) (fd : ℕ) :
    (io.lane done fd).tasks.length + (io.lane done fd).completions = io.flights done fd := by
  simp only [lane, flights, inFlight, List.length_map, ← List.countP_eq_length_filter,
    List.countP_append]
  omega

theorem lane_idle (hidle : io.flights done fd = 0) :
    (io.lane done fd).tasks = [] ∧ (io.lane done fd).completions = 0 := by
  have hflights := io.lane_flights done fd
  exact ⟨List.length_eq_zero_iff.mp (by omega), by omega⟩

end

section
variable (io : RequestIO) {fd g : ℕ} (done : List Completion) (env : ReadEnv)

/-- A call on one descriptor leaves the lanes of the others alone. -/
theorem lane_handleReadable (hg : g ≠ fd) :
    (io.handleReadable fd env).lane done g = io.lane done g := by
  have hhistory : (io.handleReadable fd env).history g = io.history g := by
    rw [handleReadable, finishRead_history]
    exact Function.update_of_ne hg _ _
  cases hends : (io.readOutcome fd env).stop.ends env.accepted with
  | true =>
    obtain ⟨p, n, hist, heq, hp⟩ := io.handleReadable_ended fd env hends
    rw [heq] at hhistory ⊢
    refine lane_congr rfl hhistory ?_ (by simp [hg]) rfl rfl
    change p.get g = io.pending.get g
    rw [hp, if_neg hg]
  | false =>
    obtain ⟨p, armed, u, n, hist, heq, hp, -⟩ := io.handleReadable_kept fd env hends
    rw [heq] at hhistory ⊢
    refine lane_congr rfl hhistory ?_ Iff.rfl ?_ rfl
    · change p.get g = io.pending.get g
      rw [hp, if_neg hg]
    · have htasks : ((io.readOutcome fd env).stop.tasks fd).filter (·.fd == g) = [] := by
        rw [List.filter_eq_nil_iff]
        intro t ht
        rcases (io.readOutcome fd env).stop.tasks_cases fd with hnone | ⟨raw, st, -, hone⟩
        · rw [hnone] at ht
          cases ht
        · rw [hone] at ht
          obtain rfl := List.mem_singleton.mp ht
          simpa using Ne.symm hg
      simp only [List.filter_append, htasks, List.append_nil]

theorem lane_rearmed (hg : g ≠ fd) (now : Ticks) :
    (io.rearmed fd now).lane done g = io.lane done g := by
  obtain ⟨p, armed, heq, hp, -⟩ := io.rearmed_eq fd now
  rw [heq]
  refine lane_congr rfl rfl ?_ Iff.rfl rfl rfl
  change p.get g = io.pending.get g
  rw [hp, if_neg hg]

theorem lane_rearmConnection (hg : g ≠ fd) (now : Ticks) :
    (io.rearmConnection fd now env).lane done g = io.lane done g := by
  unfold rearmConnection
  simp only
  split_ifs
  · rw [lane_handleReadable _ _ _ hg, lane_rearmed _ _ hg]
  · exact lane_rearmed _ _ hg now

theorem lane_retire (hg : g ≠ fd) : (io.retire fd).lane done g = io.lane done g := by
  obtain ⟨p, heq, hp⟩ := io.retire_eq fd
  rw [heq]
  refine lane_congr rfl rfl ?_ (by simp [hg]) rfl rfl
  change p.get g = io.pending.get g
  rw [hp, if_neg hg]

theorem lane_acceptOne {a : Accepted} (hg : g ≠ a.fd) :
    (io.acceptOne a).lane done g = io.lane done g := by
  unfold acceptOne
  simp only
  split_ifs
  · exact lane_congr rfl (Function.update_of_ne hg _ _) rfl (by simp [closeFd, hg]) rfl rfl
  · exact lane_congr rfl (Function.update_of_ne hg _ _) rfl (by simp [closeFd, hg]) rfl rfl
  · refine lane_congr rfl (Function.update_of_ne hg _ _) ?_ (by simp [setSlot, hg]) rfl rfl
    change (io.pending.put a.fd _).get g = io.pending.get g
    rw [Slots.get_put, if_neg hg]

theorem lane_take {io' : RequestIO} (hs : io.take = some io') :
    io'.lane done g = io.lane done g := by
  obtain ⟨t, rest, hqueue, rfl⟩ := take_eq_some hs
  refine lane_congr rfl rfl rfl Iff.rfl ?_ rfl
  simp [hqueue]

theorem filter_eraseIdx {tasks : List Task} {i : ℕ} {t : Task} (ht : tasks[i]? = some t)
    {p : Task → Bool} (hp : p t = false) : (tasks.eraseIdx i).filter p = tasks.filter p := by
  obtain ⟨hi, rfl⟩ := List.getElem?_eq_some_iff.mp ht
  conv_rhs => rw [← List.take_append_drop i tasks, List.drop_eq_getElem_cons hi]
  rw [List.eraseIdx_eq_take_drop_succ, List.filter_append, List.filter_append,
    List.filter_cons_of_neg (by simp [hp])]

/-- A task that is done is one of its own connection. -/
theorem lane_serveRequest {i : ℕ} {handler : Handler} {t : Task} {io' : RequestIO}
    (ht : io.running[i]? = some t) (hs : io.serveRequest i handler = some io') (hg : g ≠ t.fd) :
    io'.lane done g = io.lane done g := by
  obtain ⟨t', ht', rfl⟩ := Option.map_eq_some_iff.mp hs
  obtain rfl : t' = t := Option.some.inj (ht'.symm.trans ht)
  have hfilter : (io.running.eraseIdx i ++ io.queue).filter (·.fd == g) =
      (io.running ++ io.queue).filter (·.fd == g) := by
    rw [List.filter_append, List.filter_append, filter_eraseIdx ht (by simp [Ne.symm hg])]
  cases handler with
  | returns keepAlive =>
    refine lane_congr rfl (Function.update_of_ne hg _ _) rfl Iff.rfl hfilter ?_
    simp [List.countP_append, Ne.symm hg]
  | escapes => exact lane_congr rfl rfl rfl Iff.rfl hfilter rfl

/-- What a call leaves open has the task and the slot of its outcome. -/
theorem lane_open {io : RequestIO} {done : List Completion} {env : ReadEnv}
    (hidle : io.flights done fd = 0)
    (hopen : fd ∈ (io.handleReadable fd env).openFds) :
    ((io.handleReadable fd env).lane done fd).tasks =
        ((io.readOutcome fd env).stop.tasks fd).map Task.raw ∧
      (io.handleReadable fd env).slot fd = (io.readOutcome fd env).stop.slot? := by
  cases hends : (io.readOutcome fd env).stop.ends env.accepted with
  | true =>
    obtain ⟨p, n, hist, heq, -⟩ := io.handleReadable_ended fd env hends
    rw [heq] at hopen
    exact absurd hopen (Finset.notMem_erase fd _)
  | false =>
    obtain ⟨p, armed, u, n, hist, heq, hp, -⟩ := io.handleReadable_kept fd env hends
    have hown : ((io.readOutcome fd env).stop.tasks fd).filter (·.fd == fd) =
        (io.readOutcome fd env).stop.tasks fd := by
      rw [List.filter_eq_self]
      intro t ht
      rcases (io.readOutcome fd env).stop.tasks_cases fd with hnone | ⟨raw, st, -, hone⟩
      · rw [hnone] at ht
        cases ht
      · rw [hone] at ht
        obtain rfl := List.mem_singleton.mp ht
        exact beq_self_eq_true fd
    have hnone := (lane_idle hidle).1
    rw [heq]
    constructor
    · simp only [lane, ← List.append_assoc, List.filter_append, List.map_append, hown] at hnone ⊢
      rw [hnone, List.nil_append]
    · change p.get fd = _
      rw [hp, if_pos rfl]

end
end RequestIO

/-- What it takes of a property that every connection has between the steps of a run. `Own` is what
is left of it while the loop has the connection in hand. -/
structure LaneRule (allowed : ReadEnv → Prop) (lossy : Prop) (Own Rest : Lane → Prop) : Prop where
  own {l : Lane} (h : Rest l) (n : ℕ) : Own { l with completions := n }
  read {io : RequestIO} {done : List Completion} {fd : ℕ} {env : ReadEnv} (held : io.Held done fd)
    (henv : allowed env) (h : Own (io.lane done fd)) :
    Rest ((io.handleReadable fd env).lane done fd)
  armed {l : Lane} {st : ConnState} (h : Own l) (hbuffer : st.buffer = l.buffer) :
    Own { l with slot := some st }
  drained {l : Lane} (h : Own l) (hbuffer : l.buffer = []) : Rest l
  closed {l l' : Lane} (h : Own l) (hhistory : l'.history = l.history) (hclosed : ¬ l'.isOpen) :
    Rest l'
  fresh {l : Lane} (hhistory : l.history = {}) (htasks : l.tasks = [])
    (hbuffer : l.isOpen → l.buffer = []) : Rest l
  served {l : Lane} {raw : Bytes} (h : Rest l) (hopen : l.isOpen) (htasks : l.tasks = [raw]) :
    Rest { l with
      history := { l.history with written := l.history.written ++ [raw] }
      tasks := []
      completions := l.completions + 1 }
  lost {l : Lane} {raw : Bytes} (hlossy : lossy) (h : Rest l) (hopen : l.isOpen)
    (htasks : l.tasks = [raw]) : Rest { l with tasks := [] }

namespace RequestIO

/-- The books are kept, and every connection has the property. -/
structure Ruled (Rest : Lane → Prop) (io : RequestIO) (done : List Completion) : Prop where
  kept : io.Kept done
  lanes : ∀ fd, Rest (io.lane done fd)

/-- The loop has taken `fd` in hand; the others have the property. -/
structure InHand (Own Rest : Lane → Prop) (io : RequestIO) (done : List Completion) (fd : ℕ) :
    Prop where
  held : io.Held done fd
  others : ∀ g ≠ fd, Rest (io.lane done g)
  own : Own (io.lane done fd)

section
variable {allowed : ReadEnv → Prop} {lossy : Prop} {Own Rest : Lane → Prop}
  (rule : LaneRule allowed lossy Own Rest) {io : RequestIO} {done : List Completion} {fd : ℕ}

include rule

theorem InHand.handleReadable (h : InHand Own Rest io done fd) {env : ReadEnv}
    (henv : allowed env) : Ruled Rest (io.handleReadable fd env) done := by
  refine ⟨h.held.handleReadable env, fun g => ?_⟩
  by_cases hg : g = fd
  · subst hg
    exact rule.read h.held henv h.own
  · rw [lane_handleReadable _ _ _ hg]
    exact h.others g hg

theorem InHand.retire (h : InHand Own Rest io done fd) : Ruled Rest (io.retire fd) done := by
  refine ⟨h.held.retire, fun g => ?_⟩
  by_cases hg : g = fd
  · subst hg
    exact rule.closed h.own rfl (Finset.notMem_erase g _)
  · rw [lane_retire _ _ hg]
    exact h.others g hg

theorem InHand.reject (h : InHand Own Rest io done fd) : Ruled Rest (io.reject fd) done :=
  ⟨h.held.reject, (h.retire rule).lanes⟩

/-- The slot behind `RearmConnection` holds the bytes that it held. -/
theorem InHand.own_rearmed (h : InHand Own Rest io done fd) (now : Ticks) :
    Own ((io.rearmed fd now).lane done fd) := by
  have hslot := io.slot_rearmed fd now
  obtain ⟨p, armed, heq, -⟩ := io.rearmed_eq fd now
  rw [heq] at hslot ⊢
  have hlane : RequestIO.lane { io with pending := p, armed := armed } done fd =
      { io.lane done fd with slot := some { io.pendingSlot fd with
        start := now, lastActivity := now, expected := 0, headKnown := false,
        dispatching := false } } := by
    simp only [lane, hslot]
  rw [hlane]
  exact rule.armed h.own rfl

theorem InHand.rearmed (h : InHand Own Rest io done fd) (now : Ticks) :
    InHand Own Rest (io.rearmed fd now) done fd := by
  refine ⟨h.held.rearmed now, fun g hg => ?_, h.own_rearmed rule now⟩
  rw [lane_rearmed _ _ hg]
  exact h.others g hg

/-- A connection that is armed again waits, or goes on with the bytes behind its request. -/
theorem InHand.rearmConnection (h : InHand Own Rest io done fd) (now : Ticks) {env : ReadEnv}
    (henv : allowed env) : Ruled Rest (io.rearmConnection fd now env) done := by
  unfold RequestIO.rearmConnection
  simp only
  split_ifs with hbuffer
  · exact (h.rearmed rule now).handleReadable rule henv
  · refine ⟨h.held.rearmed_kept now, fun g => ?_⟩
    by_cases hg : g = fd
    · subst hg
      exact rule.drained (h.own_rearmed rule now) (not_not.mp hbuffer)
    · rw [lane_rearmed _ _ hg]
      exact h.others g hg

theorem Ruled.hold (h : Ruled Rest io done) (hopen : fd ∈ io.openFds)
    (hidle : io.flights done fd = 0) (hunreported : ∀ e ∈ io.ready, e.fd ≠ fd) :
    InHand Own Rest io done fd :=
  ⟨h.kept.hold hopen hidle hunreported, fun g _ => h.lanes g, rule.own (h.lanes fd) _⟩

theorem Ruled.holdCompletion {c : Completion} (h : Ruled Rest io (c :: done)) :
    InHand Own Rest io done c.fd := by
  refine ⟨h.kept.holdCompletion, fun g hg => ?_, rule.own (h.lanes c.fd) _⟩
  have hlane : io.lane done g = io.lane (c :: done) g := by
    apply lane_congr rfl rfl rfl Iff.rfl rfl
    simp [List.countP_append, Ne.symm hg]
  exact hlane ▸ h.lanes g

omit rule in
/-- Nothing that concerns a connection has changed. -/
theorem Ruled.congr (h : Ruled Rest io done) {io' : RequestIO} {done' : List Completion}
    (hkept : io'.Kept done') (hlane : ∀ fd, io'.lane done' fd = io.lane done fd) :
    Ruled Rest io' done' :=
  ⟨hkept, fun fd => hlane fd ▸ h.lanes fd⟩

theorem Ruled.drainEach (h : Ruled Rest io done) {envs : ℕ → DrainEnv}
    (henvs : ∀ k, allowed (envs k).read) : Ruled Rest (drainEach envs done io) [] := by
  induction done generalizing io envs with
  | nil => exact h
  | cons c rest ih =>
    apply ih _ fun k => henvs (k + 1)
    unfold drainOne
    split_ifs
    · exact (h.holdCompletion rule).rearmConnection rule _ (henvs 0)
    · exact (h.holdCompletion rule).retire rule

theorem Ruled.drainCompletions (h : Ruled Rest io []) {envs : ℕ → DrainEnv}
    (henvs : ∀ k, allowed (envs k).read) : Ruled Rest (io.drainCompletions envs) [] := by
  apply Ruled.drainEach rule _ henvs
  apply h.congr h.kept.swap
  intro fd
  apply lane_congr rfl rfl rfl Iff.rfl rfl
  simp

theorem Ruled.acceptOne (h : Ruled Rest io []) {a : Accepted} (hfd : io.unused a.fd = true)
    (hphase : io.phase ≠ .down) : Ruled Rest (io.acceptOne a) [] := by
  have hclosed : a.fd ∉ io.openFds := by
    simp only [unused, Bool.and_eq_true, decide_eq_true_eq] at hfd
    exact hfd.1.1.1
  have hidle := (lane_idle ((h.kept.ledgers a.fd).closed hclosed).1).1
  refine ⟨h.kept.acceptOne hfd hphase, fun g => ?_⟩
  by_cases hg : g = a.fd
  · subst hg
    unfold RequestIO.acceptOne
    simp only
    split_ifs
    · exact rule.fresh (Function.update_self ..) hidle fun hopen =>
        absurd hopen (Finset.notMem_erase a.fd _)
    · exact rule.fresh (Function.update_self ..) hidle fun hopen =>
        absurd hopen (Finset.notMem_erase a.fd _)
    · refine rule.fresh (Function.update_self ..) hidle fun _ => ?_
      simp [Lane.buffer, lane, slot, setSlot, Slots.get_put]
  · exact lane_acceptOne io [] hg ▸ h.lanes g

theorem Ruled.acceptPending (h : Ruled Rest io []) (hphase : io.phase ≠ .down)
    {accs : List Accepted} {io' : RequestIO} (ha : io.acceptPending accs = some io') :
    Ruled Rest io' [] := by
  induction accs generalizing io with
  | nil =>
    cases ha
    exact h
  | cons a rest ih =>
    unfold RequestIO.acceptPending at ha
    split_ifs at ha with hfd
    apply ih (h.acceptOne rule hfd hphase) _ ha
    rwa [acceptOne_phase]

/-- An event with a hangup ends a connection that has nothing dispatched. -/
theorem InHand.dispatchClient {e : Event} {env : ReadEnv} (h : InHand Own Rest io [] e.fd)
    (hruled : Ruled Rest io []) (henv : allowed env)
    (htail : io.pool = true → e.readable = true → e.hangup = true → env.accepted = true →
      ¬ io.LeavesTail e.fd env) : Ruled Rest (io.dispatchClient e env) [] := by
  unfold RequestIO.dispatchClient
  cases hreadable : e.readable with
  | true =>
    have hread := h.handleReadable rule henv
    cases hhangup : e.hangup with
    | true =>
      simp only [if_true]
      split_ifs with hunwinding hpending
      · exact hread
      · obtain ⟨hopen, hflights, hready⟩ := io.handleReadable_quiet h.held.sound
          (Option.ne_none_iff_isSome.mpr hpending)
          fun hpool haccepted => htail hpool hreadable hhangup haccepted
        apply InHand.reject rule
        apply hread.hold rule
        · rw [hopen]
          exact h.held.isOpen
        · rw [hflights]
          exact h.held.idle
        · rw [hready]
          exact h.held.unreported
      · exact hread
    | false => simpa using hread
  | false =>
    simp only [Bool.false_eq_true, if_false]
    split_ifs
    · exact hruled
    · exact h.reject rule
    · exact hruled
    · exact hruled

omit rule in
/-- A shorter batch and another phase concern no connection. -/
theorem Ruled.rest (h : Ruled Rest io []) {events : List Event} {phase : Phase} {u : Bool}
    (hsub : events.Sublist io.ready) (hquiet : phase ≠ .dispatching → events = [])
    (hdown : phase ≠ .down) :
    Ruled Rest { io with ready := events, phase := phase, unwinding := u } [] :=
  h.congr (h.kept.rest hsub hquiet hdown) fun _ => rfl

omit rule in
theorem Ruled.unwind (h : Ruled Rest io []) : Ruled Rest io.unwind [] := by
  apply h.congr h.kept.unwind
  intro fd
  unfold RequestIO.unwind
  split_ifs <;> rfl

theorem Ruled.dispatchEvent (h : Ruled Rest io []) {e : Event} {rest : List Event}
    {env : EventEnv} (hready : io.ready = e :: rest) (hok : Orderly io (.event env))
    (henvs : ∀ k, allowed (env.drains k).read) {io' : RequestIO}
    (hs : RequestIO.dispatchEvent { io with ready := rest } e env = some io') :
    Ruled Rest io' [] := by
  have hphase : io.phase = .dispatching := by
    by_contra hne
    rw [h.kept.totals.quiet hne] at hready
    cases hready
  have hnext : Ruled Rest { io with ready := rest } [] := by
    refine h.rest ?_ (absurd hphase) (by simp [hphase])
    rw [hready]
    exact List.sublist_cons_self e rest
  unfold RequestIO.dispatchEvent at hs
  split_ifs at hs with hnotify hlistener
  · cases hs
    exact hnext.drainCompletions rule henvs
  · apply hnext.acceptPending rule _ hs
    change io.phase ≠ .down
    simp [hphase]
  · cases hs
    obtain ⟨hopen, hidle⟩ :=
      (h.kept.ledgers e.fd).event ⟨e, by simp [hready], rfl⟩ hnotify hlistener
    have hbatch := h.kept.totals.batch
    rw [hready, List.map_cons, List.nodup_cons] at hbatch
    have hinHand : InHand Own Rest { io with ready := rest } [] e.fd := by
      refine hnext.hold rule hopen hidle ?_
      intro e' he' hfd
      exact hbatch.1 (hfd ▸ List.mem_map_of_mem he')
    apply hinHand.dispatchClient rule hnext (henvs 0)
    intro hpool hreadable hhangup haccepted
    exact hok e (by simp [hready]) hpool hopen hreadable hhangup haccepted

theorem Ruled.sweepSlot (h : Ruled Rest io []) (hready : io.ready = []) (now : Ticks) (fd : ℕ) :
    Ruled Rest (io.sweepSlot now fd) [] := by
  have hkept := (h.kept.sweepSlot hready now fd).1
  unfold RequestIO.sweepSlot at hkept ⊢
  cases hslot : io.slot fd with
  | none => exact h
  | some st =>
    rw [hslot] at hkept
    simp only at hkept ⊢
    split_ifs at hkept ⊢ with hstale
    · refine ⟨hkept, fun g => ?_⟩
      by_cases hg : g = fd
      · subst hg
        exact rule.closed (rule.own (h.lanes g) 0) rfl (Finset.notMem_erase g _)
      · exact lane_retire io [] hg ▸ h.lanes g
    · exact h

theorem Ruled.sweepStale (h : Ruled Rest io []) (hready : io.ready = []) (now : Ticks) :
    Ruled Rest (io.sweepStale now) [] ∧ (io.sweepStale now).ready = [] :=
  List.foldlRecOn (motive := fun io => Ruled Rest io [] ∧ io.ready = []) _ _ ⟨h, hready⟩
    fun _ hio fd _ =>
      ⟨hio.1.sweepSlot rule hio.2 now fd, (hio.1.kept.sweepSlot hio.2 now fd).2⟩

omit rule in
theorem Ruled.take (h : Ruled Rest io []) {io' : RequestIO} (hs : io.take = some io') :
    Ruled Rest io' [] := by
  exact h.congr (h.kept.take hs) fun fd => lane_take io [] hs

omit rule in
/-- A task that runs is the only one of its connection, which is open. -/
theorem Kept.running_alone (h : io.Kept []) {i : ℕ} {t : Task} (ht : io.running[i]? = some t) :
    t.fd ∈ io.openFds ∧ (io.lane [] t.fd).tasks = [t.raw] ∧
      (io.running.eraseIdx i ++ io.queue).filter (·.fd == t.fd) = [] := by
  have hledger := h.ledgers t.fd
  have hflights := io.lane_flights [] t.fd
  have hone := hledger.one
  have hmem : t.raw ∈ (io.lane [] t.fd).tasks := by
    apply List.mem_map_of_mem
    simp [List.mem_of_getElem? ht]
  have hpos := List.length_pos_of_mem hmem
  have hlen : (io.lane [] t.fd).tasks.length = 1 := by omega
  refine ⟨hledger.owned (by omega), ?_, ?_⟩
  · obtain ⟨raw, hraw⟩ := List.length_eq_one_iff.mp hlen
    rw [hraw] at hmem ⊢
    rw [List.mem_singleton.mp hmem]
  · have herase := countP_eraseIdx ht t.fd
    rw [if_pos rfl] at herase
    simp only [lane, List.length_map, ← List.countP_eq_length_filter, List.countP_append] at hlen
    rw [← List.length_eq_zero_iff, ← List.countP_eq_length_filter, List.countP_append]
    omega

/-- The response of a running task is the next one of its connection. -/
theorem Ruled.serveRequest (h : Ruled Rest io []) {i : ℕ} {handler : Handler} {io' : RequestIO}
    (hok : Orderly io (.finish i handler)) (hlossy : handler = .escapes → lossy)
    (hs : io.serveRequest i handler = some io') : Ruled Rest io' [] := by
  refine ⟨h.kept.serveRequest hok hs, fun g => ?_⟩
  obtain ⟨t, ht, heq⟩ := Option.map_eq_some_iff.mp hs
  obtain ⟨hopen, htasks, hnone⟩ := h.kept.running_alone ht
  by_cases hg : g = t.fd
  · subst hg heq
    cases handler with
    | returns keepAlive =>
      have hserved := rule.served (h.lanes t.fd) hopen htasks
      convert hserved using 1
      simp only [lane, Function.update_self, hnone, List.map_nil, List.append_nil,
        List.countP_append, List.countP_cons, List.countP_nil, beq_self_eq_true, if_true,
        Nat.zero_add]
      rfl
    | escapes =>
      have hlost := rule.lost (hlossy rfl) (h.lanes t.fd) hopen htasks
      convert hlost using 1
      simp only [lane, hnone, List.map_nil]
      rfl
  · exact lane_serveRequest io [] ht hs hg ▸ h.lanes g

omit rule in
theorem history_shutdown (io : RequestIO) : io.shutdown.history = io.history := by
  unfold RequestIO.shutdown
  simp only
  apply List.foldlRecOn (motive := fun io' : RequestIO => io'.history = io.history)
  · exact List.foldlRecOn (motive := fun io' : RequestIO => io'.history = io.history) _ _ rfl
      fun _ h _ _ => h
  · intro io' h fd _
    unfold closeSlot
    split_ifs
    · exact h
    · exact h

/-- Behind the shutdown every connection is closed. -/
theorem Ruled.shutdown (h : Ruled Rest io []) (hqueue : io.queue = []) (hrunning : io.running = [])
    (hready : io.ready = []) : Ruled Rest { io.shutdown with phase := .down } [] := by
  have hkept := h.kept.shutdown hqueue hrunning hready
  refine ⟨hkept, fun fd => rule.closed (rule.own (h.lanes fd) 0) ?_ ?_⟩
  · exact congrFun io.history_shutdown fd
  · have hnone := hkept.totals.down rfl
    change fd ∉ io.shutdown.openFds
    change io.shutdown.openFds = ∅ at hnone
    simp [hnone]

omit rule in
/-- What a step may meet: reads that are allowed, and no handler that loses its task unless the
rule takes that. -/
def Allows (allowed : ReadEnv → Prop) (lossy : Prop) : LoopStep → Prop
  | .event env => ∀ k, allowed (env.drains k).read
  | .finish _ handler => handler = .escapes → lossy
  | _ => True

theorem Ruled.preserved {io' : RequestIO} (h : Ruled Rest io []) {l : LoopStep}
    (hok : Orderly io l ∧ Allows allowed lossy l) (hs : io.step l = some io') :
    Ruled Rest io' [] := by
  obtain ⟨hok, hallows⟩ := hok
  cases stepped hs with
  | wait polling nodup reported =>
    exact h.congr (h.kept.wait nodup reported hok) fun _ => rfl
  | event ready dispatched => exact (h.dispatchEvent rule ready hok hallows dispatched).unwind
  | sweep ready =>
    obtain ⟨hswept, hready⟩ := h.sweepStale rule ready _
    exact hswept.rest (List.Sublist.refl _) (fun _ => hready) (by decide)
  | take taken => exact h.take taken
  | finish served => exact h.serveRequest rule hok hallows served
  | stop polling =>
    exact h.rest (List.Sublist.refl _) (fun _ => h.kept.totals.quiet (by simp [polling]))
      (by decide)
  | shutdown stopping queue running =>
    exact h.shutdown rule queue running (h.kept.totals.quiet (by simp [stopping]))

/-- A rule holds of every connection along every run whose steps meet the conditions. -/
theorem ruled_along (cfg : Config) (pool : Bool) (listenerFd notifyFd : ℕ) {ls : List LoopStep}
    (hallows : ∀ l ∈ ls, Allows allowed lossy l)
    (horderly : Guarded step Orderly (start cfg pool listenerFd notifyFd) ls) :
    Along step (fun io => Ruled Rest io []) (start cfg pool listenerFd notifyFd) ls := by
  have hstart : Ruled Rest (start cfg pool listenerFd notifyFd) [] :=
    ⟨kept_start cfg pool listenerFd notifyFd,
      fun _ => rule.fresh rfl rfl fun hopen => absurd hopen (Finset.notMem_empty _)⟩
  exact along_of_guarded (fun _ _ _ h hok hs => h.preserved rule hok hs) hstart
    (horderly.and (guarded_of_mem hallows _))

end
end RequestIO
end Vermell.Request
