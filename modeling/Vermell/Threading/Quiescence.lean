import Vermell.Threading.Alert

/-! A pool that is left alone comes to rest, and then every accepted task was run, nobody waits in
vain, and `kill` has returned if it was called. -/
namespace Vermell.Threading
open Runs Threads

/-- The steps of the threads that are inside the pool: no new call, and no waking without a
notification. -/
def MonitorStep.inside {W P T : Type*} : MonitorStep W P T → Bool
  | .call _ _ => false
  | .tryAddTask _ _ => false
  | .kill => false
  | .spuriousWorker _ => false
  | .spuriousProducer _ => false
  | _ => true

/-- The steps that a worker has before it, but for the tasks it takes. -/
def WorkerState.weight {T : Type*} : WorkerState T → ℕ
  | .ready => 2
  | .asleep => 0
  | .running _ => 3
  | .exited => 0

/-- The steps of a producer, with those of the task it brings and of the worker it wakes. -/
def ProducerState.weight {T : Type*} : ProducerState T → ℕ
  | .idle => 0
  | .adding _ => 7
  | .asleep _ => 6
  | .notifying => 3

/-- The steps of `kill`, with those of the threads it wakes. -/
def Killer.weight (workers producers : ℕ) : Killer → ℕ
  | .idle => 0
  | .stopped => 2*workers + producers + 3
  | .wokeWorkers => producers + 2
  | .joining => 1
  | .returned => 0

namespace Monitor
variable {W P T : Type*} [DecidableEq W] [DecidableEq P] [Fintype W] [Fintype P]

/-- A bound on the steps that are left. -/
def work (s : Monitor W P T) : ℕ :=
  3*s.queue.length + ∑ w, (s.worker w).weight + ∑ p, (s.producer p).weight +
    s.killer.weight (Fintype.card W) (Fintype.card P)

/-- Nobody inside the pool can move. -/
def AtRest (s : Monitor W P T) : Prop := ∀ l : MonitorStep W P T, l.inside = true → s.step l = none

section
variable {s t : Monitor W P T}

omit [DecidableEq W] in
theorem work_setProducer (s : Monitor W P T) (p : P) (state : ProducerState T) :
    (s.setProducer p state).work + (s.producer p).weight = s.work + state.weight := by
  have hsum := sum_update s.producer p state ProducerState.weight
  unfold work setProducer
  simp only
  omega

omit [DecidableEq P] in
theorem work_setWorker (s : Monitor W P T) (w : W) (state : WorkerState T) :
    (s.setWorker w state).work + (s.worker w).weight = s.work + state.weight := by
  have hsum := sum_update s.worker w state WorkerState.weight
  unfold work setWorker
  simp only
  omega

omit [DecidableEq W] [DecidableEq P] in
theorem work_emplace (s : Monitor W P T) (task : T) : (s.emplace task).work = s.work + 3 := by
  unfold work emplace
  simp only [List.length_append, List.length_singleton]
  omega

omit [DecidableEq P] in
theorem work_dequeue (s : Monitor W P T) {w : W} {task : T} {queue : List T}
    (hw : s.worker w = .ready) (hqueue : s.queue = task :: queue) :
    (s.dequeue w task queue).work + 2 = s.work := by
  have hsum := sum_update s.worker w (.running task) WorkerState.weight
  have hready : (s.worker w).weight = 2 := by rw [hw]; rfl
  have hrunning : (WorkerState.running task).weight = 3 := rfl
  unfold work dequeue
  rw [hqueue, List.length_cons]
  simp only
  omega

omit [DecidableEq W] [DecidableEq P] [Fintype P] in
/-- Waking all workers costs at most what `kill` has set aside for it. -/
theorem sum_weight_wake_workers (s : Monitor W P T) :
    ∑ w, (s.worker w).wake.weight ≤ ∑ w, (s.worker w).weight + 2*Fintype.card W := by
  have hone (w : W) : (s.worker w).wake.weight ≤ (s.worker w).weight + 2 := by
    cases s.worker w <;> simp [WorkerState.wake, WorkerState.weight]
  calc ∑ w, (s.worker w).wake.weight
      ≤ ∑ w, ((s.worker w).weight + 2) := Finset.sum_le_sum fun w _ => hone w
    _ = ∑ w, (s.worker w).weight + 2*Fintype.card W := by
      rw [Finset.sum_add_distrib, Finset.sum_const, Finset.card_univ, smul_eq_mul, mul_comm]

omit [DecidableEq W] [DecidableEq P] [Fintype W] in
theorem sum_weight_wake_producers (s : Monitor W P T) :
    ∑ p, (s.producer p).wake.weight ≤ ∑ p, (s.producer p).weight + Fintype.card P := by
  have hone (p : P) : (s.producer p).wake.weight ≤ (s.producer p).weight + 1 := by
    cases s.producer p <;> simp [ProducerState.wake, ProducerState.weight]
  calc ∑ p, (s.producer p).wake.weight
      ≤ ∑ p, ((s.producer p).weight + 1) := Finset.sum_le_sum fun p _ => hone p
    _ = ∑ p, (s.producer p).weight + Fintype.card P := by
      rw [Finset.sum_add_distrib, Finset.sum_const, Finset.card_univ, smul_eq_mul, mul_one]

/-- Every step inside the pool lowers the work that is left. -/
theorem work_lt {l : MonitorStep W P T} (hl : l.inside = true) (ht : s.step l = some t) :
    t.work < s.work := by
  cases stepped ht with
  | call idle => cases hl
  | tryRefused => cases hl
  | tryAdded idle stop room => cases hl
  | killed free => cases hl
  | wokenWorker asleep => cases hl
  | wokenProducer asleep => cases hl
  | @refused p task adding stop =>
    have hwork := s.work_setProducer p .idle
    have hold : (s.producer p).weight = 7 := by rw [adding]; rfl
    have hnew : (ProducerState.idle : ProducerState T).weight = 0 := rfl
    omega
  | @added p task adding stop room =>
    have hwork := (s.emplace task).work_setProducer p .notifying
    have hplaced := s.work_emplace task
    have hold : ((s.emplace task).producer p).weight = 7 := by
      change (s.producer p).weight = 7
      rw [adding]
      rfl
    have hnew : (ProducerState.notifying : ProducerState T).weight = 3 := rfl
    omega
  | @waits p task adding stop full =>
    have hwork := s.work_setProducer p (.asleep task)
    have hold : (s.producer p).weight = 7 := by rw [adding]; rfl
    have hnew : (ProducerState.asleep task).weight = 6 := rfl
    omega
  | @notified p w notifying asleep =>
    have hwork := s.work_setProducer p .idle
    have hwoken := (s.setProducer p .idle).work_setWorker w .ready
    have hold : (s.producer p).weight = 3 := by rw [notifying]; rfl
    have hidle : (ProducerState.idle : ProducerState T).weight = 0 := rfl
    have hasleep : ((s.setProducer p .idle).worker w).weight = 0 := by
      change (s.worker w).weight = 0
      rw [asleep]
      rfl
    have hready : (WorkerState.ready : WorkerState T).weight = 2 := rfl
    omega
  | @unheard p notifying awake =>
    have hwork := s.work_setProducer p .idle
    have hold : (s.producer p).weight = 3 := by rw [notifying]; rfl
    have hnew : (ProducerState.idle : ProducerState T).weight = 0 := rfl
    omega
  | @left w ready stop queue =>
    have hwork := s.work_setWorker w .exited
    have hold : (s.worker w).weight = 2 := by rw [ready]; rfl
    have hnew : (WorkerState.exited : WorkerState T).weight = 0 := rfl
    omega
  | @sleeps w ready stop queue =>
    have hwork := s.work_setWorker w .asleep
    have hold : (s.worker w).weight = 2 := by rw [ready]; rfl
    have hnew : (WorkerState.asleep : WorkerState T).weight = 0 := rfl
    omega
  | @taken w task waiting queue p ready front asleep =>
    have hwork := (s.dequeue w task queue).work_setProducer p (.adding waiting)
    have htaken := s.work_dequeue ready front
    have hold : ((s.dequeue w task queue).producer p).weight = 6 := by
      change (s.producer p).weight = 6
      rw [asleep]
      rfl
    have hnew : (ProducerState.adding waiting).weight = 7 := rfl
    omega
  | takenUnheard ready front awake =>
    have htaken := s.work_dequeue ready front
    omega
  | @finished w task outcome running =>
    have hwork := s.work_setWorker w .ready
    have hold : (s.worker w).weight = 3 := by rw [running]; rfl
    have hnew : (WorkerState.ready : WorkerState T).weight = 2 := rfl
    change (s.setWorker w .ready).work < s.work
    omega
  | wokeWorkers killer =>
    have hwake := s.sum_weight_wake_workers
    unfold work
    simp only [killer, Killer.weight]
    omega
  | wokeProducers killer =>
    have hwake := s.sum_weight_wake_producers
    unfold work
    simp only [killer, Killer.weight]
    omega
  | joined killer exited =>
    unfold work
    simp only [killer, Killer.weight]
    omega

/-- A worker that is up can move, one at its task can end it. -/
theorem AtRest.worker (h : s.AtRest) (w : W) : s.worker w = .asleep ∨ s.worker w = .exited := by
  cases hw : s.worker w with
  | ready =>
    exfalso
    cases hqueue : s.queue with
    | nil =>
      have hstuck := h (.take w none) rfl
      simp only [step, hw, take, hqueue] at hstuck
      split_ifs at hstuck
      simp_all
    | cons task queue =>
      by_cases hp : ∃ p, (s.producer p).isAsleep = true
      · obtain ⟨p, hp⟩ := hp
        have hstuck := h (.take w (some p)) rfl
        simp [step, hw, take, hqueue, notifyNotFull, dequeue, hp] at hstuck
      · have hstuck := h (.take w none) rfl
        simp [step, hw, take, hqueue, notifyNotFull, dequeue, hp] at hstuck
  | asleep => exact Or.inl rfl
  | running task =>
    have hstuck := h (.finish w .returns) rfl
    simp [step, hw] at hstuck
  | exited => exact Or.inr rfl

/-- A producer with a notification or a call on its way can move. -/
theorem AtRest.producer (h : s.AtRest) (p : P) :
    s.producer p = .idle ∨ (s.producer p).isAsleep = true := by
  cases hp : s.producer p with
  | idle => exact Or.inl rfl
  | adding task =>
    have hstuck := h (.add p) rfl
    simp [step, hp] at hstuck
  | asleep task => exact Or.inr rfl
  | notifying =>
    exfalso
    by_cases hw : ∃ w, (s.worker w).isAsleep = true
    · obtain ⟨w, hw⟩ := hw
      have hstuck := h (.notify p (some w)) rfl
      simp [step, hp, notifyNotEmpty, setProducer, hw] at hstuck
    · have hstuck := h (.notify p none) rfl
      simp [step, hp, notifyNotEmpty, setProducer, hw] at hstuck

theorem AtRest.sum_attends (h : s.AtRest) : ∑ w, (s.worker w).attends = 0 := by
  apply Finset.sum_eq_zero
  intro w _
  rcases h.worker w with hw | hw
  · rw [hw]
    rfl
  · rw [hw]
    rfl

/-- A count that leaves out the idle and the sleeping producers. -/
theorem AtRest.sum_producers (h : s.AtRest) {count : ProducerState T → ℕ} (hidle : count .idle = 0)
    (hasleep : ∀ task, count (.asleep task) = 0) : ∑ p, count (s.producer p) = 0 := by
  apply Finset.sum_eq_zero
  intro p _
  rcases h.producer p with hp | hp
  · rw [hp, hidle]
  · obtain ⟨task, hp⟩ := isAsleep_producer_iff.mp hp
    rw [hp, hasleep]

omit [DecidableEq W] [DecidableEq P] [Fintype P] in
/-- A worker leaves behind `stop_`, from an empty queue. -/
theorem stopped_of_exited (hsound : s.abs.Sound) {w : W} (hw : s.worker w = .exited) :
    s.stop = true ∧ s.queue = [] := by
  apply hsound.drained w
  simp [abs, hw, WorkerState.phase]

/-- At rest a worker waits for work, or has left because of `kill`. -/
theorem AtRest.waits_or_left (h : s.AtRest) (hsound : s.abs.Sound) (w : W) :
    s.worker w = .asleep ∨ s.stop = true ∧ s.worker w = .exited :=
  (h.worker w).imp_right fun hw => ⟨(stopped_of_exited hsound hw).1, hw⟩

/-- At rest the queue is empty, and behind `stop_` all workers have left and `kill` has
returned. -/
theorem AtRest.drained (h : s.AtRest) [Nonempty W] (halert : s.Alert) (hsound : s.abs.Sound) :
    s.queue = [] ∧ (s.stop = true → s.killer = .returned ∧ ∀ w, s.worker w = .exited) := by
  have hqueue : s.queue = [] := by
    let w : W := Classical.arbitrary W
    rcases h.worker w with hw | hw
    · have hle := halert.workers ⟨w, hw⟩
      rw [h.sum_attends, h.sum_producers rfl fun _ => rfl] at hle
      exact List.length_eq_zero_iff.mp (Nat.le_zero.mp hle)
    · exact (stopped_of_exited hsound hw).2
  refine ⟨hqueue, fun hstop => ?_⟩
  have hkiller : s.killer ≠ .stopped := by
    intro hk
    have hstuck := h .wakeWorkers rfl
    simp [step, hk] at hstuck
  have hall (w : W) : s.worker w = .exited := by
    refine (h.worker w).resolve_left fun hw => ?_
    exact hkiller (halert.wakesWorkers hstop ⟨w, hw⟩)
  refine ⟨?_, hall⟩
  cases hk : s.killer with
  | idle => exact absurd hk (halert.killing.mp hstop)
  | stopped => exact absurd hk hkiller
  | wokeWorkers =>
    have hstuck := h .wakeProducers rfl
    simp [step, hk] at hstuck
  | joining =>
    have hstuck := h .join rfl
    simp [step, hk, hall] at hstuck
  | returned => rfl

/-- At rest no call of `addTask` hangs: there is room, and `kill` has woken those in front of it. -/
theorem AtRest.idle (h : s.AtRest) [Nonempty W] (halert : s.Alert) (hsound : s.abs.Sound) (p : P) :
    s.producer p = .idle := by
  obtain ⟨hqueue, hreturned⟩ := h.drained halert hsound
  refine (h.producer p).resolve_right fun hp => ?_
  cases hstop : s.stop with
  | true =>
    have hkiller := (hreturned hstop).1
    rcases halert.wakesProducers hstop ⟨p, hp⟩ with hk | hk
    · rw [hk] at hkiller
      cases hkiller
    · rw [hk] at hkiller
      cases hkiller
  | false =>
    have hle := halert.producers hstop ⟨p, hp⟩
    have hroom := halert.room
    rw [hqueue, h.sum_producers rfl fun _ => rfl] at hle
    simp only [List.length_nil] at hle
    omega

end

/-- Nothing is left to do: every accepted task was run, every worker waits for work or has left
because of `kill`, no call of `addTask` hangs, and `kill` has returned behind the last worker if it
was called. -/
structure Settled (s : Monitor W P T) : Prop where
  queue : s.queue = []
  ran : s.ran.Perm s.accepted
  workers : ∀ w, s.worker w = .asleep ∨ s.stop = true ∧ s.worker w = .exited
  producers : ∀ p, s.producer p = .idle
  killed : s.stop = true → s.killer = .returned ∧ ∀ w, s.worker w = .exited

theorem AtRest.settled {s : Monitor W P T} (h : s.AtRest) [Nonempty W] (halert : s.Alert)
    (hsound : s.abs.Sound) : s.Settled := by
  obtain ⟨hqueue, hkilled⟩ := h.drained halert hsound
  refine ⟨hqueue, ?_, h.waits_or_left hsound, h.idle halert hsound, hkilled⟩
  have hnone : ∑ w, (s.abs.phase w).tasks = 0 := by
    apply Finset.sum_eq_zero
    intro w _
    rcases h.worker w with hw | hw
    · simp [abs, hw, WorkerState.phase, WorkerPhase.tasks]
    · simp [abs, hw, WorkerState.phase, WorkerPhase.tasks]
  have honce : (s.dequeued : Multiset T) = s.ran + ∑ w, (s.abs.phase w).tasks := hsound.once
  have hfifo : s.accepted = s.dequeued ++ s.queue := hsound.fifo
  rw [hfifo, hqueue, List.append_nil, ← Multiset.coe_eq_coe, honce, hnone, add_zero]

/-- Left alone, the threads inside the pool make no more steps than the work that is left; some run
of them comes to rest, and whichever does leaves the pool settled. -/
def ComesToRest (s : Monitor W P T) : Prop :=
  (∀ ls t, (∀ l ∈ ls, MonitorStep.inside l = true) → exec step s ls = some t →
    ls.length ≤ s.work ∧ (t.AtRest → t.Settled)) ∧
  ∃ ls t, (∀ l ∈ ls, MonitorStep.inside l = true) ∧ exec step s ls = some t ∧ t.AtRest

/-- No wakeup is lost and no thread hangs, in whichever order critical sections, notifications and
spurious wakeups come. -/
theorem pool_comes_to_rest (threads maxQueueSize : ℕ)
    (ls : List (MonitorStep (Fin (poolSize threads)) P T)) :
    Along step ComesToRest (start threads maxQueueSize) ls := by
  have hworkers := nonempty_workers threads
  let Kept (s : Monitor (Fin (poolSize threads)) P T) : Prop :=
    s.Alert ∧ Reachable ThreadPool.step (ThreadPool.start threads maxQueueSize) s.abs
  have hkept (s t : Monitor (Fin (poolSize threads)) P T) (l : MonitorStep _ P T) (h : Kept s)
      (ht : s.step l = some t) : Kept t := ⟨h.1.step ht, h.2.trans (simulates s l t ht)⟩
  have halong : Along step Kept (start threads maxQueueSize) ls :=
    along_of_invariant (fun s l t => hkept s t l) ⟨alert_start threads maxQueueSize, .refl _⟩ ls
  have hlower (s : Monitor (Fin (poolSize threads)) P T) (l : MonitorStep _ P T)
      (t : Monitor (Fin (poolSize threads)) P T) (_ : Kept s) (hl : l.inside = true)
      (ht : s.step l = some t) : t.work < s.work := work_lt hl ht
  refine halong.mono fun s hs => ⟨fun ms t hms ht => ?_, ?_⟩
  · have hle := length_le_of_measure (fun s l t => hkept s t l) hlower hs hms ht
    have hafter : Kept t := (along_of_invariant (fun s l t => hkept s t l) hs ms).exec ht
    exact ⟨by omega, fun hrest => hrest.settled hafter.1 (sound_reachable hafter.2)⟩
  · exact exists_stuck (fun s l t => hkept s t l) hlower s hs

end Monitor
end Vermell.Threading
