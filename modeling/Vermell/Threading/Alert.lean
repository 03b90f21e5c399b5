import Vermell.Threading.MonitorRefines

/-! No wakeup is lost: where a thread sleeps on a condition variable of the pool, enough others are
up, or notifications on their way, to see to what it waits for. -/
namespace Vermell.Threading
open Threads

/-- The workers that will look at the queue again without being woken. -/
def WorkerState.attends {T : Type*} : WorkerState T → ℕ
  | .ready => 1
  | .asleep => 0
  | .running _ => 1
  | .exited => 0

/-- The notifications of `cond_not_empty_` on their way. -/
def ProducerState.notifies {T : Type*} : ProducerState T → ℕ
  | .notifying => 1
  | _ => 0

/-- The calls of `addTask` on their way to the critical section. -/
def ProducerState.adds {T : Type*} : ProducerState T → ℕ
  | .adding _ => 1
  | _ => 0

namespace Monitor
variable {W P T : Type*} [DecidableEq W] [DecidableEq P] [Fintype W] [Fintype P]

/-- While a worker sleeps, there are as many workers up and notifications on their way as tasks in
the queue; while a call of `addTask` sleeps, as many calls up as free places. Behind `stop_` nobody
sleeps whom `kill` is not about to wake. -/
structure Alert (s : Monitor W P T) : Prop where
  room : 0 < s.maxQueueSize
  workers : (∃ w, s.worker w = .asleep) →
    s.queue.length ≤ ∑ w, (s.worker w).attends + ∑ p, (s.producer p).notifies
  producers : s.stop = false → (∃ p, (s.producer p).isAsleep = true) →
    s.maxQueueSize ≤ s.queue.length + ∑ p, (s.producer p).adds
  killing : s.stop = true ↔ s.killer ≠ .idle
  wakesWorkers : s.stop = true → (∃ w, s.worker w = .asleep) → s.killer = .stopped
  wakesProducers : s.stop = true → (∃ p, (s.producer p).isAsleep = true) →
    s.killer = .stopped ∨ s.killer = .wokeWorkers

theorem queueCapacity_pos (threads configured : ℕ) : 0 < queueCapacity threads configured := by
  unfold queueCapacity
  split_ifs with h
  · omega
  · exact lt_max_of_lt_right (by decide)

omit [DecidableEq P] in
theorem alert_start (threads maxQueueSize : ℕ) :
    (start threads maxQueueSize : Monitor (Fin (poolSize threads)) P T).Alert where
  room := queueCapacity_pos _ _
  workers := fun ⟨_, hw⟩ => nomatch hw
  producers := fun _ ⟨_, hp⟩ => nomatch hp
  killing := by simp [start]
  wakesWorkers := fun hstop => nomatch hstop
  wakesProducers := fun hstop => nomatch hstop

section
variable {s t : Monitor W P T} {p : P} {w : W}

omit [DecidableEq W] in
/-- A producer moves. It takes no notification away from a sleeping worker, no call from a sleeping
one, and falls asleep only at a full queue. -/
theorem Alert.setProducer (h : s.Alert) {state : ProducerState T}
    (hnotifies : (s.producer p).notifies ≤ state.notifies ∨ ∀ w, s.worker w ≠ .asleep)
    (hadds : s.stop = false →
      (s.producer p).adds ≤ state.adds ∨ s.maxQueueSize ≤ s.queue.length)
    (hasleep : state.isAsleep = true → s.stop = false ∧ s.maxQueueSize ≤ s.queue.length) :
    (s.setProducer p state).Alert where
  room := h.room
  workers := by
    intro hw
    have hsum := sum_update s.producer p state ProducerState.notifies
    have hle := h.workers hw
    change s.queue.length ≤ ∑ w, (s.worker w).attends +
      ∑ q, (Function.update s.producer p state q).notifies
    rcases hnotifies with hnotifies | hnone
    · omega
    · obtain ⟨w, hw⟩ := hw
      exact absurd hw (hnone w)
  producers := by
    intro hstop hp
    have hsum := sum_update s.producer p state ProducerState.adds
    change s.maxQueueSize ≤ s.queue.length + ∑ q, (Function.update s.producer p state q).adds
    rcases (exists_update_iff s.producer p state fun q => q.isAsleep = true).mp hp with
      hstate | ⟨q, -, hq⟩
    · have := (hasleep hstate).2
      omega
    · have hle := h.producers hstop ⟨q, hq⟩
      rcases hadds hstop with hadds | hfull <;> omega
  killing := h.killing
  wakesWorkers := h.wakesWorkers
  wakesProducers := by
    intro hstop hp
    rcases (exists_update_iff s.producer p state fun q => q.isAsleep = true).mp hp with
      hstate | ⟨q, -, hq⟩
    · have hrunning := (hasleep hstate).1
      rw [show s.stop = true from hstop] at hrunning
      cases hrunning
    · exact h.wakesProducers hstop ⟨q, hq⟩

omit [DecidableEq W] in
/-- A task goes in, and its notification is on its way. -/
theorem Alert.emplace (h : s.Alert) (hidle : (s.producer p).notifies = 0) (hstop : s.stop = false)
    (task : T) : ((s.emplace task).setProducer p .notifying).Alert where
  room := h.room
  workers := by
    intro hw
    have hsum := sum_update s.producer p .notifying ProducerState.notifies
    have hle := h.workers hw
    change (s.queue ++ [task]).length ≤ ∑ w, (s.worker w).attends +
      ∑ q, (Function.update s.producer p .notifying q).notifies
    have hone : (ProducerState.notifying : ProducerState T).notifies = 1 := rfl
    rw [List.length_append, List.length_singleton]
    omega
  producers := by
    intro _ hp
    have hsum := sum_update s.producer p .notifying ProducerState.adds
    obtain ⟨q, -, hq⟩ := ((exists_update_iff s.producer p .notifying
      fun q => q.isAsleep = true).mp hp).resolve_left (by simp [ProducerState.isAsleep])
    have hle := h.producers hstop ⟨q, hq⟩
    change s.maxQueueSize ≤ (s.queue ++ [task]).length +
      ∑ q, (Function.update s.producer p .notifying q).adds
    have hone : (s.producer p).adds ≤ 1 := by cases s.producer p <;> simp [ProducerState.adds]
    rw [List.length_append, List.length_singleton]
    omega
  killing := h.killing
  wakesWorkers := h.wakesWorkers
  wakesProducers := fun hstop' => absurd (hstop'.symm.trans hstop) (by simp)

omit [DecidableEq P] in
/-- A worker moves. It leaves no task behind and falls asleep only before `stop_`. -/
theorem Alert.setWorker (h : s.Alert) {state : WorkerState T}
    (hattends : (s.worker w).attends ≤ state.attends ∨ s.queue = [])
    (hasleep : state = .asleep → s.stop = false ∧ s.queue = []) : (s.setWorker w state).Alert where
  room := h.room
  workers := by
    intro hw
    have hsum := sum_update s.worker w state WorkerState.attends
    change s.queue.length ≤ ∑ v, (Function.update s.worker w state v).attends +
      ∑ p, (s.producer p).notifies
    rcases (exists_update_iff s.worker w state (· = .asleep)).mp hw with hstate | ⟨v, -, hv⟩
    · simp [(hasleep hstate).2]
    · have hle := h.workers ⟨v, hv⟩
      rcases hattends with hattends | hempty
      · omega
      · simp [hempty]
  producers := h.producers
  killing := h.killing
  wakesWorkers := by
    intro hstop hw
    rcases (exists_update_iff s.worker w state (· = .asleep)).mp hw with hstate | ⟨v, -, hv⟩
    · have hrunning := (hasleep hstate).1
      rw [show s.stop = true from hstop] at hrunning
      cases hrunning
    · exact h.wakesWorkers hstop ⟨v, hv⟩
  wakesProducers := h.wakesProducers

/-- A notification finds a worker asleep, which takes its place. -/
theorem Alert.notified (h : s.Alert) (hp : s.producer p = .notifying)
    (hw : s.worker w = .asleep) : ((s.setProducer p .idle).setWorker w .ready).Alert where
  room := h.room
  workers := by
    intro _
    have hle := h.workers ⟨w, hw⟩
    have hworker := sum_update s.worker w .ready WorkerState.attends
    have hproducer := sum_update s.producer p .idle ProducerState.notifies
    change s.queue.length ≤ ∑ v, (Function.update s.worker w .ready v).attends +
      ∑ q, (Function.update s.producer p .idle q).notifies
    have hasleep : (s.worker w).attends = 0 := by rw [hw]; rfl
    have hready : (WorkerState.ready : WorkerState T).attends = 1 := rfl
    have hnotifying : (s.producer p).notifies = 1 := by rw [hp]; rfl
    have hidle : (ProducerState.idle : ProducerState T).notifies = 0 := rfl
    omega
  producers := by
    intro hstop hasleep
    have hsum := sum_update s.producer p .idle ProducerState.adds
    obtain ⟨q, -, hq⟩ := ((exists_update_iff s.producer p .idle
      fun q => q.isAsleep = true).mp hasleep).resolve_left (by simp [ProducerState.isAsleep])
    have hle := h.producers hstop ⟨q, hq⟩
    change s.maxQueueSize ≤ s.queue.length + ∑ q, (Function.update s.producer p .idle q).adds
    have hnotifying : (s.producer p).adds = 0 := by rw [hp]; rfl
    have hidle : (ProducerState.idle : ProducerState T).adds = 0 := rfl
    omega
  killing := h.killing
  wakesWorkers := by
    intro hstop hasleep
    obtain ⟨v, -, hv⟩ := ((exists_update_iff s.worker w .ready
      (· = .asleep)).mp hasleep).resolve_left (by simp)
    exact h.wakesWorkers hstop ⟨v, hv⟩
  wakesProducers := by
    intro hstop hasleep
    obtain ⟨q, -, hq⟩ := ((exists_update_iff s.producer p .idle
      fun q => q.isAsleep = true).mp hasleep).resolve_left (by simp [ProducerState.isAsleep])
    exact h.wakesProducers hstop ⟨q, hq⟩

omit [DecidableEq P] in
/-- A task comes out, and with it a place: no call of `addTask` sleeps, or one is woken. -/
theorem Alert.dequeue (h : s.Alert) {task : T} {queue : List T} (hw : s.worker w = .ready)
    (hqueue : s.queue = task :: queue) {producer : P → ProducerState T}
    (hnotifies : ∑ q, (producer q).notifies = ∑ q, (s.producer q).notifies)
    (hwoken : (∃ q, (producer q).isAsleep = true) → (∃ q, (s.producer q).isAsleep = true) ∧
      ∑ q, (s.producer q).adds + 1 ≤ ∑ q, (producer q).adds) :
    Alert { s.dequeue w task queue with producer := producer } where
  room := h.room
  workers := by
    intro hasleep
    have hsum := sum_update s.worker w (.running task) WorkerState.attends
    obtain ⟨v, -, hv⟩ := ((exists_update_iff s.worker w (.running task)
      (· = .asleep)).mp hasleep).resolve_left (by simp)
    have hle := h.workers ⟨v, hv⟩
    change queue.length ≤ ∑ v, (Function.update s.worker w (.running task) v).attends +
      ∑ q, (producer q).notifies
    have hready : (s.worker w).attends = 1 := by rw [hw]; rfl
    have hrunning : (WorkerState.running task).attends = 1 := rfl
    rw [hqueue, List.length_cons] at hle
    omega
  producers := by
    intro hstop hasleep
    obtain ⟨hbefore, hmore⟩ := hwoken hasleep
    have hle := h.producers hstop hbefore
    change s.maxQueueSize ≤ queue.length + ∑ q, (producer q).adds
    rw [hqueue, List.length_cons] at hle
    omega
  killing := h.killing
  wakesWorkers := by
    intro hstop hasleep
    obtain ⟨v, -, hv⟩ := ((exists_update_iff s.worker w (.running task)
      (· = .asleep)).mp hasleep).resolve_left (by simp)
    exact h.wakesWorkers hstop ⟨v, hv⟩
  wakesProducers := fun hstop hasleep => h.wakesProducers hstop (hwoken hasleep).1

theorem Alert.step {l : MonitorStep W P T} (h : s.Alert) (ht : s.step l = some t) : t.Alert := by
  cases stepped ht with
  | @call p task idle =>
    apply h.setProducer
    · exact Or.inl (by simp [idle, ProducerState.notifies])
    · exact fun _ => Or.inl (by simp [idle, ProducerState.adds])
    · exact fun hasleep => by cases hasleep
  | @refused p task adding stop =>
    apply h.setProducer
    · exact Or.inl (by simp [adding, ProducerState.notifies])
    · exact fun hrunning => absurd (stop.symm.trans hrunning) (by simp)
    · exact fun hasleep => by cases hasleep
  | @added p task adding stop room =>
    exact h.emplace (by simp [adding, ProducerState.notifies]) stop task
  | @waits p task adding stop full =>
    apply h.setProducer
    · exact Or.inl (by simp [adding, ProducerState.notifies])
    · exact fun _ => Or.inr full
    · exact fun _ => ⟨stop, full⟩
  | tryRefused => exact h
  | @tryAdded p task idle stop room =>
    exact h.emplace (by simp [idle, ProducerState.notifies]) stop task
  | notified notifying asleep => exact h.notified notifying asleep
  | @unheard p notifying awake =>
    apply h.setProducer
    · exact Or.inr awake
    · exact fun _ => Or.inl (by simp [notifying, ProducerState.adds])
    · exact fun hasleep => by cases hasleep
  | left ready stop queue => exact h.setWorker (Or.inr queue) fun hasleep => by cases hasleep
  | sleeps ready stop queue => exact h.setWorker (Or.inr queue) fun _ => ⟨stop, queue⟩
  | @taken w task waiting queue p ready front asleep =>
    apply h.dequeue ready front
    · have hsum := sum_update s.producer p (.adding waiting) ProducerState.notifies
      rw [asleep] at hsum
      exact hsum
    · intro _
      have hsum := sum_update s.producer p (.adding waiting) ProducerState.adds
      refine ⟨⟨p, by simp [asleep, ProducerState.isAsleep]⟩, ?_⟩
      rw [asleep] at hsum
      exact hsum.ge
  | takenUnheard ready front awake =>
    apply h.dequeue ready front rfl
    rintro ⟨q, hq⟩
    exact absurd hq (by simp [awake q])
  | @finished w task outcome running =>
    have hready : (s.setWorker w .ready).Alert := h.setWorker
      (Or.inl (by simp [running, WorkerState.attends])) fun hasleep => by cases hasleep
    exact ⟨hready.room, hready.workers, hready.producers, hready.killing, hready.wakesWorkers,
      hready.wakesProducers⟩
  | killed free =>
    refine ⟨h.room, h.workers, ?_, ?_, fun _ _ => rfl, fun _ _ => Or.inl rfl⟩
    · intro hstop
      cases hstop
    · exact ⟨fun _ => by simp, fun _ => rfl⟩
  | wokeWorkers killer =>
    have hup (w : W) : (s.worker w).wake ≠ .asleep := by
      cases s.worker w <;> simp [WorkerState.wake]
    refine ⟨h.room, ?_, h.producers, ?_, ?_, fun _ _ => Or.inr rfl⟩
    · rintro ⟨w, hw⟩
      exact absurd hw (hup w)
    · exact ⟨fun _ => by simp, fun _ => h.killing.mpr (by simp [killer])⟩
    · rintro - ⟨w, hw⟩
      exact absurd hw (hup w)
  | wokeProducers killer =>
    have hup (p : P) : (s.producer p).wake.isAsleep = false := by
      cases s.producer p <;> rfl
    have hnotifies : ∑ p, (s.producer p).wake.notifies = ∑ p, (s.producer p).notifies := by
      apply Finset.sum_congr rfl
      intro p _
      cases s.producer p <;> rfl
    have hstop : s.stop = true := h.killing.mpr (by simp [killer])
    refine ⟨h.room, ?_, ?_, ?_, ?_, ?_⟩
    · intro hw
      have hle := h.workers hw
      change s.queue.length ≤ ∑ w, (s.worker w).attends + ∑ p, (s.producer p).wake.notifies
      rwa [hnotifies]
    · rintro - ⟨p, hp⟩
      exact absurd hp (by simp [hup p])
    · exact ⟨fun _ => by simp, fun _ => hstop⟩
    · intro _ hw
      exact absurd (h.wakesWorkers hstop hw) (by simp [killer])
    · rintro - ⟨p, hp⟩
      exact absurd hp (by simp [hup p])
  | joined killer exited =>
    have hstop : s.stop = true := h.killing.mpr (by simp [killer])
    refine ⟨h.room, h.workers, h.producers, ⟨fun _ => by simp, fun _ => hstop⟩, ?_, ?_⟩
    · rintro - ⟨w, hw⟩
      exact absurd hw (by simp [exited w])
    · intro _ hp
      exact absurd (h.wakesProducers hstop hp) (by simp [killer])
  | @wokenWorker w asleep =>
    apply h.setWorker
    · exact Or.inl (by simp [asleep, WorkerState.attends])
    · exact fun hasleep => by cases hasleep
  | @wokenProducer p task asleep =>
    apply h.setProducer
    · exact Or.inl (by simp [asleep, ProducerState.notifies])
    · exact fun _ => Or.inl (by simp [asleep, ProducerState.adds])
    · exact fun hasleep => by cases hasleep

end

end Monitor
end Vermell.Threading
