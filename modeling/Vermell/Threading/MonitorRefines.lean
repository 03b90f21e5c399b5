import Vermell.Threading.Monitor

/-! The monitor refines the pool: what sleeps and wakes is nothing that the pool sees. -/
namespace Vermell.Threading
open Runs Threads

/-- What a worker is to the pool, which knows no sleep. -/
def WorkerState.phase {T : Type*} : WorkerState T → WorkerPhase T
  | .ready => .waiting
  | .asleep => .waiting
  | .running task => .running task
  | .exited => .exited

namespace Monitor
variable {W P T : Type*}

/-- The pool behind the monitor. -/
def abs (s : Monitor W P T) : ThreadPool W T :=
  { maxQueueSize := s.maxQueueSize
    stop := s.stop
    queue := s.queue
    phase := fun w => (s.worker w).phase
    accepted := s.accepted
    dequeued := s.dequeued
    ran := s.ran }

/-- The monitor that the constructor starts. -/
def start (threads maxQueueSize : ℕ) : Monitor (Fin (poolSize threads)) P T :=
  { maxQueueSize := queueCapacity (poolSize threads) maxQueueSize }

variable [DecidableEq W] [DecidableEq P]

omit [DecidableEq P] in
theorem phase_update (s : Monitor W P T) (w : W) (state : WorkerState T) :
    (fun v => (Function.update s.worker w state v).phase) =
      Function.update (fun v => (s.worker v).phase) w state.phase :=
  Function.comp_update WorkerState.phase s.worker w state

omit [DecidableEq P] in
/-- A worker that falls asleep or wakes is the same to the pool. -/
theorem abs_setWorker {s : Monitor W P T} {w : W} {state : WorkerState T}
    (h : (s.worker w).phase = state.phase) : (s.setWorker w state).abs = s.abs := by
  have hphase : (fun v => (Function.update s.worker w state v).phase) =
      fun v => (s.worker v).phase := by
    rw [phase_update, ← h]
    exact Function.update_eq_self w fun v => (s.worker v).phase
  unfold abs setWorker
  simp only [hphase]

theorem phase_wake (state : WorkerState T) : state.wake.phase = state.phase := by
  cases state <;> rfl

variable [Fintype W] [Fintype P]

/-- A step of the monitor is a step of the pool, or nothing that the pool sees. -/
theorem simulates : Simulates (step (W := W) (P := P) (T := T)) ThreadPool.step abs := by
  have hone {s t : ThreadPool W T} {l : PoolStep W T} (h : s.step l = some t) :
      Reachable ThreadPool.step s t := (Reachable.refl s).tail h
  have hemplace {s : Monitor W P T} {task : T} (hstop : s.stop = false)
      (hroom : s.queue.length < s.maxQueueSize) :
      Reachable ThreadPool.step s.abs (s.emplace task).abs := by
    apply hone (l := .tryAddTask task)
    have hrefuse : ¬ s.abs.queue.length ≥ s.abs.maxQueueSize := not_le.mpr hroom
    rw [ThreadPool.step, ThreadPool.tryAddTask, if_neg (by simpa [abs] using hstop),
      if_neg hrefuse]
    rfl
  have hdequeue {s : Monitor W P T} {w : W} {task : T} {queue : List T}
      (hready : s.worker w = .ready) (hqueue : s.queue = task :: queue) :
      Reachable ThreadPool.step s.abs (s.dequeue w task queue).abs := by
    apply hone (l := .take w)
    have hphase : s.abs.phase w = .waiting := by simp [abs, hready, WorkerState.phase]
    have hfront : s.abs.queue = task :: queue := hqueue
    simp only [ThreadPool.step, hphase, ThreadPool.take, hfront]
    simp only [ThreadPool.dequeue, abs, dequeue, phase_update]
    rfl
  intro s l t h
  cases stepped h with
  | call idle => exact Reachable.refl s.abs
  | refused adding stop => exact Reachable.refl s.abs
  | added adding stop room => exact hemplace stop room
  | waits adding stop full => exact Reachable.refl s.abs
  | tryRefused => exact Reachable.refl s.abs
  | tryAdded idle stop room => exact hemplace stop room
  | @notified p w notifying asleep =>
    have hsame :
        ((s.setProducer p .idle).setWorker w .ready).abs = (s.setProducer p .idle).abs := by
      apply abs_setWorker
      change (s.worker w).phase = _
      rw [asleep]
      rfl
    rw [hsame]
    exact Reachable.refl s.abs
  | unheard notifying awake => exact Reachable.refl s.abs
  | @left w ready stop queue =>
    apply hone (l := .take w)
    have hphase : s.abs.phase w = .waiting := by simp [abs, ready, WorkerState.phase]
    have hempty : s.abs.queue = [] := queue
    have hstopped : s.abs.stop = true := stop
    simp only [ThreadPool.step, hphase, ThreadPool.take, hempty, hstopped, if_true]
    simp only [ThreadPool.leave, abs, setWorker, phase_update]
    rfl
  | sleeps ready stop queue =>
    rw [abs_setWorker (by rw [ready]; rfl)]
    exact Reachable.refl s.abs
  | taken ready front asleep => exact hdequeue ready front
  | takenUnheard ready front awake => exact hdequeue ready front
  | @finished w task outcome running =>
    apply hone (l := .finish w outcome)
    have hphase : s.abs.phase w = .running task := by simp [abs, running, WorkerState.phase]
    simp only [ThreadPool.step, hphase]
    simp only [ThreadPool.finish, abs, finish, setWorker, phase_update]
    rfl
  | killed free => exact hone (l := .kill) rfl
  | wokeWorkers killer =>
    have hsame : ({ s with worker := fun w => (s.worker w).wake, killer := .wokeWorkers } :
        Monitor W P T).abs = s.abs := by
      unfold abs
      simp only [phase_wake]
    rw [hsame]
    exact Reachable.refl s.abs
  | wokeProducers killer => exact Reachable.refl s.abs
  | joined killer exited => exact Reachable.refl s.abs
  | wokenWorker asleep =>
    rw [abs_setWorker (by rw [asleep]; rfl)]
    exact Reachable.refl s.abs
  | wokenProducer asleep => exact Reachable.refl s.abs

/-- A state that the pool reaches is sound, and a sound state is safe. -/
theorem sound_reachable {threads maxQueueSize : ℕ} {s : ThreadPool (Fin (poolSize threads)) T}
    (h : Reachable ThreadPool.step (ThreadPool.start threads maxQueueSize) s) : s.Sound :=
  h.induction (ThreadPool.sound_start threads maxQueueSize) fun _ _ _ hu => hu.step

theorem nonempty_workers (threads : ℕ) : Nonempty (Fin (poolSize threads)) := by
  refine ⟨⟨0, ?_⟩⟩
  unfold poolSize
  split_ifs <;> omega

theorem safe_of_sound [Nonempty W] {s : ThreadPool W T} (h : s.Sound) : s.Safe :=
  ⟨h.bounded, h.fifo, fun hstop _ _ ht => ThreadPool.accepted_exec hstop ht, h.ran_of_exited⟩

/-- The pool with its condition variables only does what the pool without them may do, so it is as
safe. -/
theorem monitor_refines (threads maxQueueSize : ℕ)
    (ls : List (MonitorStep (Fin (poolSize threads)) P T)) :
    Along step (fun s => Reachable ThreadPool.step (ThreadPool.start threads maxQueueSize) s.abs ∧
      s.abs.Safe) (start threads maxQueueSize) ls := by
  have hworkers := nonempty_workers threads
  have halong : Along step (fun s => Reachable step (start threads maxQueueSize) s)
      (start threads maxQueueSize : Monitor _ P T) ls :=
    along_of_invariant (fun _ _ _ hs ht => hs.tail ht) (Reachable.refl _) ls
  refine halong.mono fun s hs => ?_
  have hreach := simulates.reachable hs
  exact ⟨hreach, safe_of_sound (sound_reachable hreach)⟩

end Monitor
end Vermell.Threading
