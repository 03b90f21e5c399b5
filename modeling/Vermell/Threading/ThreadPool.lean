import Mathlib.Algebra.Order.Group.Multiset
import Vermell.Runs
import Vermell.Threads

/-! `ThreadPool`: producers, workers and `kill` on one queue, one critical section at a time. A
thread that waits on a condition variable moves when its predicate holds. -/
namespace Vermell.Threading
open Runs Threads

def MIN_QUEUE_CAPACITY : ℕ := 1024
def QUEUE_CAPACITY_PER_THREAD : ℕ := 256

def queueCapacity (threads configured : ℕ) : ℕ :=
  if configured ≠ 0 then configured
  else max (threads*QUEUE_CAPACITY_PER_THREAD % 2^64) MIN_QUEUE_CAPACITY

/-- The number of workers for the number that was asked for. -/
def poolSize (threads : ℕ) : ℕ := if threads = 0 then 1 else threads

/-- Where a worker is in its loop. -/
inductive WorkerPhase (T : Type*)
  | waiting
  | running (task : T)
  | exited

/-- The task that a worker runs. -/
def WorkerPhase.tasks {T : Type*} : WorkerPhase T → Multiset T
  | .running task => {task}
  | _ => 0

/-- How a run of a task ends. -/
inductive Outcome
  | returns | throws | throwsOther

/-- The members of the class, then the tasks that went in, came out and were run. -/
structure ThreadPool (W T : Type*) where
  maxQueueSize : ℕ
  stop : Bool := false
  queue : List T := []
  phase : W → WorkerPhase T := fun _ => .waiting
  accepted : List T := []
  dequeued : List T := []
  ran : List T := []

inductive PoolStep (W T : Type*)
  | addTask (task : T)
  | tryAddTask (task : T)
  | take (w : W)
  | finish (w : W) (outcome : Outcome)
  | kill

namespace ThreadPool
variable {W T : Type*}

section
variable (s : ThreadPool W T)

def emplace (task : T) : ThreadPool W T :=
  { s with queue := s.queue ++ [task], accepted := s.accepted ++ [task] }

/-- The critical section of `addTask`, which waits while the queue is full; `none` for the task
stands for its exception. -/
def addTask (task : T) : Option (ThreadPool W T) :=
  if s.stop = true then some s
  else if s.queue.length < s.maxQueueSize then some (s.emplace task)
  else none

def tryAddTask (task : T) : ThreadPool W T :=
  if s.stop = true then s
  else if s.queue.length ≥ s.maxQueueSize then s
  else s.emplace task

def leave [DecidableEq W] (w : W) : ThreadPool W T :=
  { s with phase := Function.update s.phase w .exited }

def dequeue [DecidableEq W] (w : W) (task : T) (queue : List T) : ThreadPool W T :=
  { s with
    queue
    phase := Function.update s.phase w (.running task)
    dequeued := s.dequeued ++ [task] }

/-- The critical section of a worker: it waits, leaves, or moves the front of the queue out. -/
def take [DecidableEq W] (w : W) : Option (ThreadPool W T) :=
  match s.queue with
  | [] => if s.stop = true then some (s.leave w) else none
  | task :: queue => some (s.dequeue w task queue)

/-- A task ends. What it throws is caught, so the worker goes back to the queue either way. -/
def finish [DecidableEq W] (w : W) (task : T) (_outcome : Outcome) : ThreadPool W T :=
  { s with phase := Function.update s.phase w .waiting, ran := s.ran ++ [task] }

def kill : ThreadPool W T := { s with stop := true }

end

def step [DecidableEq W] (s : ThreadPool W T) : PoolStep W T → Option (ThreadPool W T)
  | .addTask task => s.addTask task
  | .tryAddTask task => some (s.tryAddTask task)
  | .take w =>
    match s.phase w with
    | .waiting => s.take w
    | _ => none
  | .finish w outcome =>
    match s.phase w with
    | .running task => some (s.finish w task outcome)
    | _ => none
  | .kill => some s.kill

/-- The pool that the constructor starts. -/
def start (threads maxQueueSize : ℕ) : ThreadPool (Fin (poolSize threads)) T :=
  { maxQueueSize := queueCapacity (poolSize threads) maxQueueSize }

/-- What the critical sections keep: the queue is what was accepted and has not come out, what came
out was run or is being run, and a worker leaves only a stopped pool with an empty queue. -/
structure Sound [Fintype W] (s : ThreadPool W T) : Prop where
  bounded : s.queue.length ≤ s.maxQueueSize
  fifo : s.accepted = s.dequeued ++ s.queue
  once : (s.dequeued : Multiset T) = s.ran + ∑ w, (s.phase w).tasks
  drained : ∀ w, s.phase w = .exited → s.stop = true ∧ s.queue = []

section
variable [Fintype W] {s t : ThreadPool W T}

theorem sound_start (threads maxQueueSize : ℕ) :
    (start threads maxQueueSize : ThreadPool _ T).Sound where
  bounded := Nat.zero_le _
  fifo := rfl
  once := by simp [start, WorkerPhase.tasks]
  drained _ h := nomatch h

theorem Sound.emplace (h : s.Sound) (hstop : s.stop = false)
    (hroom : s.queue.length < s.maxQueueSize) (task : T) : (s.emplace task).Sound where
  bounded := by
    change (s.queue ++ [task]).length ≤ s.maxQueueSize
    rw [List.length_append]
    exact hroom
  fifo := by
    change s.accepted ++ [task] = s.dequeued ++ (s.queue ++ [task])
    rw [h.fifo, List.append_assoc]
  once := h.once
  drained w hw := absurd (h.drained w hw).1 (by simp [hstop])

theorem Sound.addTask (h : s.Sound) {task : T} (ht : s.addTask task = some t) : t.Sound := by
  unfold ThreadPool.addTask at ht
  split_ifs at ht with hstop hroom
  · exact Option.some.inj ht ▸ h
  · exact Option.some.inj ht ▸ h.emplace (by simpa using hstop) hroom task

theorem Sound.tryAddTask (h : s.Sound) (task : T) : (s.tryAddTask task).Sound := by
  unfold ThreadPool.tryAddTask
  split_ifs with hstop hfull
  · exact h
  · exact h
  · exact h.emplace (by simpa using hstop) (not_le.mp hfull) task

theorem Sound.kill (h : s.Sound) : s.kill.Sound where
  bounded := h.bounded
  fifo := h.fifo
  once := h.once
  drained w hw := ⟨rfl, (h.drained w hw).2⟩

variable [DecidableEq W] {w : W}

/-- A worker that has left the pool is another one than `w`, or `w` has just left. -/
theorem drained_update (h : s.Sound) {p : WorkerPhase T} (hp : p ≠ .exited) (v : W)
    (hv : Function.update s.phase w p v = .exited) : s.stop = true ∧ s.queue = [] := by
  by_cases heq : v = w
  · rw [heq, Function.update_self] at hv
    exact absurd hv hp
  · rw [Function.update_of_ne heq] at hv
    exact h.drained v hv

theorem Sound.leave (h : s.Sound) (hw : s.phase w = .waiting) (hstop : s.stop = true)
    (hqueue : s.queue = []) : (s.leave w).Sound where
  bounded := h.bounded
  fifo := h.fifo
  once := by
    have hsum := sum_update s.phase w .exited WorkerPhase.tasks
    rw [hw] at hsum
    change (s.dequeued : Multiset T) = s.ran + ∑ v, (Function.update s.phase w .exited v).tasks
    rw [h.once]
    simpa [WorkerPhase.tasks] using hsum.symm
  drained _ _ := ⟨hstop, hqueue⟩

theorem Sound.dequeue (h : s.Sound) {task : T} {queue : List T} (hw : s.phase w = .waiting)
    (hqueue : s.queue = task :: queue) : (s.dequeue w task queue).Sound where
  bounded := by
    have hbound := h.bounded
    rw [hqueue] at hbound
    exact (Nat.le_succ _).trans hbound
  fifo := by
    change s.accepted = s.dequeued ++ [task] ++ queue
    rw [h.fifo, hqueue, List.append_assoc]
    rfl
  once := by
    have hsum := sum_update s.phase w (.running task) WorkerPhase.tasks
    rw [hw] at hsum
    change ((s.dequeued ++ [task] : List T) : Multiset T) =
      s.ran + ∑ v, (Function.update s.phase w (.running task) v).tasks
    rw [← Multiset.coe_add, h.once, add_assoc]
    simpa [WorkerPhase.tasks] using hsum.symm
  drained v hv := by
    have hempty := (drained_update h (by simp) v hv).2
    rw [hqueue] at hempty
    cases hempty

theorem Sound.take (h : s.Sound) (hw : s.phase w = .waiting) (ht : s.take w = some t) :
    t.Sound := by
  unfold ThreadPool.take at ht
  cases hqueue : s.queue with
  | nil =>
    rw [hqueue] at ht
    obtain ⟨hstop, ht⟩ := Option.ite_none_right_eq_some.mp ht
    exact Option.some.inj ht ▸ h.leave hw hstop hqueue
  | cons task queue =>
    rw [hqueue] at ht
    exact Option.some.inj ht ▸ h.dequeue hw hqueue

theorem Sound.finish (h : s.Sound) {task : T} (hw : s.phase w = .running task)
    (outcome : Outcome) : (s.finish w task outcome).Sound where
  bounded := h.bounded
  fifo := h.fifo
  once := by
    have hsum := sum_update s.phase w .waiting WorkerPhase.tasks
    rw [hw] at hsum
    change (s.dequeued : Multiset T) = ((s.ran ++ [task] : List T) : Multiset T) +
      ∑ v, (Function.update s.phase w .waiting v).tasks
    rw [h.once, ← Multiset.coe_add, add_assoc, add_right_inj]
    simpa [WorkerPhase.tasks, add_comm] using hsum.symm
  drained := drained_update h (by simp)

theorem Sound.step {l : PoolStep W T} (h : s.Sound) (ht : s.step l = some t) : t.Sound := by
  cases l with
  | addTask task => exact h.addTask ht
  | tryAddTask task => exact Option.some.inj ht ▸ h.tryAddTask task
  | kill => exact Option.some.inj ht ▸ h.kill
  | take w =>
    simp only [ThreadPool.step] at ht
    split at ht
    · next hw => exact h.take hw ht
    · cases ht
  | finish w outcome =>
    simp only [ThreadPool.step] at ht
    split at ht
    · next task hw => exact Option.some.inj ht ▸ h.finish hw outcome
    · cases ht

omit [Fintype W] in
/-- A stopped pool stays stopped and accepts nothing. -/
theorem accepted_of_stop {l : PoolStep W T} (hstop : s.stop = true) (ht : s.step l = some t) :
    t.stop = true ∧ t.accepted = s.accepted := by
  cases l with
  | addTask task =>
    rw [step, addTask, if_pos hstop] at ht
    exact Option.some.inj ht ▸ ⟨hstop, rfl⟩
  | tryAddTask task =>
    rw [step, tryAddTask, if_pos hstop] at ht
    exact Option.some.inj ht ▸ ⟨hstop, rfl⟩
  | kill => exact Option.some.inj ht ▸ ⟨rfl, rfl⟩
  | take w =>
    simp only [step, take] at ht
    split at ht
    · split at ht
      · obtain ⟨-, ht⟩ := Option.ite_none_right_eq_some.mp ht
        exact Option.some.inj ht ▸ ⟨hstop, rfl⟩
      · exact Option.some.inj ht ▸ ⟨hstop, rfl⟩
    · cases ht
  | finish w outcome =>
    simp only [step] at ht
    split at ht
    · exact Option.some.inj ht ▸ ⟨hstop, rfl⟩
    · cases ht

omit [Fintype W] in
theorem accepted_exec {ls : List (PoolStep W T)} (hstop : s.stop = true)
    (ht : exec step s ls = some t) : t.accepted = s.accepted := by
  have halong : Along step (fun u => u.stop = true ∧ u.accepted = s.accepted) s ls := by
    apply along_of_invariant _ ⟨hstop, rfl⟩
    intro u l v hu hv
    obtain ⟨hstop', haccepted⟩ := accepted_of_stop hu.1 hv
    exact ⟨hstop', haccepted.trans hu.2⟩
  exact (halong.exec ht).2

omit [DecidableEq W] in
/-- When all workers have left, every accepted task was run. -/
theorem Sound.ran_of_exited [Nonempty W] (h : s.Sound) (hall : ∀ w, s.phase w = .exited) :
    s.queue = [] ∧ s.ran.Perm s.accepted := by
  have hempty := (h.drained _ (hall (Classical.arbitrary W))).2
  refine ⟨hempty, ?_⟩
  have hnone : ∑ w, (s.phase w).tasks = 0 := by
    apply Finset.sum_eq_zero
    intro w _
    rw [hall w]
    rfl
  rw [h.fifo, hempty, List.append_nil, ← Multiset.coe_eq_coe, h.once, hnone, add_zero]

end

/-- The queue keeps within its bound; what was accepted is what came out, in order, and the queue
behind it; once the pool is stopped it accepts nothing more; and when all workers have left, which
is when `kill` returns, the queue is empty and every accepted task was run once. -/
def Safe [DecidableEq W] (s : ThreadPool W T) : Prop :=
  s.queue.length ≤ s.maxQueueSize ∧ s.accepted = s.dequeued ++ s.queue ∧
  (s.stop = true → ∀ ls t, exec step s ls = some t → t.accepted = s.accepted) ∧
  ((∀ w, s.phase w = .exited) → s.queue = [] ∧ s.ran.Perm s.accepted)

end ThreadPool
end Vermell.Threading
