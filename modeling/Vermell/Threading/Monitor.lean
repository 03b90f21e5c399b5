import Vermell.Simulation
import Vermell.Threading.ThreadPool

/-! `ThreadPool` with its two condition variables: who sleeps in a `wait`, whom a notification
wakes, and the way of `kill` through its notifications and joins. It refines the pool in which a
waiting thread moves as soon as its predicate holds. -/
namespace Vermell.Threading
open Runs Threads

/-- A worker is on its way to the critical section, asleep on `cond_not_empty_`, at its task, or
has left its loop. -/
inductive WorkerState (T : Type*)
  | ready
  | asleep
  | running (task : T)
  | exited

/-- A thread that adds tasks is outside, on its way to the critical section of `addTask`, asleep
on `cond_not_full_`, or between its critical section and the notification behind it. -/
inductive ProducerState (T : Type*)
  | idle
  | adding (task : T)
  | asleep (task : T)
  | notifying

/-- The thread that calls `kill`: `stop_` is set, then one `notify_all` behind the other, then the
joins. -/
inductive Killer
  | idle | stopped | wokeWorkers | joining | returned
  deriving DecidableEq, Repr

def WorkerState.isAsleep {T : Type*} : WorkerState T → Bool
  | .asleep => true
  | _ => false

def ProducerState.isAsleep {T : Type*} : ProducerState T → Bool
  | .asleep _ => true
  | _ => false

/-- What a notification does to a worker. -/
def WorkerState.wake {T : Type*} : WorkerState T → WorkerState T
  | .asleep => .ready
  | s => s

def ProducerState.wake {T : Type*} : ProducerState T → ProducerState T
  | .asleep task => .adding task
  | s => s

/-- The members of the class and its threads, then the tasks that went in, came out and were
run. -/
structure Monitor (W P T : Type*) where
  maxQueueSize : ℕ
  stop : Bool := false
  queue : List T := []
  worker : W → WorkerState T := fun _ => .ready
  producer : P → ProducerState T := fun _ => .idle
  killer : Killer := .idle
  accepted : List T := []
  dequeued : List T := []
  ran : List T := []

inductive MonitorStep (W P T : Type*)
  | call (p : P) (task : T)
  | add (p : P)
  | tryAddTask (p : P) (task : T)
  | notify (p : P) (woken : Option W)
  | take (w : W) (woken : Option P)
  | finish (w : W) (outcome : Outcome)
  | kill
  | wakeWorkers
  | wakeProducers
  | join
  | spuriousWorker (w : W)
  | spuriousProducer (p : P)

namespace Monitor
variable {W P T : Type*}

section
variable (s : Monitor W P T)

def emplace (task : T) : Monitor W P T :=
  { s with queue := s.queue ++ [task], accepted := s.accepted ++ [task] }

variable [DecidableEq W] [DecidableEq P]

def setWorker (w : W) (state : WorkerState T) : Monitor W P T :=
  { s with worker := Function.update s.worker w state }

def setProducer (p : P) (state : ProducerState T) : Monitor W P T :=
  { s with producer := Function.update s.producer p state }

/-- `notify_one` on `cond_not_empty_` wakes one thread if any sleeps there. -/
def notifyNotEmpty [Fintype W] : Option W → Option (Monitor W P T)
  | some w => if (s.worker w).isAsleep then some (s.setWorker w .ready) else none
  | none => if ∃ w, (s.worker w).isAsleep then none else some s

/-- `notify_one` on `cond_not_full_`. -/
def notifyNotFull [Fintype P] : Option P → Option (Monitor W P T)
  | some p =>
    if (s.producer p).isAsleep then some (s.setProducer p (s.producer p).wake) else none
  | none => if ∃ p, (s.producer p).isAsleep then none else some s

/-- The critical section of `addTask` for the task of a producer. -/
def add (p : P) (task : T) : Monitor W P T :=
  if s.stop then s.setProducer p .idle
  else if s.queue.length < s.maxQueueSize then (s.emplace task).setProducer p .notifying
  else s.setProducer p (.asleep task)

def tryAddTask (p : P) (task : T) : Monitor W P T :=
  if s.stop then s
  else if s.queue.length ≥ s.maxQueueSize then s
  else (s.emplace task).setProducer p .notifying

def dequeue (w : W) (task : T) (queue : List T) : Monitor W P T :=
  { s with
    queue
    worker := Function.update s.worker w (.running task)
    dequeued := s.dequeued ++ [task] }

/-- The critical section of a worker. The notification stands inside of it. -/
def take [Fintype P] (w : W) (woken : Option P) : Option (Monitor W P T) :=
  match s.queue with
  | [] =>
    if woken.isSome then none
    else if s.stop then some (s.setWorker w .exited)
    else some (s.setWorker w .asleep)
  | task :: queue => (s.dequeue w task queue).notifyNotFull woken

def finish (w : W) (task : T) (_outcome : Outcome) : Monitor W P T :=
  { s.setWorker w .ready with ran := s.ran ++ [task] }

end

variable [DecidableEq W] [DecidableEq P] [Fintype W] [Fintype P]

/-- One critical section or notification of one thread. A `kill` is called by one thread, which may
call it again; a thread may wake without a notification. -/
def step (s : Monitor W P T) : MonitorStep W P T → Option (Monitor W P T)
  | .call p task =>
    match s.producer p with
    | .idle => some (s.setProducer p (.adding task))
    | _ => none
  | .add p =>
    match s.producer p with
    | .adding task => some (s.add p task)
    | _ => none
  | .tryAddTask p task =>
    match s.producer p with
    | .idle => some (s.tryAddTask p task)
    | _ => none
  | .notify p woken =>
    match s.producer p with
    | .notifying => (s.setProducer p .idle).notifyNotEmpty woken
    | _ => none
  | .take w woken =>
    match s.worker w with
    | .ready => s.take w woken
    | _ => none
  | .finish w outcome =>
    match s.worker w with
    | .running task => some (s.finish w task outcome)
    | _ => none
  | .kill =>
    if s.killer = .idle ∨ s.killer = .returned then some { s with stop := true, killer := .stopped }
    else none
  | .wakeWorkers =>
    if s.killer = .stopped then
      some { s with worker := fun w => (s.worker w).wake, killer := .wokeWorkers }
    else none
  | .wakeProducers =>
    if s.killer = .wokeWorkers then
      some { s with producer := fun p => (s.producer p).wake, killer := .joining }
    else none
  | .join =>
    if s.killer = .joining ∧ ∀ w, s.worker w matches .exited then
      some { s with killer := .returned }
    else none
  | .spuriousWorker w =>
    match s.worker w with
    | .asleep => some (s.setWorker w .ready)
    | _ => none
  | .spuriousProducer p =>
    match s.producer p with
    | .asleep task => some (s.setProducer p (.adding task))
    | _ => none

/-- What a step does where it can be made. -/
inductive Stepped (s : Monitor W P T) : MonitorStep W P T → Monitor W P T → Prop
  | call {p : P} {task : T} (idle : s.producer p = .idle) :
      Stepped s (.call p task) (s.setProducer p (.adding task))
  | refused {p : P} {task : T} (adding : s.producer p = .adding task) (stop : s.stop = true) :
      Stepped s (.add p) (s.setProducer p .idle)
  | added {p : P} {task : T} (adding : s.producer p = .adding task) (stop : s.stop = false)
      (room : s.queue.length < s.maxQueueSize) :
      Stepped s (.add p) ((s.emplace task).setProducer p .notifying)
  | waits {p : P} {task : T} (adding : s.producer p = .adding task) (stop : s.stop = false)
      (full : s.maxQueueSize ≤ s.queue.length) :
      Stepped s (.add p) (s.setProducer p (.asleep task))
  | tryRefused {p : P} {task : T} : Stepped s (.tryAddTask p task) s
  | tryAdded {p : P} {task : T} (idle : s.producer p = .idle) (stop : s.stop = false)
      (room : s.queue.length < s.maxQueueSize) :
      Stepped s (.tryAddTask p task) ((s.emplace task).setProducer p .notifying)
  | notified {p : P} {w : W} (notifying : s.producer p = .notifying)
      (asleep : s.worker w = .asleep) :
      Stepped s (.notify p (some w)) ((s.setProducer p .idle).setWorker w .ready)
  | unheard {p : P} (notifying : s.producer p = .notifying) (awake : ∀ w, s.worker w ≠ .asleep) :
      Stepped s (.notify p none) (s.setProducer p .idle)
  | left {w : W} (ready : s.worker w = .ready) (stop : s.stop = true) (queue : s.queue = []) :
      Stepped s (.take w none) (s.setWorker w .exited)
  | sleeps {w : W} (ready : s.worker w = .ready) (stop : s.stop = false) (queue : s.queue = []) :
      Stepped s (.take w none) (s.setWorker w .asleep)
  | taken {w : W} {task waiting : T} {queue : List T} {p : P} (ready : s.worker w = .ready)
      (front : s.queue = task :: queue) (asleep : s.producer p = .asleep waiting) :
      Stepped s (.take w (some p)) ((s.dequeue w task queue).setProducer p (.adding waiting))
  | takenUnheard {w : W} {task : T} {queue : List T} (ready : s.worker w = .ready)
      (front : s.queue = task :: queue) (awake : ∀ p, (s.producer p).isAsleep = false) :
      Stepped s (.take w none) (s.dequeue w task queue)
  | finished {w : W} {task : T} {outcome : Outcome} (running : s.worker w = .running task) :
      Stepped s (.finish w outcome) (s.finish w task outcome)
  | killed (free : s.killer = .idle ∨ s.killer = .returned) :
      Stepped s .kill { s with stop := true, killer := .stopped }
  | wokeWorkers (killer : s.killer = .stopped) :
      Stepped s .wakeWorkers
        { s with worker := fun w => (s.worker w).wake, killer := .wokeWorkers }
  | wokeProducers (killer : s.killer = .wokeWorkers) :
      Stepped s .wakeProducers
        { s with producer := fun p => (s.producer p).wake, killer := .joining }
  | joined (killer : s.killer = .joining) (exited : ∀ w, s.worker w = .exited) :
      Stepped s .join { s with killer := .returned }
  | wokenWorker {w : W} (asleep : s.worker w = .asleep) :
      Stepped s (.spuriousWorker w) (s.setWorker w .ready)
  | wokenProducer {p : P} {task : T} (asleep : s.producer p = .asleep task) :
      Stepped s (.spuriousProducer p) (s.setProducer p (.adding task))

omit [DecidableEq W] [DecidableEq P] [Fintype W] [Fintype P] in
theorem isAsleep_worker_iff {state : WorkerState T} : state.isAsleep = true ↔ state = .asleep := by
  cases state <;> simp [WorkerState.isAsleep]

omit [DecidableEq W] [DecidableEq P] [Fintype W] [Fintype P] in
theorem isAsleep_producer_iff {state : ProducerState T} :
    state.isAsleep = true ↔ ∃ task, state = .asleep task := by
  cases state <;> simp [ProducerState.isAsleep]

theorem stepped_add {s t : Monitor W P T} {p : P} (h : s.step (.add p) = some t) :
    s.Stepped (.add p) t := by
  simp only [step, add] at h
  split at h
  · next task hp =>
    split_ifs at h with hstop hroom
    · exact Option.some.inj h ▸ .refused hp hstop
    · exact Option.some.inj h ▸ .added hp (by simpa using hstop) hroom
    · exact Option.some.inj h ▸ .waits hp (by simpa using hstop) (not_lt.mp hroom)
  · cases h

theorem stepped_tryAddTask {s t : Monitor W P T} {p : P} {task : T}
    (h : s.step (.tryAddTask p task) = some t) : s.Stepped (.tryAddTask p task) t := by
  simp only [step, tryAddTask] at h
  split at h
  · next hp =>
    split_ifs at h with hstop hfull
    · exact Option.some.inj h ▸ .tryRefused
    · exact Option.some.inj h ▸ .tryRefused
    · exact Option.some.inj h ▸ .tryAdded hp (by simpa using hstop) (not_le.mp hfull)
  · cases h

theorem stepped_notify {s t : Monitor W P T} {p : P} {woken : Option W}
    (h : s.step (.notify p woken) = some t) : s.Stepped (.notify p woken) t := by
  simp only [step] at h
  split at h
  · next hp =>
    cases woken with
    | some w =>
      simp only [notifyNotEmpty] at h
      split_ifs at h with hw
      exact Option.some.inj h ▸ .notified hp (isAsleep_worker_iff.mp hw)
    | none =>
      simp only [notifyNotEmpty] at h
      split_ifs at h with hw
      refine Option.some.inj h ▸ .unheard hp fun w hasleep => hw ⟨w, ?_⟩
      exact isAsleep_worker_iff.mpr hasleep
  · cases h

theorem stepped_take {s t : Monitor W P T} {w : W} {woken : Option P}
    (h : s.step (.take w woken) = some t) : s.Stepped (.take w woken) t := by
  simp only [step] at h
  split at h
  · next hw =>
    unfold take at h
    split at h
    · next hqueue =>
      cases woken with
      | some p => cases h
      | none =>
        simp only [Option.isSome_none, Bool.false_eq_true, if_false] at h
        split_ifs at h with hstop
        · exact Option.some.inj h ▸ .left hw hstop hqueue
        · exact Option.some.inj h ▸ .sleeps hw (by simpa using hstop) hqueue
    · next task queue hqueue =>
      cases woken with
      | some p =>
        simp only [notifyNotFull] at h
        split_ifs at h with hp
        obtain ⟨waiting, hp⟩ := isAsleep_producer_iff.mp hp
        change s.producer p = .asleep waiting at hp
        have hwake : ((s.dequeue w task queue).producer p).wake = .adding waiting := by
          change (s.producer p).wake = _
          rw [hp]
          rfl
        rw [hwake] at h
        exact Option.some.inj h ▸ .taken hw hqueue hp
      | none =>
        simp only [notifyNotFull] at h
        split_ifs at h with hp
        refine Option.some.inj h ▸ .takenUnheard hw hqueue fun p => ?_
        exact Bool.eq_false_iff.mpr fun hasleep => hp ⟨p, hasleep⟩
  · cases h

theorem stepped {s t : Monitor W P T} {l : MonitorStep W P T} (h : s.step l = some t) :
    s.Stepped l t := by
  cases l with
  | call p task =>
    simp only [step] at h
    split at h
    · next hp => exact Option.some.inj h ▸ .call hp
    · cases h
  | add p => exact stepped_add h
  | tryAddTask p task => exact stepped_tryAddTask h
  | notify p woken => exact stepped_notify h
  | take w woken => exact stepped_take h
  | finish w outcome =>
    simp only [step] at h
    split at h
    · next task hw => exact Option.some.inj h ▸ .finished hw
    · cases h
  | kill =>
    simp only [step] at h
    split_ifs at h with hfree
    exact Option.some.inj h ▸ .killed hfree
  | wakeWorkers =>
    simp only [step] at h
    split_ifs at h with hkiller
    exact Option.some.inj h ▸ .wokeWorkers hkiller
  | wakeProducers =>
    simp only [step] at h
    split_ifs at h with hkiller
    exact Option.some.inj h ▸ .wokeProducers hkiller
  | join =>
    simp only [step] at h
    split_ifs at h with hjoin
    refine Option.some.inj h ▸ .joined hjoin.1 fun w => ?_
    have hexited := hjoin.2 w
    cases hw : s.worker w <;> simp_all
  | spuriousWorker w =>
    simp only [step] at h
    split at h
    · next hw => exact Option.some.inj h ▸ .wokenWorker hw
    · cases h
  | spuriousProducer p =>
    simp only [step] at h
    split at h
    · next task hp => exact Option.some.inj h ▸ .wokenProducer hp
    · cases h

end Monitor
end Vermell.Threading
