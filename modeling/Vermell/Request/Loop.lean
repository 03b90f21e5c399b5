import Vermell.Request.Io

/-! The loop around `RequestIO`: `epoll_wait`, the events of a batch one by one, the sweep behind
them, the workers in between, and the way down. -/
namespace Vermell.Request
open Http

inductive LoopStep
  | wait (events : List Event)
  | event (env : RequestIO.EventEnv)
  | sweep (now : Ticks)
  | take
  | finish (i : ℕ) (handler : Handler)
  | stop
  | shutdown

namespace RequestIO

/-- A `RequestIO` as its constructor leaves it. -/
def start (cfg : Config) (pool : Bool) (listenerFd notifyFd : ℕ) : RequestIO :=
  { cfg, pool, listenerFd, notifyFd }

/-- What `epoll_wait` may report: its own two descriptors, and open client sockets that are
armed. -/
def reports (io : RequestIO) (e : Event) : Bool :=
  e.fd == io.notifyFd || e.fd == io.listenerFd || (e.fd ∈ io.openFds && e.fd ∈ io.armed)

/-- A batch names a descriptor once. With a pool the client events are one-shot. -/
def wait (io : RequestIO) (events : List Event) : RequestIO :=
  { io with
    phase := .dispatching
    ready := events
    armed := if io.pool then io.armed \ (events.map Event.fd).toFinset else io.armed }

/-- An exception that leaves `Dispatch` takes the rest of the batch and the sweep with it. -/
def unwind (io : RequestIO) : RequestIO :=
  if io.unwinding then { io with unwinding := false, ready := [], phase := .polling } else io

def step (io : RequestIO) : LoopStep → Option RequestIO
  | .wait events =>
    if io.phase = .polling ∧ (events.map Event.fd).Nodup ∧ events.all io.reports then
      some (io.wait events)
    else none
  | .event env =>
    match io.ready with
    | [] => none
    | e :: rest => (dispatchEvent { io with ready := rest } e env).map unwind
  | .sweep now =>
    if io.phase = .dispatching ∧ io.ready = [] then
      some { io.sweepStale now with phase := .polling }
    else none
  | .take => io.take
  | .finish i handler => io.serveRequest i handler
  | .stop => if io.phase = .polling then some { io with phase := .stopping } else none
  | .shutdown =>
    -- the workers are joined when the queue is empty and no task runs
    if io.phase = .stopping ∧ io.queue = [] ∧ io.running = [] then
      some { io.shutdown with phase := .down }
    else none

theorem unwind_eq (io : RequestIO) : ∃ ready phase unwinding,
    io.unwind = { io with ready := ready, phase := phase, unwinding := unwinding } := by
  unfold unwind
  split_ifs
  · exact ⟨_, _, _, rfl⟩
  · exact ⟨_, _, _, rfl⟩

/-- What a step does where it can be made. -/
inductive Stepped (io : RequestIO) : LoopStep → RequestIO → Prop
  | wait {events : List Event} (polling : io.phase = .polling)
      (nodup : (events.map Event.fd).Nodup) (reported : events.all io.reports = true) :
      Stepped io (.wait events) (io.wait events)
  | event {env : EventEnv} {e : Event} {rest : List Event} {io' : RequestIO}
      (ready : io.ready = e :: rest)
      (dispatched : dispatchEvent { io with ready := rest } e env = some io') :
      Stepped io (.event env) io'.unwind
  | sweep {now : Ticks} (ready : io.ready = []) :
      Stepped io (.sweep now) { io.sweepStale now with phase := .polling }
  | take {io' : RequestIO} (taken : io.take = some io') : Stepped io .take io'
  | finish {i : ℕ} {handler : Handler} {io' : RequestIO}
      (served : io.serveRequest i handler = some io') : Stepped io (.finish i handler) io'
  | stop (polling : io.phase = .polling) : Stepped io .stop { io with phase := .stopping }
  | shutdown (stopping : io.phase = .stopping) (queue : io.queue = [])
      (running : io.running = []) : Stepped io .shutdown { io.shutdown with phase := .down }

theorem stepped {io io' : RequestIO} {l : LoopStep} (h : io.step l = some io') :
    io.Stepped l io' := by
  cases l with
  | wait events =>
    simp only [step] at h
    split_ifs at h with hcan
    cases h
    exact .wait hcan.1 hcan.2.1 hcan.2.2
  | event env =>
    simp only [step] at h
    cases hready : io.ready with
    | nil =>
      rw [hready] at h
      cases h
    | cons e rest =>
      rw [hready] at h
      obtain ⟨io₁, hio₁, rfl⟩ := Option.map_eq_some_iff.mp h
      exact .event hready hio₁
  | sweep now =>
    simp only [step] at h
    split_ifs at h with hcan
    cases h
    exact .sweep hcan.2
  | take => exact .take h
  | finish i handler => exact .finish h
  | stop =>
    simp only [step] at h
    split_ifs at h with hcan
    cases h
    exact .stop hcan
  | shutdown =>
    simp only [step] at h
    split_ifs at h with hcan
    cases h
    exact .shutdown hcan.1 hcan.2.1 hcan.2.2

end RequestIO
end Vermell.Request
