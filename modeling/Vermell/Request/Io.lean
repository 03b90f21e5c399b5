import Vermell.Request.Readable
import Mathlib.Data.Finset.Basic

/-! `RequestIO` over all its descriptors: accept, dispatch of an epoll batch, completions, the sweep
and the shutdown, with the pool's tasks and the kernel's view of the client sockets beside it. -/
namespace Vermell.Request
open Http

/-- The vector `pending_`, indexed by descriptor. -/
abbrev Slots := List (Option ConnState)

namespace Slots

def get (p : Slots) (fd : ℕ) : Option ConnState := p[fd]?.join

/-- The slot is filled; the vector grows when it is too short. -/
def put (p : Slots) (fd : ℕ) (st : ConnState) : Slots :=
  (p ++ List.replicate (fd + 1 - p.length) none).set fd (some st)

def drop (p : Slots) (fd : ℕ) : Slots := p.set fd none

theorem get_put (p : Slots) (fd : ℕ) (st : ConnState) (g : ℕ) :
    (p.put fd st).get g = if g = fd then some st else p.get g := by
  unfold get put
  rw [List.getElem?_set]
  by_cases hg : fd = g
  · subst hg
    rw [if_pos rfl, if_pos (by simp; omega), if_pos rfl]
    rfl
  · rw [if_neg hg, if_neg (Ne.symm hg)]
    by_cases hlt : g < p.length
    · rw [List.getElem?_append_left hlt]
    · rw [List.getElem?_append_right (by omega), List.getElem?_eq_none (l := p) (by omega),
        List.getElem?_replicate]
      split_ifs <;> rfl

theorem get_drop (p : Slots) (fd g : ℕ) :
    (p.drop fd).get g = if g = fd then none else p.get g := by
  unfold get drop
  rw [List.getElem?_set]
  by_cases hg : fd = g
  · subst hg
    rw [if_pos rfl, if_pos rfl]
    split_ifs <;> rfl
  · rw [if_neg hg, if_neg (Ne.symm hg)]

theorem get_eq_none_of_le {p : Slots} {fd : ℕ} (h : p.length ≤ fd) : p.get fd = none := by
  unfold get
  rw [List.getElem?_eq_none h]
  rfl

end Slots

structure Task where
  fd : ℕ
  raw : Bytes
  deriving DecidableEq, Repr

structure Completion where
  fd : ℕ
  keepAlive : Bool
  deriving DecidableEq, Repr

/-- One entry of an epoll batch: EPOLLIN, and any of EPOLLERR, EPOLLHUP and EPOLLRDHUP. -/
structure Event where
  fd : ℕ
  readable : Bool
  hangup : Bool
  deriving DecidableEq, Repr

/-- A `close` of a client descriptor: whether it was open, and whether the pool held a task for
it. -/
structure Close where
  fd : ℕ
  wasOpen : Bool
  busy : Bool
  deriving DecidableEq, Repr

/-- What passed through one accepted connection: the bytes received, the requests handed over, and
the requests whose response was written. -/
structure History where
  received : Bytes := []
  handed : List Bytes := []
  written : List Bytes := []
  deriving DecidableEq, Repr

/-- The loop polls or works through a batch; `shutdown` waits for the workers, then closes. -/
inductive Phase
  | polling | dispatching | stopping | down
  deriving DecidableEq, Repr

/-- The members of the class, then the pool, the kernel and the loop, then what happened. -/
structure RequestIO where
  cfg : Config
  pool : Bool
  listenerFd : ℕ
  notifyFd : ℕ
  pending : Slots := []
  scratch : ℕ := 0
  active : UInt64 := 0
  handled : UInt64 := 0
  completed : List Completion := []
  queue : List Task := []
  running : List Task := []
  openFds : Finset ℕ := ∅
  armed : Finset ℕ := ∅
  ready : List Event := []
  phase : Phase := .polling
  unwinding : Bool := false
  closes : List Close := []
  history : ℕ → History := fun _ => {}

namespace RequestIO

section
variable (io : RequestIO) (fd : ℕ)

def slot : Option ConnState := io.pending.get fd

def hasPending : Bool := (io.slot fd).isSome

/-- `pending_slot`: the slot, filled with a default one when it is empty. -/
def pendingSlot : ConnState := (io.slot fd).getD {}

def setSlot (st : ConnState) : RequestIO := { io with pending := io.pending.put fd st }

def dropPending : RequestIO := { io with pending := io.pending.drop fd }

/-- The pool holds a task for the descriptor, queued or running. -/
def busy : Bool := (io.queue ++ io.running).any (·.fd == fd)

/-- The kernel forgets the descriptor, its epoll registration included. -/
def closeFd : RequestIO :=
  { io with
    openFds := io.openFds.erase fd
    armed := io.armed.erase fd
    closes := io.closes ++ [⟨fd, fd ∈ io.openFds, io.busy fd⟩] }

/-- A one-shot event disarms its descriptor. -/
def disarm : RequestIO := { io with armed := io.armed.erase fd }

/-- `EPOLL_CTL_MOD` re-arms a registered descriptor and fails on any other. -/
def epollMod : RequestIO :=
  if fd ∈ io.openFds then { io with armed := insert fd io.armed } else io

def rearmWait : RequestIO := if io.pool then io.epollMod fd else io

/-- `close`, `drop_pending` and the decrement of `active_connections_`, with which every path out
of a connection ends it. -/
def retire : RequestIO :=
  { (io.closeFd fd).dropPending fd with active := io.active - 1 }

/-- `Reject` and its likes: the connection ends and counts as handled. -/
def reject : RequestIO := { io.retire fd with handled := io.handled + 1 }

/-- `DispatchTask`, with the pool's answer. -/
def dispatchTask (raw : Bytes) (accepted : Bool) : RequestIO :=
  if accepted then { io with queue := io.queue ++ [⟨fd, raw⟩] } else io.reject fd

/-- The requests of a call that were answered inline, all but one that an exception ended. -/
def served (out : ReadOutcome) : List Bytes :=
  if io.pool then []
  else
    match out.stop with
    | .escaped _ => out.handed.dropLast
    | _ => out.handed

/-- The size of the read buffer, which only grows. -/
def bufsz : ℕ :=
  max io.scratch (min (if io.cfg.readChunk > 0 then io.cfg.readChunk.toNat else 16384) (2^20))

/-- The traces of a call that do not depend on how it ends. -/
def record (out : ReadOutcome) : RequestIO :=
  let h := io.history fd
  { io with
    scratch := io.bufsz
    handled := io.handled + .ofNat (io.served out).length
    history := Function.update io.history fd
      ⟨h.received ++ out.got, h.handed ++ out.handed, h.written ++ io.served out⟩ }

def readOutcome (env : ReadEnv) : ReadOutcome :=
  readable io.cfg io.pool io.bufsz env (io.pendingSlot fd)

/-- What the end of a call does to the connection: a dispatched request leaves a slot behind only
for the bytes after it. -/
def finishRead (accepted : Bool) : ReadEnd → RequestIO
  | .waits st => (io.setSlot fd st).rearmWait fd
  | .rejected _ => io.reject fd
  | .closed => io.retire fd
  | .dispatched raw st =>
    (if st.buffer = [] then io.dropPending fd
      else io.setSlot fd { st with dispatching := true }).dispatchTask fd raw accepted
  | .escaped st => { io.setSlot fd st with unwinding := true }

def handleReadable (env : ReadEnv) : RequestIO :=
  let out := io.readOutcome fd env
  (io.record fd out).finishRead fd env.accepted out.stop

/-- The slot starts over, with the bytes it holds, and the descriptor is armed. -/
def rearmed (now : Ticks) : RequestIO :=
  (io.setSlot fd { io.pendingSlot fd with
    start := now, lastActivity := now, expected := 0, headKnown := false,
    dispatching := false }).epollMod fd

/-- `RearmConnection`, with the clock it reads first and the call of `HandleReadable` behind it. -/
def rearmConnection (now : Ticks) (env : ReadEnv) : RequestIO :=
  let io := io.rearmed fd now
  if (io.pendingSlot fd).buffer ≠ [] then io.handleReadable fd env else io

end

/-- A worker takes the task in front of the queue. -/
def take (io : RequestIO) : Option RequestIO :=
  match io.queue with
  | [] => none
  | t :: rest => some { io with queue := rest, running := io.running ++ [t] }

theorem take_eq_some {io io' : RequestIO} (h : io.take = some io') :
    ∃ t rest, io.queue = t :: rest ∧
      io' = { io with queue := rest, running := io.running ++ [t] } := by
  unfold take at h
  cases hqueue : io.queue with
  | nil =>
    rw [hqueue] at h
    cases h
  | cons t rest =>
    rw [hqueue] at h
    cases h
    exact ⟨t, rest, rfl, rfl⟩

/-- `ServeRequest` of a running task, with `complete_connection` at its end. What leaves the handler
as no `std::exception` ends in the worker's own catch. -/
def serveRequest (io : RequestIO) (i : ℕ) (handler : Handler) : Option RequestIO :=
  io.running[i]?.map fun t =>
    match handler with
    | .escapes => { io with running := io.running.eraseIdx i }
    | .returns keepAlive =>
      let h := io.history t.fd
      { io with
        running := io.running.eraseIdx i
        handled := io.handled + 1
        completed := io.completed ++ [⟨t.fd, keepAlive⟩]
        history := Function.update io.history t.fd { h with written := h.written ++ [t.raw] } }

/-- What one completion meets when it is drained. -/
structure DrainEnv where
  now : Ticks
  read : ReadEnv

def drainOne (io : RequestIO) (c : Completion) (env : DrainEnv) : RequestIO :=
  if c.keepAlive then io.rearmConnection c.fd env.now env.read else io.retire c.fd

def drainEach (envs : ℕ → DrainEnv) : List Completion → RequestIO → RequestIO
  | [], io => io
  | c :: rest, io => drainEach (fun i => envs (i + 1)) rest (io.drainOne c (envs 0))

def drainCompletions (io : RequestIO) (envs : ℕ → DrainEnv) : RequestIO :=
  drainEach envs io.completed { io with completed := [] }

/-- One connection out of `accept4`, and whether `EPOLL_CTL_ADD` takes it. -/
structure Accepted where
  fd : ℕ
  added : Bool
  now : Ticks
  deriving DecidableEq, Repr

/-- `accept4` answers with a descriptor that is not in use; an `int` holds it. -/
def unused (io : RequestIO) (fd : ℕ) : Bool :=
  fd ∉ io.openFds && fd < 2^31 && fd != io.listenerFd && fd != io.notifyFd

def acceptOne (io : RequestIO) (a : Accepted) : RequestIO :=
  let io := { io with
    openFds := insert a.fd io.openFds
    history := Function.update io.history a.fd {} }
  if io.cfg.maxConnections ≠ 0 ∧ io.active ≥ io.cfg.maxConnections then io.closeFd a.fd
  else if !a.added then io.closeFd a.fd
  else
    { io.setSlot a.fd { start := a.now, lastActivity := a.now } with
      active := io.active + 1
      armed := insert a.fd io.armed }

def acceptPending (io : RequestIO) : List Accepted → Option RequestIO
  | [] => some io
  | a :: rest => if io.unused a.fd then (io.acceptOne a).acceptPending rest else none

/-- What one event meets when it is processed: the accepts, or the completions that a drain finds,
the first of which also stands for the client's own call. -/
structure EventEnv where
  accepts : List Accepted
  drains : ℕ → DrainEnv

def dispatchClient (io : RequestIO) (e : Event) (env : ReadEnv) : RequestIO :=
  if e.hangup then
    let io := if e.readable then io.handleReadable e.fd env else io
    -- an exception on its way out skips the rest
    if io.unwinding then io
    else if io.hasPending e.fd then io.reject e.fd else io
  else if e.readable then io.handleReadable e.fd env else io

def dispatchEvent (io : RequestIO) (e : Event) (env : EventEnv) : Option RequestIO :=
  if e.fd = io.notifyFd then some (io.drainCompletions env.drains)
  else if e.fd = io.listenerFd then io.acceptPending env.accepts
  else some (io.dispatchClient e (env.drains 0).read)

def stale (cfg : Config) (now : Ticks) (st : ConnState) : Bool :=
  !st.dispatching && deadlineOver cfg now st

def sweepSlot (now : Ticks) (io : RequestIO) (fd : ℕ) : RequestIO :=
  match io.slot fd with
  | none => io
  | some st => if stale io.cfg now st then io.reject fd else io

/-- `SweepStale`; without timeouts no slot is stale. -/
def sweepStale (io : RequestIO) (now : Ticks) : RequestIO :=
  (List.range io.pending.length).foldl (sweepSlot now) io

/-- One turn of the last loop of `shutdown`; the slots go together behind it. -/
def closeSlot (io : RequestIO) (fd : ℕ) : RequestIO :=
  if io.hasPending fd then { io.closeFd fd with active := io.active - 1 } else io

/-- The rest of `shutdown` when the workers are gone: the completions, then the slots. -/
def shutdown (io : RequestIO) : RequestIO :=
  let done := io.completed
  let io := done.foldl (fun io c => io.retire c.fd) { io with completed := [] }
  let io := (List.range io.pending.length).foldl closeSlot io
  { io with pending := [] }

end RequestIO

end Vermell.Request
