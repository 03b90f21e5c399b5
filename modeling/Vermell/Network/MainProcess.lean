import Vermell.Network.Socket
import Vermell.Request.RouterEpoll

/-! `getMainProcess`: the listeners, epoll instances and notifiers that it sets up, the loops that
run on them, and the way down, over the descriptors of the process. -/
namespace Vermell.Network
open Runs Request

/-- What `getMainProcess` reads of the configuration. -/
structure MainConfig where
  acceptCount : ℕ
  reusePort : Bool := false
  backlog : ℤ := SOMAXCONN
  request : Request.Config := {}
  pool : Bool := false

/-- What the kernel answers to one turn of the setup. -/
structure LoopAnswers where
  on : OnAnswers
  getFlags : Bool := true
  setFlags : Bool := true
  epoll : Option ℕ
  add : Bool := true
  notify : Option ℕ

/-- `Loop`, with the eventfd that its `RequestIO` has opened. -/
structure EventLoop where
  listener : Server
  epfd : ℕ
  notifyFd : Option ℕ

/-- `throw` out of a turn leaves the listener and the kernel behind. -/
abbrev Turn := Except (Server × Kernel) (EventLoop × Kernel)

/-- A turn that gives up closes its listener. -/
def giveUp (listener : Server) (k : Kernel) : Turn :=
  let (listener, k, _) := listener.Close k true
  .error (listener, k)

/-- The constructor of `RequestIO` opens its eventfd; whether it can watch it, it does not ask. -/
def openNotify (listener : Server) (epfd : ℕ) (k : Kernel) : Option ℕ → Option Turn
  | none => some (.ok (⟨listener, epfd, none⟩, k))
  | some fd => (k.opened fd).map fun k => .ok (⟨listener, epfd, some fd⟩, k)

/-- The epoll instance of a turn, and the listener in it. -/
def openEpoll (listener : Server) (k : Kernel) (a : LoopAnswers) : Option Turn :=
  match a.epoll with
  | none => some (giveUp listener k)
  | some epfd => do
    let k ← k.opened epfd
    if a.add then openNotify listener epfd k a.notify
    else return giveUp listener (k.close epfd)

/-- One turn of the setup. -/
def setupTurn (c : MainConfig) (port : UInt16) (listener : Server) (k : Kernel) (a : LoopAnswers) :
    Option Turn := do
  let listener := (listener.setPort port).1
  let listener := listener.setReusePort (decide (c.acceptCount > 1) || c.reusePort)
  let listener := listener.setSessions c.backlog
  let (listener, k, status) ← listener.on k a.on
  if status = .VER_SOCKET_ERROR then return .error (listener, k)
  else
    match listener.socketId with
    | none => return giveUp listener k
    | some fd =>
      match k.setNonblocking fd a.getFlags a.setFlags with
      | .error k => return giveUp listener k
      | .ok k => openEpoll listener k a

/-- What a loop closes at the end: its epoll instance, then its listener. -/
def closeLoop (k : Kernel) (loop : EventLoop) : Kernel :=
  (loop.listener.Close (k.close loop.epfd) true).2.1

/-- A setup that gave up, with the loops that were built before, or all loops. -/
abbrev SetUp := Except (List EventLoop × Kernel) (List EventLoop × Kernel)

/-- The setup, from the loops that are built. The first listener is the connection itself. The catch
closes what was built. -/
def setup (c : MainConfig) (connection : Server) (answers : ℕ → LoopAnswers) :
    ℕ → List EventLoop → Kernel → Option SetUp
  | 0, loops, k => some (.ok (loops, k))
  | n + 1, loops, k => do
    let listener : Server := if loops = [] then connection else {}
    match ← setupTurn c (.ofInt connection.getPort) listener k (answers loops.length) with
    | .ok (loop, k) => setup c connection answers n (loops ++ [loop]) k
    | .error (_, k) => return .error (loops, loops.foldl closeLoop k)

namespace EventLoop

/-- The descriptors of a loop that runs. -/
def fds (l : EventLoop) : List ℕ := l.listener.socketId.toList ++ l.epfd :: l.notifyFd.toList

end EventLoop

section
variable {k k' : Kernel} {base : Finset ℕ} {own : List ℕ} {listener : Server} {fd : ℕ}

theorem Kernel.holds_close (h : k.Holds base own) (hfd : fd ∈ own) :
    (k.close fd).Holds base (own.erase fd) :=
  Descriptors.Holds.close h hfd

theorem openFds_closeLoop (k : Kernel) (loop : EventLoop) :
    (closeLoop k loop).openFds ⊆ k.openFds := by
  unfold closeLoop Server.Close
  cases loop.listener.socketId with
  | none => exact Finset.erase_subset _ _
  | some fd => exact (Finset.erase_subset _ _).trans (Finset.erase_subset _ _)

/-- Closing a loop leaves the eventfd of its `RequestIO` open. -/
theorem holds_closeLoop {loop : EventLoop} {rest : List ℕ} (h : k.Holds base (loop.fds ++ rest)) :
    (closeLoop k loop).Holds base (loop.notifyFd.toList ++ rest) := by
  have hfront : (loop.fds ++ rest).Perm
      (loop.epfd :: (loop.listener.socketId.toList ++ (loop.notifyFd.toList ++ rest))) := by
    unfold EventLoop.fds
    rw [List.append_assoc, List.cons_append]
    exact List.perm_middle
  have hepoll := Kernel.holds_close (Descriptors.Holds.perm h hfront) List.mem_cons_self
  rw [List.erase_cons_head] at hepoll
  unfold closeLoop Server.Close
  cases hs : loop.listener.socketId with
  | none =>
    rw [hs] at hepoll
    exact hepoll
  | some fd =>
    rw [hs, Option.toList_some, List.singleton_append] at hepoll
    have hclosed := Kernel.holds_close hepoll List.mem_cons_self
    rwa [List.erase_cons_head] at hclosed

end
end Vermell.Network
