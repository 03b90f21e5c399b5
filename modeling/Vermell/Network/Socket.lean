import Vermell.Descriptors
import Vermell.Runs

/-! `Engine` and `Server`: the listening socket, its knobs, and `on` and `Close` over the calls that
they make into the kernel. -/
namespace Vermell.Network
open Runs

def DEFAULT_PORT : UInt16 := 0xBB8
def DEF_BUFFER_SIZE : ℤ := 0x400
def MAX_BUFFER_SIZE : ℤ := 16*1024*1024
def MAX_SESSIONS : ℤ := 65535
def SOMAXCONN : ℤ := 4096
def INT_MAX : ℤ := 2^31 - 1

inductive Status
  | VER_SOCKET_OK
  | VER_SOCKET_ERROR
  deriving DecidableEq, Repr

/-- What the kernel knows of a socket. -/
structure SocketState where
  reuseAddr : Bool := false
  noDelay : Bool := false
  reusePort : Bool := false
  nonblocking : Bool := false
  bound : Option UInt16 := none
  backlog : Option ℤ := none
  deriving DecidableEq, Repr

structure Kernel extends Descriptors where
  socket : ℕ → SocketState := fun _ => {}

/-- The members of `Engine` and `Server` that outlive a call. -/
structure Server where
  PORT : UInt16 := DEFAULT_PORT
  socketId : Option ℕ := none
  bufferSize : ℤ := DEF_BUFFER_SIZE
  staticSessions : ℤ := 10
  writeTimeoutMs : ℤ := 5000
  reusePort : Bool := false
  deriving DecidableEq, Repr

/-- What the kernel answers to the calls of `on`, in their order. -/
structure OnAnswers where
  socket : Option ℕ
  reuseAddr : Bool := true
  noDelay : Bool := true
  reusePort : Bool := true
  getFlags : Bool := true
  setFlags : Bool := true
  bind : Bool := true
  listen : Bool := true
  deriving DecidableEq, Repr

namespace Kernel

def opened (k : Kernel) (fd : ℕ) : Option Kernel :=
  (k.toDescriptors.opened fd).map fun d => ⟨d, Function.update k.socket fd {}⟩

def close (k : Kernel) (fd : ℕ) : Kernel := { k with toDescriptors := k.toDescriptors.close fd }

/-- A call that changes one socket, if it succeeds. -/
def call (k : Kernel) (fd : ℕ) (succeeds : Bool) (f : SocketState → SocketState) :
    Except Kernel Kernel :=
  if succeeds then .ok { k with socket := Function.update k.socket fd (f (k.socket fd)) }
  else .error k

/-- `setNonblocking`: the flags are read, then written. -/
def setNonblocking (k : Kernel) (fd : ℕ) (getFlags setFlags : Bool) : Except Kernel Kernel := do
  let k ← k.call fd getFlags id
  k.call fd setFlags fun x => { x with nonblocking := true }

end Kernel

namespace Server
variable (s : Server)

def setPort (xPort : UInt16) : Server × Status :=
  if xPort = 0 then (s, .VER_SOCKET_ERROR) else ({ s with PORT := xPort }, .VER_SOCKET_OK)

/-- The port, or `VER_SOCKET_ERROR`. -/
def getPort : ℤ := if s.PORT > 0 then s.PORT.toNat else -1

def setBuffer (size : ℤ) : Server × Status :=
  if size ≤ 0 ∨ size > MAX_BUFFER_SIZE then (s, .VER_SOCKET_ERROR)
  else ({ s with bufferSize := size }, .VER_SOCKET_OK)

def setSessions (max : ℤ) : Server :=
  if max ≤ 0 ∨ max > MAX_SESSIONS then s else { s with staticSessions := max }

def setWriteTimeout (timeout : ℤ) : Server :=
  { s with writeTimeoutMs := max 1 (min timeout INT_MAX) }

def setReusePort (enable : Bool) : Server := { s with reusePort := enable }

/-- The queue length that `listen` is called with. -/
def backlog : ℤ := if s.staticSessions > 0 then s.staticSessions else SOMAXCONN

/-- The calls on the fresh socket, up to the first that fails. -/
def configure (fd : ℕ) (a : OnAnswers) (k : Kernel) : Except Kernel Kernel := do
  let k ← k.call fd a.reuseAddr fun x => { x with reuseAddr := true }
  -- the answer to TCP_NODELAY is ignored
  let k := (k.call fd a.noDelay fun x => { x with noDelay := true }).toOption.getD k
  let k ←
    if s.reusePort then k.call fd a.reusePort fun x => { x with reusePort := true } else pure k
  let k ← k.setNonblocking fd a.getFlags a.setFlags
  let k ← k.call fd a.bind fun x => { x with bound := some s.PORT }
  k.call fd a.listen fun x => { x with backlog := some s.backlog }

/-- The socket that is left from an earlier `on`. -/
def dropStale (k : Kernel) : Server × Kernel :=
  match s.socketId with
  | none => (s, k)
  | some fd => ({ s with socketId := none }, k.close fd)

/-- `on`. Its catch closes the socket that it has opened. -/
def on (k : Kernel) (a : OnAnswers) : Option (Server × Kernel × Status) :=
  let (s, k) := s.dropStale k
  match a.socket with
  | none => some (s, k, .VER_SOCKET_ERROR)
  | some fd => do
    let k ← k.opened fd
    match s.configure fd a k with
    | .ok k => return ({ s with socketId := some fd }, k, .VER_SOCKET_OK)
    | .error k => return ({ s with socketId := none }, k.close fd, .VER_SOCKET_ERROR)

/-- `Close`, which forgets the descriptor before it asks the kernel; a `close` that reports an error
has released the descriptor as well. -/
def Close (k : Kernel) (closed : Bool) : Server × Kernel × Status :=
  match s.socketId with
  | none => (s, k, .VER_SOCKET_OK)
  | some fd => ({ s with socketId := none }, k.close fd,
      if closed then .VER_SOCKET_OK else .VER_SOCKET_ERROR)

end Server

/-- A server object and the kernel it calls. -/
structure Host where
  server : Server
  kernel : Kernel

inductive ServerCall
  | on (a : OnAnswers)
  | Close (closed : Bool)
  | setPort (port : UInt16)
  | setBuffer (size : ℤ)
  | setSessions (max : ℤ)
  | setWriteTimeout (timeout : ℤ)
  | setReusePort (enable : Bool)

namespace Host

def step (h : Host) : ServerCall → Option Host
  | .on a => (h.server.on h.kernel a).map fun (s, k, _) => ⟨s, k⟩
  | .Close closed =>
    let (s, k, _) := h.server.Close h.kernel closed
    some ⟨s, k⟩
  | .setPort port => some { h with server := (h.server.setPort port).1 }
  | .setBuffer size => some { h with server := (h.server.setBuffer size).1 }
  | .setSessions max => some { h with server := h.server.setSessions max }
  | .setWriteTimeout timeout => some { h with server := h.server.setWriteTimeout timeout }
  | .setReusePort enable => some { h with server := h.server.setReusePort enable }

end Host

/-- The knobs of a server stay where the kernel can take them. -/
structure Knobs (s : Server) : Prop where
  port : s.PORT ≠ 0
  buffer : 0 < s.bufferSize ∧ s.bufferSize ≤ MAX_BUFFER_SIZE
  sessions : 0 < s.staticSessions ∧ s.staticSessions ≤ MAX_SESSIONS
  timeout : 0 < s.writeTimeoutMs ∧ s.writeTimeoutMs ≤ INT_MAX

/-- A socket that listens. -/
structure Listening (x : SocketState) : Prop where
  reuseAddr : x.reuseAddr = true
  nonblocking : x.nonblocking = true
  bound : ∃ port, x.bound = some port ∧ port ≠ 0
  backlog : ∃ n, x.backlog = some n ∧ 0 < n ∧ n ≤ MAX_SESSIONS

/-- Beyond the descriptors that were there before, the process holds the server's own socket if
there is one, and that socket listens. -/
structure Tidy (base : Finset ℕ) (h : Host) : Prop where
  holds : h.kernel.Holds base h.server.socketId.toList
  knobs : Knobs h.server
  listening : ∀ fd, h.server.socketId = some fd → Listening (h.kernel.socket fd)

/-- The answers with which `on` succeeds. -/
def OnAnswers.succeeds (a : OnAnswers) (reusePort : Bool) : Bool :=
  a.reuseAddr && (!reusePort || a.reusePort) && a.getFlags && a.setFlags && a.bind && a.listen

/-- The socket that a server with these knobs listens on. -/
def Server.listener (s : Server) (noDelay : Bool) : SocketState :=
  { reuseAddr := true
    noDelay := noDelay
    reusePort := s.reusePort
    nonblocking := true
    bound := some s.PORT
    backlog := some s.backlog }

section
variable {s : Server} {k k' : Kernel} {fd : ℕ} {base : Finset ℕ} {own : List ℕ} {a : OnAnswers}

theorem Kernel.holds_opened (h : k.Holds base own) (hk : k.opened fd = some k') :
    k'.Holds base (fd :: own) ∧ k'.socket fd = {} := by
  obtain ⟨d, hd, rfl⟩ := Option.map_eq_some_iff.mp hk
  exact ⟨Descriptors.Holds.opened h hd, Function.update_self fd _ k.socket⟩

/-- The calls on the socket leave the descriptors alone, and when all succeed it listens as the
server says. -/
theorem configure_cases (hfresh : k.socket fd = {}) :
    if a.succeeds s.reusePort then
      ∃ k', s.configure fd a k = .ok k' ∧ k'.toDescriptors = k.toDescriptors ∧
        k'.socket fd = s.listener a.noDelay
    else ∃ k', s.configure fd a k = .error k' ∧ k'.toDescriptors = k.toDescriptors := by
  obtain ⟨socket, reuseAddr, noDelay, reusePort, getFlags, setFlags, bind, listen⟩ := a
  cases reuseAddr with
  | false => exact ⟨k, rfl, rfl⟩
  | true =>
    unfold Server.configure Kernel.setNonblocking OnAnswers.succeeds Server.listener
    cases s.reusePort <;> cases reusePort <;> cases noDelay <;> cases getFlags <;>
      cases setFlags <;> cases bind <;> cases listen <;>
      simp [Kernel.call, Bind.bind, Except.bind, pure, Except.pure, Except.toOption, hfresh]

/-- What `on` leaves behind: a socket that listens and is the only one, or none. -/
inductive Opened (s : Server) (base : Finset ℕ) (a : OnAnswers) : Server × Kernel × Status → Prop
  | listens {fd : ℕ} {k : Kernel} (answered : a.socket = some fd)
      (succeeds : a.succeeds s.reusePort = true) (holds : k.Holds base [fd])
      (socket : k.socket fd = s.listener a.noDelay) :
      Opened s base a ({ s with socketId := some fd }, k, .VER_SOCKET_OK)
  | fails {k : Kernel} (reason : a.socket = none ∨ a.succeeds s.reusePort = false)
      (holds : k.Holds base []) :
      Opened s base a ({ s with socketId := none }, k, .VER_SOCKET_ERROR)

/-- The stale socket is closed before a new one is opened. -/
theorem holds_dropStale (h : k.Holds base s.socketId.toList) :
    (s.dropStale k).1 = { s with socketId := none } ∧ (s.dropStale k).2.Holds base [] := by
  unfold Server.dropStale
  cases hs : s.socketId with
  | none =>
    rw [hs] at h
    obtain ⟨PORT, socketId, bufferSize, staticSessions, writeTimeoutMs, reusePort⟩ := s
    cases hs
    exact ⟨rfl, h⟩
  | some fd =>
    rw [hs] at h
    exact ⟨rfl, Descriptors.Holds.close_last h⟩

theorem on_opened (h : k.Holds base s.socketId.toList) {result : Server × Kernel × Status}
    (hon : s.on k a = some result) : Opened s base a result := by
  obtain ⟨hserver, hholds⟩ := holds_dropStale h
  unfold Server.on at hon
  generalize s.dropStale k = dropped at hserver hholds hon
  obtain ⟨s₀, k₀⟩ := dropped
  obtain rfl : s₀ = { s with socketId := none } := hserver
  change k₀.Holds base [] at hholds
  simp only at hon
  cases hsocket : a.socket with
  | none =>
    rw [hsocket] at hon
    cases hon
    exact .fails (Or.inl hsocket) hholds
  | some fd =>
    rw [hsocket] at hon
    obtain ⟨k₁, hk₁, hon⟩ := Option.bind_eq_some_iff.mp hon
    obtain ⟨hown, hfresh⟩ := Kernel.holds_opened hholds hk₁
    have hcases := configure_cases (s := { s with socketId := none }) (a := a) hfresh
    split_ifs at hcases with hsucceeds
    · obtain ⟨k₂, hok, hsame, hlistener⟩ := hcases
      rw [hok] at hon
      cases hon
      refine .listens hsocket hsucceeds ?_ hlistener
      rw [hsame]
      exact hown
    · obtain ⟨k₂, herror, hsame⟩ := hcases
      rw [herror] at hon
      cases hon
      refine .fails (Or.inr (by simpa using hsucceeds)) ?_
      change (k₂.toDescriptors.close fd).Holds base []
      rw [hsame]
      exact hown.close_last

theorem listening_listener (h : Knobs s) (noDelay : Bool) : Listening (s.listener noDelay) where
  reuseAddr := rfl
  nonblocking := rfl
  bound := ⟨s.PORT, rfl, h.port⟩
  backlog := ⟨s.backlog, rfl, by rw [Server.backlog, if_pos h.sessions.1]; exact h.sessions⟩

/-- A call of `on` keeps the process tidy. -/
theorem Tidy.on {h h' : Host} (ht : Tidy base h) (hs : h.step (.on a) = some h') :
    Tidy base h' := by
  obtain ⟨result, hon, rfl⟩ := Option.map_eq_some_iff.mp hs
  cases on_opened ht.holds hon with
  | @listens fd k answered succeeds holds socket =>
    refine ⟨holds, ⟨ht.knobs.port, ht.knobs.buffer, ht.knobs.sessions, ht.knobs.timeout⟩, ?_⟩
    intro fd' hfd
    cases hfd
    change Listening (k.socket fd)
    rw [socket]
    exact listening_listener ht.knobs a.noDelay
  | fails reason holds =>
    refine ⟨holds, ⟨ht.knobs.port, ht.knobs.buffer, ht.knobs.sessions, ht.knobs.timeout⟩, ?_⟩
    intro fd' hfd
    cases hfd

/-- And so does one of `Close`. -/
theorem Tidy.close {h h' : Host} (ht : Tidy base h) {closed : Bool}
    (hs : h.step (.Close closed) = some h') : Tidy base h' ∧ h'.server.socketId = none := by
  have hholds := ht.holds
  simp only [Host.step, Server.Close] at hs
  cases hsocket : h.server.socketId with
  | none =>
    rw [hsocket] at hs
    cases hs
    exact ⟨ht, hsocket⟩
  | some fd =>
    rw [hsocket] at hs hholds
    cases hs
    refine ⟨⟨Descriptors.Holds.close_last hholds, ?_, fun _ hfd => by cases hfd⟩, rfl⟩
    exact ⟨ht.knobs.port, ht.knobs.buffer, ht.knobs.sessions, ht.knobs.timeout⟩

/-- A knob takes a value in its range or stays. -/
theorem Tidy.knob {h : Host} (ht : Tidy base h) {s : Server} (hsocket : s.socketId =
    h.server.socketId) (hknobs : Knobs s) : Tidy base { h with server := s } :=
  ⟨by rw [hsocket]; exact ht.holds, hknobs, fun fd hfd => ht.listening fd (hsocket ▸ hfd)⟩

theorem Tidy.step {h h' : Host} {c : ServerCall} (ht : Tidy base h) (hs : h.step c = some h') :
    Tidy base h' := by
  obtain ⟨hport, hbuffer, hsessions, htimeout⟩ := ht.knobs
  cases c with
  | on a => exact ht.on hs
  | Close closed => exact (ht.close hs).1
  | setPort port =>
    cases hs
    unfold Server.setPort
    split_ifs with hzero
    · exact ht
    · exact ht.knob rfl ⟨hzero, hbuffer, hsessions, htimeout⟩
  | setBuffer size =>
    cases hs
    unfold Server.setBuffer
    split_ifs with hrange
    · exact ht
    · have hsize : 0 < size ∧ size ≤ MAX_BUFFER_SIZE := by omega
      exact ht.knob rfl ⟨hport, hsize, hsessions, htimeout⟩
  | setSessions max =>
    cases hs
    unfold Server.setSessions
    split_ifs with hrange
    · exact ht
    · have hmax : 0 < max ∧ max ≤ MAX_SESSIONS := by omega
      exact ht.knob rfl ⟨hport, hbuffer, hmax, htimeout⟩
  | setWriteTimeout timeout =>
    cases hs
    refine ht.knob rfl ⟨hport, hbuffer, hsessions, ?_⟩
    simp only [Server.setWriteTimeout, INT_MAX]
    omega
  | setReusePort enable =>
    cases hs
    exact ht.knob rfl ⟨hport, hbuffer, hsessions, htimeout⟩

end

theorem knobs_fresh : Knobs {} :=
  ⟨by decide, by decide, by decide, by decide⟩

theorem tidy_start (base : Finset ℕ) (socket : ℕ → SocketState) :
    Tidy base ⟨{}, ⟨⟨base, []⟩, socket⟩⟩ where
  holds := Descriptors.holds_nil (d := ⟨base, []⟩) fun _ hc => by cases hc
  knobs := knobs_fresh
  listening := fun _ hfd => by cases hfd

/-- Over any calls of a server, whatever the kernel answers: the process holds at most one
descriptor more than it did before, the one of the server, which listens; every close met an open
descriptor; `on` succeeds exactly when its calls do, with a socket as the knobs say, and leaves
nothing open when it fails; and behind `Close` the process holds what it held before. -/
theorem server_tidy (base : Finset ℕ) (socket : ℕ → SocketState) (calls : List ServerCall) :
    Along Host.step (fun h => Tidy base h ∧
      (∀ a result, h.server.on h.kernel a = some result → Opened h.server base a result) ∧
      ∀ closed h', h.step (.Close closed) = some h' → h'.kernel.openFds = base)
      ⟨{}, ⟨⟨base, []⟩, socket⟩⟩ calls := by
  have halong : Along Host.step (Tidy base) ⟨{}, ⟨⟨base, []⟩, socket⟩⟩ calls :=
    along_of_invariant (fun _ _ _ ht hs => ht.step hs) (tidy_start base socket) calls
  refine halong.mono fun h ht => ⟨ht, fun a result hon => on_opened ht.holds hon, ?_⟩
  intro closed h' hs
  obtain ⟨hclosed, hnone⟩ := ht.close hs
  have hholds := hclosed.holds.openFds
  rw [hnone] at hholds
  simpa using hholds

end Vermell.Network
