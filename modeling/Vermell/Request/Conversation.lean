import Vermell.Request.Arrival
import Vermell.Router.Exchange
import Vermell.Router.Send

/-! One connection of a server without a pool, from the bytes of its requests to the bytes of its
responses: `HandleReadable` cuts a request off the stream, `ExecuteRoute` answers it and
`sendResponse` writes the answer before the next request is cut. -/
namespace Vermell.Request
open Http Text Router Runs

/-- What one request of the connection meets. -/
structure Turn where
  world : World
  tables : Tables
  allow : Bool
  outcomes : List SendOutcome

namespace Turn

/-- What is sent and returned for a request; an exception that leaves `ExecuteRoute` sends
nothing. -/
def executed (turn : Turn) (raw : Bytes) : Executed :=
  match executeRoute turn.world turn.tables turn.allow raw with
  | .ok executed => executed
  | .error _ => ⟨[], [], false⟩

/-- The request as `HandleReadable` sees it end. -/
def handler (turn : Turn) (raw : Bytes) : Handler :=
  match executeRoute turn.world turn.tables turn.allow raw with
  | .ok executed => .returns executed.keepAlive
  | .error _ => .escapes

/-- The bytes that the socket accepts. -/
def wire (turn : Turn) (raw : Bytes) : Bytes :=
  (sendResponse (turn.executed raw).head (turn.executed raw).body turn.outcomes).getD []

/-- The handlers leave the framing alone and throw nothing but a `std::exception`, and the socket
takes the response whole. -/
structure Answers (turn : Turn) (raw : Bytes) : Prop where
  plain : turn.tables.Plain
  std : StdExceptionsOnly turn.tables
  sends : sendResponse (turn.executed raw).head (turn.executed raw).body turn.outcomes =
    some ((turn.executed raw).head ++ (turn.executed raw).body)

end Turn

/-- All that is written for the requests of a connection. -/
def output (turns : ℕ → Turn) (handed : List Bytes) : Bytes :=
  (handed.mapIdx fun i raw => (turns i).wire raw).flatten

namespace RequestIO

/-- The handlers of a call are the turns of the requests that the call hands over. -/
def Follows (turns : ℕ → Turn) (io : RequestIO) (fd : ℕ) (env : ReadEnv) : Prop :=
  ∀ p ∈ (io.readOutcome fd env).handed.zipIdx,
    env.handlers p.2 = (turns ((io.history fd).handed.length + p.2)).handler p.1

instance (turns : ℕ → Turn) (io : RequestIO) (fd : ℕ) (env : ReadEnv) :
    Decidable (io.Follows turns fd env) :=
  inferInstanceAs (Decidable (∀ p ∈ _, _))

/-- An open connection is read, unless an exception is on its way out. -/
def converse (turns : ℕ → Turn) (fd : ℕ) (io : RequestIO) : ConnectionStep → Option RequestIO
  | .configure cfg => some { io with cfg := cfg }
  | .readable env =>
    if fd ∈ io.openFds ∧ io.unwinding = false ∧ io.Follows turns fd env then
      some (io.handleReadable fd env)
    else none

end RequestIO

/-- The call ends with every request that it handed over kept alive. -/
def ReadEnd.keeps : ReadEnd → Bool
  | .waits _ => true
  | .rejected _ => true
  | .closed => false
  | .dispatched _ _ => true
  | .escaped _ => false

section
variable (cfg : Config) (env : ReadEnv) (peerClosed dl : Bool)

/-- Behind a request that does not keep the connection the loop hands over no other. -/
theorem serveLoop_kept (st : ConnState) (handed : List Bytes) :
    ∃ served, (serveLoop cfg false env peerClosed dl st handed).1 = handed ++ served ∧
      ∀ i < served.length, (i + 1 < served.length ∨
          (serveLoop cfg false env peerClosed dl st handed).2.keeps = true) →
        env.handlers (handed.length + i) = .returns true := by
  induction st, handed using serveLoop.induct cfg false env peerClosed dl with
  | case1 st handed r h =>
    rw [serveLoop_eq, h]
    exact ⟨[], by simp, by simp⟩
  | case2 st handed st' h =>
    rw [serveLoop_eq, h]
    exact ⟨[], by simp, by simp⟩
  | case3 st handed raw st' h hpool => cases hpool
  | case4 st handed raw st' h hpool hh =>
    rw [serveLoop_eq, h]
    simp only [if_neg hpool, hh]
    exact ⟨[raw], rfl, by simp [ReadEnd.keeps]⟩
  | case5 st handed raw st' h hpool hh =>
    rw [serveLoop_eq, h]
    simp only [if_neg hpool, hh]
    exact ⟨[raw], rfl, by simp [ReadEnd.keeps]⟩
  | case6 st handed raw st' h hpool hh hempty =>
    rw [serveLoop_eq, h]
    simp only [if_neg hpool, hh, if_pos hempty]
    refine ⟨[raw], rfl, ?_⟩
    intro i hi _
    obtain rfl : i = 0 := by simpa using hi
    exact hh
  | case7 st handed raw st' h hpool hh hempty ih =>
    rw [serveLoop_eq, h]
    obtain ⟨served, hserved, hkept⟩ := ih
    simp only [if_neg hpool, hh, if_neg hempty]
    refine ⟨raw :: served, by rw [hserved]; simp, ?_⟩
    intro i hi hlast
    cases i with
    | zero => exact hh
    | succ i =>
      have hnext := hkept i (by simpa using hi) (hlast.imp_left (by simp))
      rw [List.length_append, List.length_singleton] at hnext
      rwa [show handed.length + (i + 1) = handed.length + 1 + i by omega]

end

section
variable (cfg : Config) (bufsz : ℕ) (env : ReadEnv)

theorem readable_kept (st : ConnState) : ∀ i < (readable cfg false bufsz env st).handed.length,
    (i + 1 < (readable cfg false bufsz env st).handed.length ∨
        (readable cfg false bufsz env st).stop.keeps = true) →
      env.handlers i = .returns true := by
  unfold readable
  cases hr : readLoop cfg bufsz (st.started env.now) [] env.recvs with
  | reject r got => simp
  | ok st₁ got peerClosed =>
    simp only
    split_ifs with hempty
    · simp
    · obtain ⟨served, hserved, hkept⟩ :=
        serveLoop_kept cfg env peerClosed (deadlineOver cfg env.now st₁) st₁ []
      rw [List.nil_append] at hserved
      simpa [hserved] using hkept

end

namespace RequestIO

/-- All requests handed over are kept alive, but for the last one of a connection that has ended. -/
structure Conversed (turns : ℕ → Turn) (fd : ℕ) (io : RequestIO) : Prop where
  arrived : io.Arrived fd
  kept : ∀ i raw, (io.history fd).handed[i]? = some raw →
    (i + 1 < (io.history fd).handed.length ∨ fd ∈ io.openFds ∧ io.unwinding = false) →
      (turns i).handler raw = .returns true

variable {turns : ℕ → Turn} {fd : ℕ} {io : RequestIO}

theorem Conversed.handleReadable (h : io.Conversed turns fd) {env : ReadEnv}
    (hopen : fd ∈ io.openFds) (hunwinding : io.unwinding = false)
    (hfollows : io.Follows turns fd env) : (io.handleReadable fd env).Conversed turns fd := by
  refine ⟨h.arrived.handleReadable hopen env, ?_⟩
  have hkept := readable_kept io.cfg io.bufsz env (io.pendingSlot fd)
  have hout : readable io.cfg false io.bufsz env (io.pendingSlot fd) = io.readOutcome fd env := by
    rw [readOutcome, h.arrived.inline]
  rw [hout] at hkept
  rw [io.handleReadable_history fd env]
  intro i raw hraw hlast
  by_cases hold : i < (io.history fd).handed.length
  · rw [List.getElem?_append_left hold] at hraw
    exact h.kept i raw hraw (Or.inr ⟨hopen, hunwinding⟩)
  · -- a request of this call
    rw [List.getElem?_append_right (by omega)] at hraw
    obtain ⟨hlt, -⟩ := List.getElem?_eq_some_iff.mp hraw
    have hturn := hfollows (raw, i - (io.history fd).handed.length)
      (List.mem_zipIdx_iff_getElem?.mpr hraw)
    have hreturns := hkept (i - (io.history fd).handed.length) hlt (by
      rcases hlast with hbefore | ⟨hstill, hcalm⟩
      · simp only [List.length_append] at hbefore
        exact Or.inl (by omega)
      · obtain ⟨st, hstop, -⟩ := readOutcome_waits h.arrived.inline hstill hcalm
        exact Or.inr (by rw [hstop]; rfl))
    simp only at hturn
    rw [hreturns, Nat.add_sub_cancel' (not_lt.mp hold)] at hturn
    exact hturn.symm

theorem conversed_accept (hpool : io.pool = false) (a : Accepted) :
    (io.acceptOne a).Conversed turns a.fd := by
  refine ⟨arrived_accept hpool a, ?_⟩
  rw [history_accept]
  intro i raw hraw
  cases hraw

theorem Conversed.step {io' : RequestIO} {l : ConnectionStep} (h : io.Conversed turns fd)
    (hs : io.converse turns fd l = some io') : io'.Conversed turns fd := by
  cases l with
  | configure cfg =>
    have harrived : ({ io with cfg := cfg } : RequestIO).Arrived fd :=
      h.arrived.visit (l := .configure cfg) rfl
    cases hs
    exact ⟨harrived, h.kept⟩
  | readable env =>
    simp only [converse] at hs
    split_ifs at hs with hgo
    obtain ⟨hopen, hunwinding, hfollows⟩ := hgo
    cases hs
    exact h.handleReadable hopen hunwinding hfollows

end RequestIO

open RequestIO

/-- Handlers that throw nothing but a `std::exception` let `ExecuteRoute` come to its end. -/
theorem executes_of_std {t : Tables} (h : StdExceptionsOnly t) (w : World) (allow : Bool)
    (raw : Bytes) : ∃ executed, executeRoute w t allow raw = .ok executed := by
  unfold executeRoute
  cases parse raw with
  | none => exact ⟨_, rfl⟩
  | some message =>
    obtain ⟨served, hserved⟩ : ∃ served, serveMessage w t message = .ok served := by
      cases hroute : routeFor t message with
      | none =>
        obtain ⟨served, hserved, -⟩ := serveMessage_without_route (w := w) hroute
        exact ⟨served, hserved⟩
      | some found =>
        obtain ⟨served, hserved, -⟩ := serveMessage_of_route (w := w) h hroute
        exact ⟨served, hserved⟩
    simp only [hserved, Bind.bind, Except.bind]
    exact ⟨_, rfl⟩

theorem Turn.Answers.executes {turn : Turn} {raw : Bytes} (h : turn.Answers raw) :
    executeRoute turn.world turn.tables turn.allow raw = .ok (turn.executed raw) ∧
      turn.handler raw = .returns (turn.executed raw).keepAlive := by
  obtain ⟨executed, hexecuted⟩ := executes_of_std h.std turn.world turn.allow raw
  simp [Turn.executed, Turn.handler, hexecuted]

/-- The response to one turn is read off the stream. -/
theorem Turn.Answers.read {turn : Turn} {raw : Bytes} (h : turn.Answers raw) (s : Bytes) :
    ∃ reply, Reply.read (headOnly raw) (turn.wire raw ++ s) = some (reply, s) ∧
      (turn.executed raw).ReadAs reply := by
  let e : Exchange := ⟨turn.world, turn.tables, turn.allow, raw, turn.executed raw⟩
  have hserved : e.Served := ⟨h.plain, h.executes.1⟩
  have hwire : turn.wire raw = e.executed.head ++ e.executed.body := by
    rw [Turn.wire, h.sends]
    rfl
  rw [hwire]
  exact hserved.read s

/-- What is written for one request after the other is read so. -/
theorem output_read {α : Type*} (turns : ℕ → Turn) (raw : α → Bytes)
    (P : ℕ → α → Reply → Prop) (items : List α) (h : ∀ i x, items[i]? = some x → ∀ s, ∃ reply,
      Reply.read (headOnly (raw x)) ((turns i).wire (raw x) ++ s) = some (reply, s) ∧
        P i x reply) :
    ∃ replies, Reply.readAll (items.map fun x => headOnly (raw x))
        (output turns (items.map raw)) = some (replies, []) ∧
      List.Forall₂ (fun p reply => P p.2 p.1 reply) items.zipIdx replies := by
  have hitems : ∀ p ∈ items.zipIdx, ∀ s, ∃ reply, Reply.read (headOnly (raw p.1))
      ((turns p.2).wire (raw p.1) ++ s) = some (reply, s) ∧ P p.2 p.1 reply :=
    fun p hp => h p.2 p.1 (List.mem_zipIdx_iff_getElem?.mp hp)
  obtain ⟨replies, hread, hforall⟩ := Reply.readAll_flatMap hitems []
  have hheads : items.zipIdx.map (fun p => headOnly (raw p.1)) =
      items.map fun x => headOnly (raw x) := by
    rw [← List.zipIdx_map_fst 0 items, List.map_map]
    simp
  have houtput : items.zipIdx.flatMap (fun p => (turns p.2).wire (raw p.1)) =
      output turns (items.map raw) := by
    rw [output, List.mapIdx_eq_zipIdx_map, List.flatMap_def, List.zipIdx_map, List.map_map]
    rfl
  rw [hheads, List.append_nil, houtput] at hread
  exact ⟨replies, hread, hforall⟩

end Vermell.Request
