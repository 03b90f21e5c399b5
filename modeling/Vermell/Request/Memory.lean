import Vermell.Request.Lanes
import Vermell.Request.SizeLimit

/-! The request bytes that the server holds between two steps: in the slots of its connections and
in the tasks of its pool. Whatever the clients send, they are within a bound. -/
namespace Vermell.Request
open Http Runs

namespace Lane

/-- The bytes of a connection in flight and in its slot. -/
def held (l : Lane) : ℕ := l.tasks.flatten.length + l.buffer.length

/-- As long as it is open, they are no more than one request may have. -/
def Fits (l : Lane) : Prop := l.isOpen → l.held ≤ l.cfg.maxRequestSize.toNat

end Lane

namespace RequestIO

/-- The bytes in the slots and in the tasks that are queued or run. -/
def bytesHeld (io : RequestIO) : ℕ :=
  (∑ fd ∈ Finset.range io.pending.length, (io.pendingSlot fd).buffer.length) +
    ((io.running ++ io.queue).map fun t => t.raw.length).sum

section
variable {io : RequestIO} {fd : ℕ} {done : List Completion} {env : ReadEnv}

/-- What a call leaves of its bytes was in the slot at once, within the limit. -/
theorem outcome_within (hst : (io.pendingSlot fd).Sound)
    (hfits : (io.pendingSlot fd).buffer.length ≤ io.cfg.maxRequestSize.toNat)
    (hopen : fd ∈ (io.handleReadable fd env).openFds) :
    (((io.readOutcome fd env).stop.tasks fd).map Task.raw).flatten.length +
        ((io.readOutcome fd env).stop.slot?.getD {}).buffer.length ≤
      io.cfg.maxRequestSize.toNat := by
  obtain ⟨-, st, hst', -⟩ := finishRead_open _ fd hopen
  have hwithin := (readable_within io.cfg io.pool io.bufsz env (io.pendingSlot fd) hfits).2 st hst'
  have hbuffer := (ReadEnd.slot?_buffer hst').1
  rw [hbuffer]
  rcases (io.readOutcome fd env).stop.tasks_cases fd with hnone | ⟨raw, s, hstop, hone⟩
  · rw [hnone]
    simpa using hwithin
  · rw [hstop] at hst'
    cases hst'
    obtain ⟨harrived, -⟩ := io.dispatched_cut fd env hst hstop
    have hall : (raw ++ st.buffer).length ≤ io.cfg.maxRequestSize.toNat := by
      unfold arrived at harrived
      cases hloop : readLoop io.cfg io.bufsz ((io.pendingSlot fd).started env.now) [] env.recvs with
      | reject r got =>
        rw [hloop] at harrived
        cases harrived
      | ok st₁ got peerClosed =>
        rw [hloop] at harrived
        rw [← Option.some.inj harrived]
        rw [← ConnState.started_buffer _ env.now] at hfits
        exact (readLoop_within hfits hloop).1
    rw [hone]
    simpa using hall

end

/-- What is kept of a connection that holds no more than one request may have. -/
theorem memoryRule : LaneRule (fun _ => True) True Lane.Fits Lane.Fits where
  own h _ := h
  read := by
    intro io done fd env held _ h hopen
    have hleft := lane_open held.idle hopen
    have hfits := h held.isOpen
    have hcfg : ((io.handleReadable fd env).lane done fd).cfg = io.cfg :=
      congrArg Prod.fst (io.setup_handleReadable fd env)
    have hbuffer : ((io.handleReadable fd env).lane done fd).buffer =
        ((io.readOutcome fd env).stop.slot?.getD {}).buffer := by
      rw [← hleft.2]
      rfl
    rw [Lane.held, hleft.1, hbuffer, hcfg]
    apply outcome_within held.sound _ hopen
    exact (Nat.le_add_left _ _).trans hfits
  armed h hbuffer := by
    intro hopen
    have hfits := h hopen
    rw [Lane.held, ← hbuffer] at hfits
    exact hfits
  drained h _ := h
  closed _ _ hclosed := fun hopen => absurd hopen hclosed
  fresh _ htasks hbuffer := by
    intro hopen
    simp [Lane.held, htasks, hbuffer hopen]
  served h _ _ := fun hopen => le_trans (Nat.add_le_add_right (Nat.zero_le _) _) (h hopen)
  lost _ h _ _ := fun hopen => le_trans (Nat.add_le_add_right (Nat.zero_le _) _) (h hopen)

/-- Tasks of open connections, counted connection by connection. -/
theorem sum_tasks {tasks : List Task} {s : Finset ℕ} (h : ∀ t ∈ tasks, t.fd ∈ s) :
    (tasks.map fun t => t.raw.length).sum =
      ∑ fd ∈ s, ((tasks.filter (·.fd == fd)).map Task.raw).flatten.length := by
  induction tasks with
  | nil => simp
  | cons t rest ih =>
    obtain ⟨ht, hrest⟩ := List.forall_mem_cons.mp h
    have hsplit (fd : ℕ) : (((t :: rest).filter (·.fd == fd)).map Task.raw).flatten.length =
        (if t.fd = fd then t.raw.length else 0) +
          ((rest.filter (·.fd == fd)).map Task.raw).flatten.length := by
      by_cases hfd : t.fd = fd
      · simp [hfd]
      · simp [hfd]
    simp only [hsplit, Finset.sum_add_distrib, Finset.sum_ite_eq, if_pos ht, ← ih hrest,
      List.map_cons, List.sum_cons]

theorem Ruled.bytesHeld_le {io : RequestIO} (h : Ruled Lane.Fits io []) :
    io.bytesHeld ≤ io.openFds.card * io.cfg.maxRequestSize.toNat := by
  have hslots : (∑ fd ∈ Finset.range io.pending.length, (io.pendingSlot fd).buffer.length) ≤
      ∑ fd ∈ io.openFds, (io.pendingSlot fd).buffer.length := by
    apply Finset.sum_le_sum_of_ne_zero
    intro fd _ hfilled
    by_contra hclosed
    rw [pendingSlot, ((h.kept.ledgers fd).closed hclosed).2] at hfilled
    exact hfilled rfl
  have htasks : ∀ t ∈ io.running ++ io.queue, t.fd ∈ io.openFds := by
    intro t ht
    by_contra hclosed
    have hnone := (lane_idle ((h.kept.ledgers t.fd).closed hclosed).1).1
    have hmem : t.raw ∈ (io.lane [] t.fd).tasks := by
      apply List.mem_map_of_mem
      simpa using ht
    rw [hnone] at hmem
    cases hmem
  calc io.bytesHeld
      ≤ (∑ fd ∈ io.openFds, (io.pendingSlot fd).buffer.length) +
          ∑ fd ∈ io.openFds, (io.lane [] fd).tasks.flatten.length := by
        rw [bytesHeld, sum_tasks htasks]
        exact Nat.add_le_add_right hslots _
    _ = ∑ fd ∈ io.openFds, (io.lane [] fd).held := by
        rw [← Finset.sum_add_distrib]
        exact Finset.sum_congr rfl fun fd _ => Nat.add_comm _ _
    _ ≤ io.openFds.card • io.cfg.maxRequestSize.toNat :=
        Finset.sum_le_card_nsmul _ _ _ fun fd hopen => h.lanes fd hopen
    _ = io.openFds.card * io.cfg.maxRequestSize.toNat := smul_eq_mul _ _

end RequestIO

open RequestIO

/-- Along every orderly run the request bytes that the loop and its pool hold are at most the limit
of one request for each open connection, so with a cap on the connections they are bounded whatever
the clients do. -/
theorem memory_bounded (cfg : Config) (pool : Bool) (listenerFd notifyFd : ℕ) (ls : List LoopStep)
    (horderly : Guarded step Orderly (start cfg pool listenerFd notifyFd) ls) :
    Along step
      (fun io => io.bytesHeld ≤ io.openFds.card * cfg.maxRequestSize.toNat ∧
        (cfg.maxConnections ≠ 0 →
          io.bytesHeld ≤ cfg.maxConnections.toNat * cfg.maxRequestSize.toNat))
      (start cfg pool listenerFd notifyFd) ls := by
  have hallows : ∀ l ∈ ls, Allows (fun _ => True) True l := by
    intro l _
    cases l <;> simp [Allows]
  have hruled := ruled_along memoryRule cfg pool listenerFd notifyFd hallows horderly
  have hcfg : Along step (fun io => io.cfg = cfg) (start cfg pool listenerFd notifyFd) ls := by
    refine along_of_invariant (P := fun io : RequestIO => io.cfg = cfg) ?_ rfl ls
    intro io l io' h hs
    exact (congrArg Prod.fst (setup_step hs)).trans h
  refine (hruled.and hcfg).mono ?_
  rintro io ⟨h, rfl⟩
  have hheld := h.bytesHeld_le
  refine ⟨hheld, fun hmax => hheld.trans (Nat.mul_le_mul_right _ ?_)⟩
  rw [← h.kept.totals.count]
  exact UInt64.le_iff_toNat_le.mp (h.kept.totals.cap hmax)

/-- One connection with a task and bytes behind it, and one with the front of a request. -/
def heldRun : List LoopStep :=
  let get := bytes "GET / HTTP/1.0\r\n\r\n"
  [.wait [⟨3, true, false⟩], .event ⟨[⟨5, true, 0⟩, ⟨6, true, 0⟩], fun _ => ⟨0, {}⟩⟩, .sweep 1,
    .wait [⟨5, true, false⟩, ⟨6, true, false⟩],
    .event ⟨[], fun _ => ⟨1, { recvs := [.data (get ++ get.take 6) 1] }⟩⟩,
    .event ⟨[], fun _ => ⟨1, { recvs := [.data (get.take 6) 1] }⟩⟩, .sweep 1, .take]

theorem memory_bounded_held :
    let cfg : Config := { maxConnections := 2, maxRequestSize := 24 }
    ((exec step (start cfg true 3 4) heldRun).map bytesHeld = some 30) ∧
      Along step (fun io => io.bytesHeld ≤ 48) (start cfg true 3 4) heldRun := by
  intro cfg
  refine ⟨by decide +kernel, ?_⟩
  exact (memory_bounded cfg true 3 4 heldRun (by decide +kernel)).mono fun _ h => h.2 (by decide)

end Vermell.Request
