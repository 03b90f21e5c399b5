import Vermell.Request.Effects

/-! The byte stream of one connection. As long as it is open, the requests handed over and the
bytes in its slot are what was received, and the slot is sound. -/
namespace Vermell.Request
open Http
namespace RequestIO

/-- The stream of an open connection: whole requests handed over, then the buffer. -/
structure Streamed (io : RequestIO) (fd : ℕ) : Prop where
  whole : ∀ raw ∈ (io.history fd).handed, inspect raw = ⟨.complete, raw.length⟩
  bytes : (io.history fd).handed.flatten ++ (io.pendingSlot fd).buffer = (io.history fd).received
  sound : (io.pendingSlot fd).Sound

theorem Streamed.handleReadable {io : RequestIO} {fd : ℕ} (h : io.Streamed fd) {env : ReadEnv}
    (hopen : fd ∈ (io.handleReadable fd env).openFds) : (io.handleReadable fd env).Streamed fd := by
  have hread := readable_sound io.cfg io.bufsz env io.pool h.sound
  change (∀ raw ∈ (io.readOutcome fd env).handed, _) ∧
    ∀ st, (io.readOutcome fd env).stop.state? = some st → _ at hread
  obtain ⟨hwhole, hleft⟩ := hread
  obtain ⟨-, st, hst, hbuffer, hsound⟩ := finishRead_open _ fd hopen
  obtain ⟨hbytes, hst'⟩ := hleft st hst
  refine ⟨?_, ?_, hsound hst'⟩
  · rw [handleReadable_history]
    intro raw hraw
    cases List.mem_append.mp hraw with
    | inl hraw =>
      exact h.whole raw hraw
    | inr hraw =>
      exact hwhole raw hraw
  · rw [handleReadable_history]
    change _ = _ at hbuffer
    calc ((io.history fd).handed ++ (io.readOutcome fd env).handed).flatten ++
          ((io.handleReadable fd env).pendingSlot fd).buffer
        = (io.history fd).handed.flatten ++
            ((io.readOutcome fd env).handed.flatten ++ st.buffer) := by
          rw [List.flatten_append, List.append_assoc]
          exact congrArg _ (congrArg _ hbuffer)
      _ = (io.history fd).handed.flatten ++
            ((io.pendingSlot fd).buffer ++ (io.readOutcome fd env).got) := congrArg _ hbytes
      _ = (io.history fd).received ++ (io.readOutcome fd env).got := by
          rw [← List.append_assoc, h.bytes]

theorem Streamed.rearmed {io : RequestIO} {fd : ℕ} (h : io.Streamed fd) (now : Ticks) :
    (io.rearmed fd now).Streamed fd := by
  obtain ⟨p, armed, heq, -⟩ := io.rearmed_eq fd now
  have hslot := io.pendingSlot_rearmed fd now
  rw [heq] at hslot ⊢
  refine ⟨h.whole, ?_, ?_⟩
  · rw [hslot]
    exact h.bytes
  · rw [hslot]
    exact ⟨h.sound.fits, by simp⟩

/-- One call on a connection; the configuration may be replaced in between. -/
inductive Call
  | config (cfg : Config)
  | readable (env : ReadEnv)
  | rearm (now : Ticks) (env : ReadEnv)

def call (io : RequestIO) (fd : ℕ) : Call → RequestIO
  | .config cfg => { io with cfg := cfg }
  | .readable env => io.handleReadable fd env
  | .rearm now env => io.rearmConnection fd now env

/-- Calls on the connection of `a`, from its accept on. -/
def afterCalls (io : RequestIO) (a : Accepted) (cs : List Call) : RequestIO :=
  cs.foldl (fun io c => io.call a.fd c) (io.acceptOne a)

theorem rearmed_openFds (io : RequestIO) (fd : ℕ) (now : Ticks) :
    (io.rearmed fd now).openFds = io.openFds := by
  obtain ⟨_, _, heq, -⟩ := io.rearmed_eq fd now
  rw [heq]

/-- What a call leaves open was open, and its stream is kept. -/
theorem streamed_call {io : RequestIO} {fd : ℕ} (h : fd ∈ io.openFds → io.Streamed fd) (c : Call)
    (hopen : fd ∈ (io.call fd c).openFds) : (io.call fd c).Streamed fd := by
  cases c with
  | config cfg => exact ⟨(h hopen).whole, (h hopen).bytes, (h hopen).sound⟩
  | readable env =>
    have hfd : fd ∈ io.openFds := (finishRead_open _ fd hopen).1
    exact (h hfd).handleReadable hopen
  | rearm now env =>
    simp only [call, rearmConnection] at hopen ⊢
    split_ifs at hopen ⊢ with hempty
    · have hfd := (finishRead_open _ fd hopen).1
      change fd ∈ (io.rearmed fd now).openFds at hfd
      rw [rearmed_openFds] at hfd
      exact ((h hfd).rearmed now).handleReadable hopen
    · rw [rearmed_openFds] at hopen
      exact (h hopen).rearmed now

theorem streamed_accept {io : RequestIO} (a : Accepted) (hopen : a.fd ∈ (io.acceptOne a).openFds) :
    (io.acceptOne a).Streamed a.fd := by
  unfold acceptOne at hopen ⊢
  simp only at hopen ⊢
  split_ifs at hopen ⊢ with hcap hadd
  · simp [closeFd] at hopen
  · simp [closeFd] at hopen
  · refine ⟨by simp [setSlot], ?_, ?_⟩
    · simp [pendingSlot, slot, setSlot, Slots.get_put]
    · simp only [pendingSlot, slot, setSlot, Slots.get_put, if_true, Option.getD_some]
      exact ⟨by simp, by simp⟩

theorem streamed_afterCalls (io : RequestIO) (a : Accepted) (cs : List Call)
    (hopen : a.fd ∈ (io.afterCalls a cs).openFds) : (io.afterCalls a cs).Streamed a.fd := by
  suffices hrun : ∀ io' : RequestIO, (a.fd ∈ io'.openFds → io'.Streamed a.fd) →
      a.fd ∈ (cs.foldl (fun io c => io.call a.fd c) io').openFds →
        (cs.foldl (fun io c => io.call a.fd c) io').Streamed a.fd from
    hrun _ (streamed_accept a) hopen
  clear hopen
  induction cs with
  | nil => exact fun _ h => h
  | cons c cs ih => exact fun io' h => ih _ (streamed_call h c)

/-- No byte is lost, duplicated or cut elsewhere: as long as a connection is open, the requests
handed over, each whole, and the buffer behind them are the bytes received. -/
theorem stream_conserved (io : RequestIO) (a : Accepted) (cs : List Call)
    (hopen : a.fd ∈ (io.afterCalls a cs).openFds) :
    ((io.afterCalls a cs).history a.fd).handed.flatten ++
        ((io.afterCalls a cs).pendingSlot a.fd).buffer =
      ((io.afterCalls a cs).history a.fd).received ∧
    ∀ raw ∈ ((io.afterCalls a cs).history a.fd).handed,
      inspect raw = ⟨.complete, raw.length⟩ :=
  ⟨(streamed_afterCalls io a cs hopen).bytes, (streamed_afterCalls io a cs hopen).whole⟩

/-- A request and the start of the next one, received at once by a call with a pool. -/
theorem stream_conserved_pipelined :
    let io := RequestIO.afterCalls { cfg := {}, pool := true, listenerFd := 3, notifyFd := 4 }
      ⟨5, true, 1⟩ [.readable { recvs := [.data (bytes "GET / HTTP/1.0\r\n\r\nGET") 1] }]
    (io.history 5).handed = [bytes "GET / HTTP/1.0\r\n\r\n"] ∧
      (io.history 5).handed.flatten ++ (io.pendingSlot 5).buffer = (io.history 5).received := by
  intro io
  exact ⟨by decide +kernel, (stream_conserved _ ⟨5, true, 1⟩ _ (by decide +kernel)).1⟩

/-- Verdicts are stable under appended bytes, so the cached length of a slot cuts every longer
buffer where a fresh inspection would. -/
theorem framing_verdicts_stable :
    (∀ raw s n, (raw ++ s).length < npos → inspect raw = ⟨.complete, n⟩ →
      n ≤ raw.length ∧ inspect (raw ++ s) = ⟨.complete, n⟩ ∧
        inspect (raw.take n) = ⟨.complete, n⟩) ∧
    (∀ raw s n, (raw ++ s).length < npos → 0 < n → inspect raw = ⟨.incomplete, n⟩ →
      inspect (raw ++ s) = ⟨if (raw ++ s).length ≥ n then .complete else .incomplete, n⟩) ∧
    ∀ (io : RequestIO) (a : Accepted) (cs : List Call) (st : ConnState) (s : Bytes),
      a.fd ∈ (io.afterCalls a cs).openFds → (io.afterCalls a cs).slot a.fd = some st →
      st.headKnown = true → (st.buffer ++ s).length < npos →
      (st.expected ≤ (st.buffer ++ s).length →
        inspect (st.buffer ++ s) = ⟨.complete, st.expected⟩) ∧
      ∀ cfg peerClosed deadlineOver raw st',
        takeRequest cfg peerClosed deadlineOver { st with buffer := st.buffer ++ s } =
            .cut raw st' ↔
          takeRequest cfg peerClosed deadlineOver
            { st with buffer := st.buffer ++ s, headKnown := false } = .cut raw st' := by
  refine ⟨?_, ?_, ?_⟩
  · intro raw s n hlen h
    rw [List.length_append] at hlen
    obtain ⟨hn, happ, htake⟩ := inspect_complete_stable (by omega) h
    exact ⟨hn, happ s, htake⟩
  · intro raw s n _ hn h
    exact inspect_incomplete_stable hn h s
  · intro io a cs st s hopen hslot hk hlen
    have hst : st.Sound := by
      have hsound := (streamed_afterCalls io a cs hopen).sound
      rwa [pendingSlot, hslot] at hsound
    have hlong := hst.append st.lastActivity hlen.le
    constructor
    · intro hle
      rw [hst.known hk s, if_pos hle]
    · intro cfg peerClosed deadlineOver raw st'
      rw [takeRequest_eq_cut_iff _ _ _ hlong, takeRequest_eq_cut_iff _ _ _ ⟨hlen.le, by simp⟩]
      rfl

end RequestIO
end Vermell.Request
