import Vermell.Request.Effects
import Vermell.Request.Rounds

/-! A call of `HandleReadable` whose recv loop ends where `recv` returns 0. The errors and the close
of a handler end the connection, a dispatched request keeps it; the other exits wait for more input
from a socket that has none. -/
namespace Vermell.Request
open Http
namespace RequestIO

/-- The call closes the connection: its descriptor, its slot and its place in the count. -/
structure Ended (io io' : RequestIO) (fd : ℕ) : Prop where
  closed : fd ∉ io'.openFds
  dropped : io'.slot fd = none
  count : io'.active = io.active - 1

/-- The call leaves a request with the pool. -/
def HandsOver (io io' : RequestIO) (fd : ℕ) : Prop := ∃ raw, io'.queue = io.queue ++ [⟨fd, raw⟩]

/-- Open, registered for input, and no byte in the buffer. -/
def Idle (io : RequestIO) (fd : ℕ) : Prop :=
  fd ∈ io.openFds ∧ fd ∈ io.armed ∧ (io.pendingSlot fd).buffer = []

/-- A call that returns has ended the connection or handed a request over, and does not leave the
connection idle. -/
def EndsStream (io : RequestIO) (fd : ℕ) (env : ReadEnv) : Prop :=
  (∀ st, (io.readOutcome fd env).stop ≠ .escaped st) →
    (io.Ended (io.handleReadable fd env) fd ∨ io.HandsOver (io.handleReadable fd env) fd) ∧
      ¬ (io.handleReadable fd env).Idle fd

/-- The bytes of the connection at the end of its stream do not lead to an exit that waits: with a
pool, there are some, and a descriptor that is armed already is not left to wait for the task of
the last request; without one, they are not requests alone that all keep the connection. -/
def Closable (io : RequestIO) (fd : ℕ) (env : ReadEnv) (b : Bytes) : Prop :=
  if io.pool then
    b ≠ [] ∧ ¬ (fd ∈ io.armed ∧ env.accepted = true ∧ inspect b = ⟨.complete, b.length⟩)
  else
    ¬ ∃ raws, AllWhole raws ∧ raws.flatten = b ∧
      ∀ i < raws.length, env.handlers i = .returns true

section
variable {io : RequestIO} {fd : ℕ} {env : ReadEnv}

theorem handsOver_iff {io' : RequestIO} {tasks : List Task} (h : io'.queue = io.queue ++ tasks) :
    io.HandsOver io' fd ↔ ∃ raw, tasks = [⟨fd, raw⟩] := by
  unfold HandsOver
  rw [h]
  exact exists_congr fun raw => List.append_right_inj _

theorem finishRead_dispatched_armed (io : RequestIO) (raw : Bytes) (st : ConnState) :
    (io.finishRead fd true (.dispatched raw st)).armed = io.armed := by
  unfold finishRead
  simp only
  split_ifs <;> rfl

/-- An error, the close of a handler and a refused task end the stream as they should. -/
theorem endsStream_ended (h : (io.readOutcome fd env).stop.ends env.accepted = true) :
    io.EndsStream fd env := by
  obtain ⟨p, n, hist, heq, hp⟩ := io.handleReadable_ended fd env h
  intro _
  rw [heq]
  refine ⟨Or.inl ⟨Finset.notMem_erase _ _, ?_, rfl⟩, ?_⟩
  · simp only [slot]
    rw [hp, if_pos rfl]
  · intro hidle
    exact absurd hidle.1 (Finset.notMem_erase _ _)

/-- A call that waits leaves the stream open behind its end. -/
theorem not_endsStream_waits {st : ConnState} (h : (io.readOutcome fd env).stop = .waits st) :
    ¬ io.EndsStream fd env := by
  obtain ⟨p, armed, u, n, hist, heq, hp, -⟩ :=
    io.handleReadable_kept fd env (by rw [h]; rfl)
  rw [h] at hp heq
  intro hends
  obtain ⟨hended | hhands, -⟩ := hends (by simp [h])
  · have hnone := hended.dropped
    rw [heq] at hnone
    simp only [slot] at hnone
    rw [hp, if_pos rfl] at hnone
    cases hnone
  · rw [heq] at hhands
    obtain ⟨raw, hraw⟩ := (handsOver_iff rfl).mp hhands
    cases hraw

/-- A task that the pool takes: the connection stays, idle if it is armed and nothing is behind the
request. -/
theorem endsStream_dispatched_iff (hopen : fd ∈ io.openFds) {raw : Bytes} {st : ConnState}
    (h : (io.readOutcome fd env).stop = .dispatched raw st) (haccepted : env.accepted = true) :
    io.EndsStream fd env ↔ ¬ (fd ∈ io.armed ∧ st.buffer = []) := by
  have hkept : (io.readOutcome fd env).stop.ends env.accepted = false := by
    rw [h, haccepted]
    rfl
  obtain ⟨p, armed, u, n, hist, heq, -⟩ := io.handleReadable_kept fd env hkept
  have hopen' : fd ∈ (io.handleReadable fd env).openFds := by rw [heq]; exact hopen
  have hhands : io.HandsOver (io.handleReadable fd env) fd := by
    rw [heq, h]
    exact ⟨raw, rfl⟩
  have harmed : (io.handleReadable fd env).armed = io.armed := by
    unfold handleReadable
    simp only [h, haccepted]
    exact finishRead_dispatched_armed _ raw st
  have hbuffer : ((io.handleReadable fd env).pendingSlot fd).buffer = st.buffer := by
    obtain ⟨-, st', hst', hbuffer, -⟩ := finishRead_open _ fd hopen'
    rw [h] at hst'
    cases hst'
    exact hbuffer
  have hidle : (io.handleReadable fd env).Idle fd ↔ fd ∈ io.armed ∧ st.buffer = [] := by
    unfold Idle
    rw [harmed, hbuffer]
    exact and_iff_right hopen'
  constructor
  · intro hends
    rw [← hidle]
    exact (hends (by simp [h])).2
  · intro hquiet _
    exact ⟨Or.inr hhands, hidle.not.mpr hquiet⟩

/-- Where a call ends whose recv loop has met the end of the stream. -/
theorem stop_of_end {st : ConnState} {got : Bytes}
    (hend : readLoop io.cfg io.bufsz ((io.pendingSlot fd).started env.now) [] env.recvs =
      .ok st got true) :
    (io.readOutcome fd env).stop =
      if st.buffer = [] then .waits st
      else (serveLoop io.cfg io.pool env true (deadlineOver io.cfg env.now st) st []).2 := by
  unfold readOutcome readable
  rw [hend]
  simp only
  split_ifs <;> rfl

end

/-- With a pool, one pass decides. -/
theorem endsStream_pool_iff {io : RequestIO} {fd : ℕ} {env : ReadEnv} (hpool : io.pool = true)
    (hopen : fd ∈ io.openFds) {st : ConnState} (hst : st.Sound) {dl : Bool}
    (hstop : (io.readOutcome fd env).stop = (serveLoop io.cfg io.pool env true dl st []).2) :
    io.EndsStream fd env ↔
      ¬ (fd ∈ io.armed ∧ env.accepted = true ∧
        inspect st.buffer = ⟨.complete, st.buffer.length⟩) := by
  rw [hpool, serveLoop_eq] at hstop
  cases htaken : takeRequest io.cfg true dl st with
  | wait st' => exact absurd htaken takeRequest_peerClosed
  | reject r =>
    rw [htaken] at hstop
    refine iff_of_true (endsStream_ended (by rw [hstop]; rfl)) ?_
    rintro ⟨-, -, hi⟩
    have hcut := (takeRequest_eq_cut_iff io.cfg true dl hst).mpr ⟨_, hi, rfl⟩
    rw [htaken] at hcut
    cases hcut
  | cut raw st' =>
    simp only [htaken, if_true] at hstop
    obtain ⟨hraw, hbytes, -⟩ := takeRequest_cut_sound _ _ _ hst htaken
    obtain ⟨n, hi, hcut⟩ := (takeRequest_eq_cut_iff _ _ _ hst).mp htaken
    have hn : raw.length = n := by
      rw [(Taken.cut.inj hcut).1, List.length_take, min_eq_left (inspect_complete_le hi).2]
    have hempty : inspect st.buffer = ⟨.complete, st.buffer.length⟩ ↔ st'.buffer = [] := by
      rw [hi, Inspection.mk.injEq, ← hn, ← hbytes, List.length_append,
        ← List.length_eq_zero_iff]
      simp
    cases haccepted : env.accepted with
    | false =>
      refine iff_of_true (endsStream_ended ?_) (by simp)
      rw [hstop, haccepted]
      rfl
    | true =>
      rw [endsStream_dispatched_iff hopen hstop haccepted, hempty]
      simp

/-- Without a pool, the loop waits exactly when it has served everything. -/
theorem endsStream_inline_iff {io : RequestIO} {fd : ℕ} {env : ReadEnv} (hpool : io.pool = false)
    {st : ConnState} (hst : st.Sound) (hne : st.buffer ≠ []) {dl : Bool}
    (hstop : (io.readOutcome fd env).stop = (serveLoop io.cfg io.pool env true dl st []).2) :
    io.EndsStream fd env ↔
      ¬ ∃ raws, AllWhole raws ∧ raws.flatten = st.buffer ∧
        ∀ i < raws.length, env.handlers i = .returns true := by
  obtain ⟨raws, st', served, -, hrounds⟩ := serveLoop_rounds io.cfg env true dl hst hne []
  rw [hpool] at hstop
  rw [← hstop] at hrounds
  have hkept := hrounds.kept
  simp only [List.length_nil, zero_add] at hkept
  rcases hrounds.stops with ⟨-, hempty, -, hwaits⟩ | ⟨last, hrest, -, hlast⟩
  · refine iff_of_false (not_endsStream_waits hwaits)
      (not_not_intro ⟨raws, hrounds.whole, ?_, hkept⟩)
    rw [← hrounds.bytes, hempty, List.append_nil]
  · refine iff_of_true ?_ (hrounds.stops_short hst hrest hlast)
    generalize hs : (io.readOutcome fd env).stop = stop at hlast
    cases hlast with
    | rejected taken => exact endsStream_ended (by rw [hs]; rfl)
    | waits taken => exact absurd taken takeRequest_peerClosed
    | closed taken handler => exact endsStream_ended (by rw [hs]; rfl)
    | escaped taken handler =>
      intro hreturned
      exact absurd hs (hreturned _)

/-- A call that meets the end of the stream settles its connection exactly when the bytes at hand
are closable. The slot is sound, as that of every open connection is. -/
theorem end_of_stream_iff (io : RequestIO) (fd : ℕ) (env : ReadEnv) (hopen : fd ∈ io.openFds)
    (hst : (io.pendingSlot fd).Sound) (st : ConnState) (got : Bytes)
    (hend : readLoop io.cfg io.bufsz ((io.pendingSlot fd).started env.now) [] env.recvs =
      .ok st got true) :
    io.EndsStream fd env ↔ io.Closable fd env ((io.pendingSlot fd).buffer ++ got) := by
  obtain ⟨hsound, more, time, hgot, hslot⟩ := readLoop_ok (hst.started env.now) hend
  have hbuffer : (io.pendingSlot fd).buffer ++ got = st.buffer := by
    rw [hslot, hgot, ConnState.started_buffer, List.nil_append]
  have hstop := stop_of_end hend
  rw [hbuffer]
  unfold Closable
  by_cases hempty : st.buffer = []
  · rw [if_pos hempty] at hstop
    refine iff_of_false (not_endsStream_waits hstop) ?_
    split_ifs
    · exact fun h => h.1 hempty
    · exact not_not_intro ⟨[], by simp [AllWhole], hempty.symm, by simp⟩
  · rw [if_neg hempty] at hstop
    split_ifs with hpool
    · rw [endsStream_pool_iff hpool hopen hsound hstop]
      exact (and_iff_right hempty).symm
    · exact endsStream_inline_iff (by simpa using hpool) hsound hempty hstop

/-- Half a request and the end of the stream. -/
theorem end_of_stream_half :
    let io : RequestIO :=
      { cfg := {}, pool := true, listenerFd := 3, notifyFd := 4, openFds := {0}, active := 1,
        pending := [some { buffer := bytes "GET", start := 1 }] }
    io.EndsStream 0 { recvs := [.data [] 1] } := by
  intro io
  have hst : (io.pendingSlot 0).Sound := ⟨by decide, by simp [io, pendingSlot, slot, Slots.get]⟩
  refine (end_of_stream_iff io 0 { recvs := [.data [] 1] } (by decide) hst _ _ rfl).mpr ?_
  exact ⟨by decide, by decide⟩

/-- A client that connects and hangs up keeps its connection. -/
theorem end_of_stream_waits :
    let io := RequestIO.acceptOne { cfg := {}, pool := true, listenerFd := 3, notifyFd := 4 }
      ⟨5, true, 1⟩
    let env : ReadEnv := { recvs := [.data [] 1] }
    readLoop io.cfg io.bufsz ((io.pendingSlot 5).started env.now) [] env.recvs =
        .ok (io.pendingSlot 5) [] true ∧
      ¬ io.EndsStream 5 env := by
  intro io env
  have hstop : (io.readOutcome 5 env).stop = .waits (io.pendingSlot 5) := by decide
  exact ⟨by decide, not_endsStream_waits hstop⟩

end RequestIO
end Vermell.Request
