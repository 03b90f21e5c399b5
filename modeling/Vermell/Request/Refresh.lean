import Vermell.Request.Pipeline
import Vermell.Request.Rounds

/-! The start time of a slot against the moment since when its connection reads the request at
hand. A task in flight marks the slot; a call refreshes it when it has served the whole buffer, and
`RearmConnection` when a task is done. -/
namespace Vermell.Request
open Http

/-- The last completion, when a worker's handler is done at `now`. -/
def Handler.since (since now : Ticks) : Handler → Ticks
  | .returns _ => now
  | .escapes => since

namespace RequestIO

/-- A call without a pool serves requests that keep the connection, and then leaves bytes behind
them that it does not answer: the start of a request, or one whose handler an exception leaves. -/
def LeavesPart (io : RequestIO) (fd : ℕ) (env : ReadEnv) : Prop :=
  ∃ b ∈ arrived io.cfg io.bufsz env (io.pendingSlot fd), ∃ raws rest,
    raws ≠ [] ∧ rest ≠ [] ∧ AllWhole raws ∧ raws.flatten ++ rest = b ∧
      (∀ i < raws.length, env.handlers i = .returns true) ∧
      ((inspect rest).framing = .incomplete ∨
        (inspect rest).framing = .complete ∧ env.handlers raws.length = .escapes)

section
variable (io : RequestIO) (fd : ℕ) (env : ReadEnv)

/-- The start time of the slot in the call. -/
def startOf : Ticks := ((io.pendingSlot fd).started env.now).start

/-- What a call does to the start time: it keeps it while it serves nothing, and refreshes it where
it drains the buffer. -/
structure Restarts (out : ReadOutcome) : Prop where
  state : ∀ st, out.stop.state? = some st →
    io.served out = [] ∧ st.start = io.startOf fd env ∨ st.start = env.finish
  timeout : out.stop = .rejected requestTimedOut → io.served out = []

theorem served_pool (hpool : io.pool = true) (out : ReadOutcome) : io.served out = [] := by
  simp [served, hpool]

/-- With a pool a call serves nothing itself. -/
theorem restarts_pool (hpool : io.pool = true) (hst : (io.pendingSlot fd).Sound) :
    io.Restarts fd env (io.readOutcome fd env) := by
  refine ⟨fun st hstate => Or.inl ⟨io.served_pool hpool _, ?_⟩, fun _ => io.served_pool hpool _⟩
  unfold readOutcome readable at hstate
  cases hr : readLoop io.cfg io.bufsz ((io.pendingSlot fd).started env.now) [] env.recvs with
  | reject r got => simp [hr, ReadEnd.state?] at hstate
  | ok st₁ got peerClosed =>
    obtain ⟨-, more, time, -, hslot⟩ := readLoop_ok (hst.started env.now) hr
    have hstart : st₁.start = io.startOf fd env := by rw [hslot, startOf]
    simp only [hr] at hstate
    split_ifs at hstate
    · cases hstate
      exact hstart
    · rw [hpool, serveLoop_eq] at hstate
      cases htaken : takeRequest io.cfg peerClosed (deadlineOver io.cfg env.now st₁) st₁ with
      | reject r => simp [htaken, ReadEnd.state?] at hstate
      | wait st' =>
        simp only [htaken, ReadEnd.state?, Option.some.injEq] at hstate
        rw [← hstate, (takeRequest_keeps (Or.inl htaken)).1, hstart]
      | cut raw st' =>
        simp only [htaken, if_true, ReadEnd.state?, Option.some.injEq] at hstate
        rw [← hstate, (takeRequest_keeps (Or.inr ⟨raw, htaken⟩)).1, hstart]

/-- Without one, it keeps an old start time only behind the requests that it has served. -/
theorem restarts_inline (hpool : io.pool = false) (hst : (io.pendingSlot fd).Sound)
    (hpart : ¬ io.LeavesPart fd env) : io.Restarts fd env (io.readOutcome fd env) := by
  unfold LeavesPart arrived at hpart
  have hout : io.readOutcome fd env = readable io.cfg false io.bufsz env (io.pendingSlot fd) := by
    rw [readOutcome, hpool]
  unfold readable at hout
  cases hr : readLoop io.cfg io.bufsz ((io.pendingSlot fd).started env.now) [] env.recvs with
  | reject r got =>
    rw [hr] at hout
    refine ⟨?_, fun _ => ?_⟩
    · simp [hout, ReadEnd.state?]
    · simp [hout, served]
  | ok st₁ got peerClosed =>
    obtain ⟨hst₁, more, time, -, hslot⟩ := readLoop_ok (hst.started env.now) hr
    have hstart : st₁.start = io.startOf fd env := by rw [hslot, startOf]
    rw [hr] at hout hpart
    simp only at hout
    split_ifs at hout with hempty
    · refine ⟨?_, fun _ => ?_⟩
      · rw [hout]
        rintro _ ⟨rfl⟩
        exact Or.inl ⟨by simp [served], hstart⟩
      · simp [hout, served]
    · obtain ⟨raws, st', handed, hhanded, hrounds⟩ :=
        serveLoop_rounds io.cfg env peerClosed (deadlineOver io.cfg env.now st₁) hst₁ hempty []
      have hkept := hrounds.kept
      simp only [List.length_nil, zero_add] at hkept
      rw [hhanded, List.nil_append] at hout
      generalize (serveLoop io.cfg false env peerClosed
        (deadlineOver io.cfg env.now st₁) st₁ []).2 = stop at hrounds hout
      rw [hout]
      rcases hrounds.exits with ⟨s, rfl, hs⟩ | ⟨hnone, hne⟩ | ⟨hrest, hleft, hkeeps, hfirst⟩
      · refine ⟨?_, by simp⟩
        rintro _ ⟨rfl⟩
        exact Or.inr hs
      · exact ⟨by simp [hnone], fun htimeout => absurd htimeout hne⟩
      · have hraws : raws = [] := by
          by_contra hraws
          rw [List.length_nil, zero_add] at hleft
          exact hpart ⟨st₁.buffer, rfl, raws, st'.buffer, hraws, hrest, hrounds.whole,
            hrounds.bytes, hkept, hleft⟩
        have hserved : io.served ⟨got, handed, stop⟩ = [] := by
          rcases hfirst hraws with rfl | ⟨raw, s, rfl, rfl⟩
          · cases stop <;> simp [served]
          · simp [served]
        exact ⟨fun s hs => Or.inl ⟨hserved, (hkeeps s hs).trans hstart⟩, fun _ => hserved⟩

end

/-- What holds of a connection that was accepted, or completed its last request, at `since`: while
a task is outstanding its slot is marked, and as long as no completion waits to be drained the slot
has started no earlier. -/
structure Fresh (io : RequestIO) (fd : ℕ) (since : Ticks) : Prop where
  one : io.outstanding ≤ 1
  tasks : ∀ t ∈ io.running ++ io.queue, t.fd = fd
  completions : ∀ c ∈ io.completed, c.fd = fd
  inline : io.pool = false → io.outstanding = 0
  sound : (io.pendingSlot fd).Sound
  marked : ∀ st, io.slot fd = some st → 0 < io.outstanding → st.dispatching = true
  started : ∀ st, io.slot fd = some st → io.completed = [] → since ≤ st.start

section
variable {io io' : RequestIO} {fd : ℕ} {since : Ticks}

theorem outstanding_eq_zero_iff :
    io.outstanding = 0 ↔ io.queue = [] ∧ io.running = [] ∧ io.completed = [] := by
  simp only [outstanding, Nat.add_eq_zero_iff, List.length_eq_zero_iff, and_assoc]

/-- Only the pool's tasks and the slot of the connection matter. -/
theorem Fresh.congr (h : io.Fresh fd since)
    (hsame : (io'.pool, io'.queue, io'.running, io'.completed) =
      (io.pool, io.queue, io.running, io.completed)) (hslot : io'.slot fd = io.slot fd) :
    io'.Fresh fd since := by
  obtain ⟨hpool, hqueue, hrunning, hcompleted⟩ := by simpa only [Prod.mk.injEq] using hsame
  have hout : io'.outstanding = io.outstanding := by
    unfold outstanding
    rw [hqueue, hrunning, hcompleted]
  have hpending : io'.pendingSlot fd = io.pendingSlot fd := congrArg (·.getD {}) hslot
  refine ⟨hout ▸ h.one, ?_, ?_, ?_, hpending ▸ h.sound, ?_, ?_⟩
  · rw [hrunning, hqueue]
    exact h.tasks
  · rw [hcompleted]
    exact h.completions
  · rw [hpool, hout]
    exact h.inline
  · rw [hslot, hout]
    exact h.marked
  · rw [hslot, hcompleted]
    exact h.started

/-- A slot that is gone is no obstacle, whatever the time. -/
theorem Fresh.dropped (h : io.Fresh fd since) {since' : Ticks}
    (hsame : (io'.pool, io'.queue, io'.running, io'.completed) =
      (io.pool, io.queue, io.running, io.completed)) (hslot : io'.slot fd = none) :
    io'.Fresh fd since' := by
  obtain ⟨hpool, hqueue, hrunning, hcompleted⟩ := by simpa only [Prod.mk.injEq] using hsame
  have hout : io'.outstanding = io.outstanding := by
    unfold outstanding
    rw [hqueue, hrunning, hcompleted]
  refine ⟨hout ▸ h.one, ?_, ?_, ?_, ?_, by simp [hslot], by simp [hslot]⟩
  · rw [hrunning, hqueue]
    exact h.tasks
  · rw [hcompleted]
    exact h.completions
  · rw [hpool, hout]
    exact h.inline
  · simp only [pendingSlot, hslot, Option.getD_none]
    exact ConnState.sound_default

theorem Fresh.retire (h : io.Fresh fd since) {since' : Ticks} : (io.retire fd).Fresh fd since' := by
  obtain ⟨p, heq, hp⟩ := io.retire_eq fd
  rw [heq]
  refine h.dropped rfl ?_
  simp only [slot]
  rw [hp, if_pos rfl]

theorem Fresh.reject (h : io.Fresh fd since) {since' : Ticks} : (io.reject fd).Fresh fd since' :=
  Fresh.congr h.retire rfl rfl

/-- An idle connection starts its next call no earlier than it has completed its last request. -/
theorem Fresh.startOf (h : io.Fresh fd since) (hidle : io.outstanding = 0) {env : ReadEnv}
    (hnow : since ≤ env.now) : since ≤ io.startOf fd env := by
  have hstart : (io.pendingSlot fd).start = 0 ∨ since ≤ (io.pendingSlot fd).start := by
    unfold pendingSlot
    cases hslot : io.slot fd with
    | none => exact Or.inl rfl
    | some st => exact Or.inr (h.started st hslot (outstanding_eq_zero_iff.mp hidle).2.2)
  unfold RequestIO.startOf ConnState.started
  split_ifs with hzero
  · exact hnow
  · exact hstart.resolve_left hzero

/-- A call on an idle connection. -/
theorem Fresh.handleReadable (h : io.Fresh fd since) (hidle : io.outstanding = 0) {env : ReadEnv}
    (hrestarts : io.Restarts fd env (io.readOutcome fd env)) {done : Ticks}
    (hnow : since ≤ env.now) (hdone : env.now ≤ done) (hfinish : done ≤ env.finish) :
    (io.handleReadable fd env).Fresh fd
      (if io.served (io.readOutcome fd env) = [] then since else done) := by
  cases hends : (io.readOutcome fd env).stop.ends env.accepted with
  | true =>
    obtain ⟨p, n, hist, heq, hp⟩ := io.handleReadable_ended fd env hends
    rw [heq]
    refine h.dropped rfl ?_
    simp only [slot]
    rw [hp, if_pos rfl]
  | false =>
    obtain ⟨p, armed, u, n, hist, heq, hp, -⟩ := io.handleReadable_kept fd env hends
    obtain ⟨hqueue, hrunning, hcompleted⟩ := outstanding_eq_zero_iff.mp hidle
    have hslot : (io.handleReadable fd env).slot fd = (io.readOutcome fd env).stop.slot? := by
      simp only [heq, slot, hp, if_true]
    have hpool : (io.handleReadable fd env).pool = io.pool := by rw [heq]
    have hqueue' : (io.handleReadable fd env).queue = (io.readOutcome fd env).stop.tasks fd := by
      rw [heq]
      simp [hqueue]
    have hrunning' : (io.handleReadable fd env).running = [] := by
      rw [heq]
      exact hrunning
    have hcompleted' : (io.handleReadable fd env).completed = [] := by
      rw [heq]
      exact hcompleted
    have hout : (io.handleReadable fd env).outstanding =
        ((io.readOutcome fd env).stop.tasks fd).length := by
      simp [outstanding, hqueue', hrunning', hcompleted']
    have htasks := ReadEnd.tasks_cases fd (io.readOutcome fd env).stop
    refine ⟨?_, ?_, by simp [hcompleted'], ?_, ?_, ?_, ?_⟩
    · rw [hout]
      rcases htasks with htasks | ⟨raw, s, -, htasks⟩ <;> simp [htasks]
    · rw [hrunning', hqueue']
      rcases htasks with htasks | ⟨raw, s, -, htasks⟩ <;> simp [htasks]
    · intro hinline
      rcases htasks with htasks | ⟨raw, s, hstop, -⟩
      · rw [hout, htasks]
        rfl
      · rw [hpool, io.dispatched_pool fd env hstop] at hinline
        cases hinline
    · simp only [pendingSlot, hslot]
      obtain ⟨st, hst⟩ := ReadEnd.state?_of_kept hends
      have hread := (readable_sound io.cfg io.bufsz env io.pool h.sound).2 st hst
      exact (ReadEnd.slot?_buffer hst).2 hread.2
    · intro st hst hbusy
      rw [hslot] at hst
      obtain ⟨-, -, -, hmarked⟩ := ReadEnd.slot?_start hst
      rcases htasks with htasks | ⟨raw, s, hstop, -⟩
      · rw [hout, htasks] at hbusy
        cases hbusy
      · exact hmarked raw s hstop
    · intro st hst _
      rw [hslot] at hst
      obtain ⟨st', hstate, hstart, -⟩ := ReadEnd.slot?_start hst
      rw [hstart]
      rcases hrestarts.state st' hstate with ⟨hserved, hkept⟩ | hrefreshed
      · rw [if_pos hserved, hkept]
        exact h.startOf hidle hnow
      · rw [hrefreshed]
        split_ifs
        · exact (hnow.trans hdone).trans hfinish
        · exact hfinish

/-- Completions that leave their list take the times with them. -/
theorem Fresh.drained (h : io.Fresh fd since) :
    ∃ since', RequestIO.Fresh { io with completed := [] } fd since' := by
  have hone := h.one
  have hinline := h.inline
  have hmarked := h.marked
  simp only [outstanding] at hone hinline hmarked
  refine ⟨(io.pendingSlot fd).start, ?_, h.tasks, by simp, ?_, h.sound, ?_, ?_⟩
  · simp only [outstanding, List.length_nil]
    omega
  · intro hpool
    have := hinline hpool
    simp only [outstanding, List.length_nil]
    omega
  · intro st hst hbusy
    refine hmarked st hst ?_
    simp only [outstanding, List.length_nil] at hbusy
    omega
  · intro st hst _
    change io.slot fd = some st at hst
    rw [pendingSlot, hst]
    exact le_refl _

/-- `RearmConnection` starts the slot over. -/
theorem Fresh.rearmed (h : io.Fresh fd since) (hidle : io.outstanding = 0) {since' now : Ticks}
    (hnow : since' ≤ now) : (io.rearmed fd now).Fresh fd since' := by
  obtain ⟨p, armed, heq, -⟩ := io.rearmed_eq fd now
  have hslot := io.slot_rearmed fd now
  rw [heq] at hslot ⊢
  refine ⟨h.one, h.tasks, h.completions, h.inline, ?_, ?_, ?_⟩
  · simp only [pendingSlot, hslot, Option.getD_some]
    exact ⟨h.sound.fits, by simp⟩
  · intro st _ hbusy
    change 0 < io.outstanding at hbusy
    omega
  · intro st hst _
    rw [hslot] at hst
    cases hst
    exact hnow

theorem Fresh.take (h : io.Fresh fd since) (ht : io.take = some io') : io'.Fresh fd since := by
  obtain ⟨t, rest, hq, rfl⟩ := take_eq_some ht
  have hout : RequestIO.outstanding { io with queue := rest, running := io.running ++ [t] } =
      io.outstanding := by
    simp only [outstanding, hq, List.length_cons, List.length_append, List.length_nil]
    omega
  refine ⟨hout ▸ h.one, ?_, h.completions, ?_, h.sound, ?_, h.started⟩
  · have htasks := h.tasks
    rw [hq] at htasks
    simpa using htasks
  · rw [hout]
    exact h.inline
  · rw [hout]
    exact h.marked

/-- A worker completes a request of the connection at `now`, or loses it to an exception. -/
theorem Fresh.serveRequest (h : io.Fresh fd since) {i : ℕ} {handler : Handler} {now : Ticks}
    (hs : io.serveRequest i handler = some io') :
    io'.Fresh fd (handler.since since now) := by
  obtain ⟨t, ht, hs⟩ := Option.map_eq_some_iff.mp hs
  have hmem : t ∈ io.running := List.mem_of_getElem? ht
  have hlen : (io.running.eraseIdx i).length + 1 = io.running.length := by
    obtain ⟨hi, -⟩ := List.getElem?_eq_some_iff.mp ht
    rw [List.length_eraseIdx_of_lt hi]
    omega
  have hfd : t.fd = fd := h.tasks t (List.mem_append_left _ hmem)
  have htasks : ∀ t ∈ io.running.eraseIdx i ++ io.queue, t.fd = fd := by
    intro t' ht'
    refine h.tasks t' ?_
    cases List.mem_append.mp ht' with
    | inl ht' =>
      exact List.mem_append_left _ (List.mem_of_mem_eraseIdx ht')
    | inr ht' =>
      exact List.mem_append_right _ ht'
  have hone := h.one
  have hinline := h.inline
  have hmarked := h.marked
  cases handler with
  | escapes =>
    cases hs
    refine ⟨?_, htasks, h.completions, ?_, h.sound, ?_, h.started⟩
    · simp only [outstanding] at hone ⊢
      omega
    · intro hpool
      have := hinline hpool
      simp only [outstanding] at this ⊢
      omega
    · intro st hst hbusy
      refine hmarked st hst ?_
      simp only [outstanding] at hbusy ⊢
      omega
  | returns keepAlive =>
    cases hs
    refine ⟨?_, htasks, ?_, ?_, h.sound, ?_, by simp⟩
    · simp only [outstanding, List.length_append, List.length_singleton] at hone ⊢
      omega
    · intro c hc
      cases List.mem_append.mp hc with
      | inl hc =>
        exact h.completions c hc
      | inr hc =>
        rw [List.mem_singleton.mp hc]
        exact hfd
    · intro hpool
      have := hinline hpool
      simp only [outstanding] at this
      omega
    · intro st hst _
      refine hmarked st hst ?_
      simp only [outstanding]
      omega

/-- The sweep keeps a slot or drops it. -/
theorem Fresh.sweepStale (h : io.Fresh fd since) (now : Ticks) :
    (io.sweepStale now).Fresh fd since := by
  refine List.foldlRecOn (motive := fun io : RequestIO => io.Fresh fd since) _ _ h ?_
  intro io hio g _
  unfold sweepSlot
  cases hslot : io.slot g with
  | none => exact hio
  | some st =>
    simp only
    split_ifs
    · by_cases hg : g = fd
      · rw [hg]
        exact hio.reject
      · refine hio.congr rfl ?_
        change (io.pending.drop g).get fd = io.pending.get fd
        rw [Slots.get_drop, if_neg (Ne.symm hg)]
    · exact hio

end

end RequestIO
end Vermell.Request
