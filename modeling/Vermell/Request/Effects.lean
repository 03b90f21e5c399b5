import Vermell.Request.Cut
import Vermell.Request.Io

/-! What the operations of `RequestIO` do to its parts. A call of `HandleReadable` either keeps its
connection, with a new slot and perhaps a task, or ends it; other descriptors are left alone. -/
namespace Vermell.Request
open Http

theorem ConnState.sound_default : ({} : ConnState).Sound := ⟨by simp, by simp⟩

/-- The call ends its connection: an error, the close a handler asked for, or a refused task. -/
def ReadEnd.ends (accepted : Bool) : ReadEnd → Bool
  | .waits _ => false
  | .rejected _ => true
  | .closed => true
  | .dispatched _ _ => !accepted
  | .escaped _ => false

/-- The slot behind a call that keeps its connection. -/
def ReadEnd.slot? : ReadEnd → Option ConnState
  | .waits st => some st
  | .rejected _ => none
  | .closed => none
  | .dispatched _ st => if st.buffer = [] then none else some { st with dispatching := true }
  | .escaped st => some st

def ReadEnd.tasks (fd : ℕ) : ReadEnd → List Task
  | .waits _ => []
  | .rejected _ => []
  | .closed => []
  | .dispatched raw _ => [⟨fd, raw⟩]
  | .escaped _ => []

theorem ReadEnd.state?_of_kept {accepted : Bool} {stop : ReadEnd}
    (h : stop.ends accepted = false) : ∃ st, stop.state? = some st := by
  cases stop with
  | waits st => exact ⟨st, rfl⟩
  | rejected r => cases h
  | closed => cases h
  | dispatched raw st => exact ⟨st, rfl⟩
  | escaped st => exact ⟨st, rfl⟩

/-- A slot that is dropped holds no bytes. -/
theorem ReadEnd.slot?_buffer {stop : ReadEnd} {st : ConnState} (h : stop.state? = some st) :
    (stop.slot?.getD {}).buffer = st.buffer ∧ (st.Sound → (stop.slot?.getD {}).Sound) := by
  cases stop with
  | waits s =>
    cases h
    exact ⟨rfl, id⟩
  | rejected r => cases h
  | closed => cases h
  | dispatched raw s =>
    cases h
    simp only [ReadEnd.slot?]
    split_ifs with hempty
    · exact ⟨hempty.symm, fun _ => ConnState.sound_default⟩
    · exact ⟨rfl, fun hst => ⟨hst.fits, hst.known⟩⟩
  | escaped s =>
    cases h
    exact ⟨rfl, id⟩

theorem ReadEnd.slot?_start {stop : ReadEnd} {st : ConnState} (h : stop.slot? = some st) :
    ∃ st', stop.state? = some st' ∧ st.start = st'.start ∧
      (∀ raw s, stop = .dispatched raw s → st.dispatching = true) := by
  cases stop with
  | waits s =>
    cases h
    exact ⟨st, rfl, rfl, by simp⟩
  | rejected r => cases h
  | closed => cases h
  | dispatched raw s =>
    simp only [ReadEnd.slot?] at h
    split_ifs at h
    cases h
    exact ⟨s, rfl, rfl, by simp⟩
  | escaped s =>
    cases h
    exact ⟨st, rfl, rfl, by simp⟩

theorem ReadEnd.tasks_cases (fd : ℕ) (stop : ReadEnd) :
    stop.tasks fd = [] ∨ ∃ raw st, stop = .dispatched raw st ∧ stop.tasks fd = [⟨fd, raw⟩] := by
  cases stop with
  | waits st => exact Or.inl rfl
  | rejected r => exact Or.inl rfl
  | closed => exact Or.inl rfl
  | dispatched raw st => exact Or.inr ⟨raw, st, rfl, rfl⟩
  | escaped st => exact Or.inl rfl

/-- With a pool, the request that a call hands over is the task that it queues. -/
theorem readable_pool_tasks (cfg : Config) (bufsz : ℕ) (env : ReadEnv) (st : ConnState) (fd : ℕ) :
    (readable cfg true bufsz env st).stop.tasks fd =
      (readable cfg true bufsz env st).handed.map (Task.mk fd) := by
  rcases readable_pool cfg bufsz env st with
    ⟨raw, st', hhanded, hstop⟩ | ⟨hhanded, ⟨st', hstop⟩ | ⟨r, hstop⟩⟩
  · rw [hhanded, hstop]
    rfl
  · rw [hhanded, hstop]
    rfl
  · rw [hhanded, hstop]
    rfl

namespace RequestIO
section
variable (io : RequestIO) (fd : ℕ)

/-- `EPOLL_CTL_MOD` only adds an open descriptor to the armed ones. -/
theorem epollMod_eq : ∃ armed, io.epollMod fd = { io with armed := armed } ∧
    (armed = io.armed ∨ armed = insert fd io.armed ∧ fd ∈ io.openFds) := by
  unfold epollMod
  split_ifs with hopen
  · exact ⟨_, rfl, Or.inr ⟨rfl, hopen⟩⟩
  · exact ⟨_, rfl, Or.inl rfl⟩

theorem rearmWait_eq : ∃ armed, io.rearmWait fd = { io with armed := armed } ∧
    (armed = io.armed ∨ armed = insert fd io.armed ∧ fd ∈ io.openFds) := by
  unfold rearmWait
  split_ifs
  · exact io.epollMod_eq fd
  · exact ⟨_, rfl, Or.inl rfl⟩

/-- A call that keeps its connection fills or drops its slot, may arm it and may queue a task. -/
theorem finishRead_kept {accepted : Bool} {stop : ReadEnd} (h : stop.ends accepted = false) :
    ∃ p armed u, io.finishRead fd accepted stop =
        { io with
          pending := p, armed := armed, queue := io.queue ++ stop.tasks fd, unwinding := u } ∧
      (∀ g, p.get g = if g = fd then stop.slot? else io.pending.get g) ∧
      (armed = io.armed ∨ armed = insert fd io.armed ∧ fd ∈ io.openFds) ∧
      (u = io.unwinding ∨ ∃ st, stop = .escaped st) := by
  cases stop with
  | waits st =>
    obtain ⟨armed, heq, harmed⟩ := (io.setSlot fd st).rearmWait_eq fd
    refine ⟨io.pending.put fd st, armed, io.unwinding, ?_, Slots.get_put _ _ _, harmed, Or.inl rfl⟩
    simp only [finishRead, heq, ReadEnd.tasks, List.append_nil]
    rfl
  | rejected r => cases h
  | closed => cases h
  | dispatched raw st =>
    obtain rfl : accepted = true := by simpa [ReadEnd.ends] using h
    by_cases hempty : st.buffer = []
    · refine ⟨io.pending.drop fd, io.armed, io.unwinding, ?_, ?_, Or.inl rfl, Or.inl rfl⟩
      · simp [finishRead, hempty, dispatchTask, dropPending, ReadEnd.tasks]
      · simp [ReadEnd.slot?, hempty, Slots.get_drop]
    · refine ⟨io.pending.put fd { st with dispatching := true }, io.armed, io.unwinding, ?_, ?_,
        Or.inl rfl, Or.inl rfl⟩
      · simp [finishRead, hempty, dispatchTask, setSlot, ReadEnd.tasks]
      · simp [ReadEnd.slot?, hempty, Slots.get_put]
  | escaped st =>
    refine ⟨io.pending.put fd st, io.armed, true, ?_, Slots.get_put _ _ _, Or.inl rfl,
      Or.inr ⟨st, rfl⟩⟩
    simp [finishRead, setSlot, ReadEnd.tasks]

theorem retire_eq : ∃ p, io.retire fd =
      { io with
        pending := p, active := io.active - 1, openFds := io.openFds.erase fd,
        armed := io.armed.erase fd,
        closes := io.closes ++ [⟨fd, fd ∈ io.openFds, io.busy fd⟩] } ∧
    ∀ g, p.get g = if g = fd then none else io.pending.get g :=
  ⟨io.pending.drop fd, rfl, Slots.get_drop _ _⟩

/-- A call that ends its connection retires it. -/
theorem finishRead_ended {accepted : Bool} {stop : ReadEnd} (h : stop.ends accepted = true) :
    ∃ p n, io.finishRead fd accepted stop =
        { io with
          pending := p, handled := n, active := io.active - 1, openFds := io.openFds.erase fd,
          armed := io.armed.erase fd,
          closes := io.closes ++ [⟨fd, fd ∈ io.openFds, io.busy fd⟩] } ∧
      ∀ g, p.get g = if g = fd then none else io.pending.get g := by
  cases stop with
  | waits st => cases h
  | rejected r => exact ⟨io.pending.drop fd, io.handled + 1, rfl, Slots.get_drop _ _⟩
  | closed => exact ⟨io.pending.drop fd, io.handled, rfl, Slots.get_drop _ _⟩
  | dispatched raw st =>
    obtain rfl : accepted = false := by simpa [ReadEnd.ends] using h
    by_cases hempty : st.buffer = []
    · refine ⟨(io.pending.drop fd).drop fd, io.handled + 1, ?_, ?_⟩
      · simp only [finishRead, if_pos hempty]
        rfl
      · intro g
        rw [Slots.get_drop, Slots.get_drop]
        split_ifs <;> rfl
    · refine ⟨(io.pending.put fd { st with dispatching := true }).drop fd, io.handled + 1, ?_, ?_⟩
      · simp only [finishRead, if_neg hempty]
        rfl
      · intro g
        rw [Slots.get_drop, Slots.get_put]
        split_ifs <;> rfl
  | escaped st => cases h

/-- How a call ends changes nothing that the call has recorded. -/
theorem finishRead_history (accepted : Bool) (stop : ReadEnd) :
    (io.finishRead fd accepted stop).history = io.history := by
  cases h : stop.ends accepted with
  | false =>
    obtain ⟨_, _, _, heq, -⟩ := io.finishRead_kept fd h
    rw [heq]
  | true =>
    obtain ⟨_, _, heq, -⟩ := io.finishRead_ended fd h
    rw [heq]

/-- A call that leaves its connection open leaves the bytes of its outcome in the slot. -/
theorem finishRead_open {accepted : Bool} {stop : ReadEnd}
    (h : fd ∈ (io.finishRead fd accepted stop).openFds) :
    fd ∈ io.openFds ∧ ∃ st, stop.state? = some st ∧
      ((io.finishRead fd accepted stop).pendingSlot fd).buffer = st.buffer ∧
      (st.Sound → ((io.finishRead fd accepted stop).pendingSlot fd).Sound) := by
  cases hends : stop.ends accepted with
  | false =>
    obtain ⟨p, _, _, heq, hp, -⟩ := io.finishRead_kept fd hends
    rw [heq] at h ⊢
    obtain ⟨st, hst⟩ := ReadEnd.state?_of_kept hends
    have hslot : (p.get fd).getD {} = stop.slot?.getD {} := by rw [hp, if_pos rfl]
    refine ⟨h, st, hst, ?_⟩
    change ((p.get fd).getD {}).buffer = _ ∧ (_ → ((p.get fd).getD {}).Sound)
    rw [hslot]
    exact ReadEnd.slot?_buffer hst
  | true =>
    obtain ⟨_, _, heq, -⟩ := io.finishRead_ended fd hends
    rw [heq] at h
    simp at h

section
variable (env : ReadEnv)

/-- `finishRead_kept` for a whole call. -/
theorem handleReadable_kept (h : (io.readOutcome fd env).stop.ends env.accepted = false) :
    ∃ p armed u n hist, io.handleReadable fd env =
        { io with
          pending := p, scratch := io.bufsz, handled := n, armed := armed,
          queue := io.queue ++ (io.readOutcome fd env).stop.tasks fd, unwinding := u,
          history := hist } ∧
      (∀ g, p.get g = if g = fd then (io.readOutcome fd env).stop.slot? else io.pending.get g) ∧
      (armed = io.armed ∨ armed = insert fd io.armed ∧ fd ∈ io.openFds) ∧
      (u = io.unwinding ∨ ∃ st, (io.readOutcome fd env).stop = .escaped st) := by
  obtain ⟨p, armed, u, heq, hrest⟩ :=
    (io.record fd (io.readOutcome fd env)).finishRead_kept fd h
  exact ⟨p, armed, u, _, _, heq, hrest⟩

/-- `finishRead_ended` for a whole call. -/
theorem handleReadable_ended (h : (io.readOutcome fd env).stop.ends env.accepted = true) :
    ∃ p n hist, io.handleReadable fd env =
        { io with
          pending := p, scratch := io.bufsz, handled := n, active := io.active - 1,
          openFds := io.openFds.erase fd, armed := io.armed.erase fd,
          closes := io.closes ++ [⟨fd, fd ∈ io.openFds, io.busy fd⟩], history := hist } ∧
      ∀ g, p.get g = if g = fd then none else io.pending.get g := by
  obtain ⟨p, n, heq, hp⟩ := (io.record fd (io.readOutcome fd env)).finishRead_ended fd h
  exact ⟨p, n, _, heq, hp⟩

theorem handleReadable_history : (io.handleReadable fd env).history fd =
    ⟨(io.history fd).received ++ (io.readOutcome fd env).got,
      (io.history fd).handed ++ (io.readOutcome fd env).handed,
      (io.history fd).written ++ io.served (io.readOutcome fd env)⟩ := by
  unfold handleReadable
  rw [finishRead_history]
  exact Function.update_self ..

/-- The bytes of the slot and of the socket start with a complete request. -/
def Completes : Prop :=
  ∃ b, arrived io.cfg io.bufsz env (io.pendingSlot fd) = some b ∧ (inspect b).framing = .complete

/-- With a pool, a call either hands over nothing or dispatches the one request it hands over. -/
theorem readOutcome_pool (hpool : io.pool = true) :
    (∃ raw st, (io.readOutcome fd env).handed = [raw] ∧
        (io.readOutcome fd env).stop = .dispatched raw st) ∨
      (io.readOutcome fd env).handed = [] ∧ (io.readOutcome fd env).stop.tasks fd = [] := by
  unfold readOutcome
  rw [hpool]
  rcases readable_pool io.cfg io.bufsz env (io.pendingSlot fd) with h | ⟨h, -⟩
  · exact Or.inl h
  · right
    rw [readable_pool_tasks, h]
    exact ⟨rfl, rfl⟩

/-- Only a pool takes tasks. -/
theorem dispatched_pool {raw : Bytes} {st : ConnState}
    (hstop : (io.readOutcome fd env).stop = .dispatched raw st) : io.pool = true := by
  by_contra hpool
  have hinline := readable_inline io.cfg io.bufsz env (io.pendingSlot fd) raw st
  rw [← Bool.eq_false_iff.mpr hpool] at hinline
  exact hinline hstop

/-- A dispatched request is a whole one, and starts the bytes of the slot and of the socket. -/
theorem dispatched_cut (hst : (io.pendingSlot fd).Sound) {raw : Bytes} {st : ConnState}
    (hstop : (io.readOutcome fd env).stop = .dispatched raw st) :
    arrived io.cfg io.bufsz env (io.pendingSlot fd) = some (raw ++ st.buffer) ∧
      inspect (raw ++ st.buffer) = ⟨.complete, raw.length⟩ := by
  apply (readable_dispatched_iff io.cfg io.bufsz env hst raw st.buffer).mp
  rw [← io.dispatched_pool fd env hstop]
  exact ⟨st, hstop, rfl⟩

/-- The request that a call with a pool dispatches is the one that its bytes start with. -/
theorem dispatched_iff (hpool : io.pool = true) (hst : (io.pendingSlot fd).Sound) :
    (∃ raw st, (io.readOutcome fd env).handed = [raw] ∧
        (io.readOutcome fd env).stop = .dispatched raw st) ↔ io.Completes fd env := by
  constructor
  · rintro ⟨raw, st, -, hstop⟩
    obtain ⟨harrived, hi⟩ := io.dispatched_cut fd env hst hstop
    exact ⟨_, harrived, by rw [hi]⟩
  · rintro ⟨b, harrived, hi⟩
    have heta : inspect b = ⟨.complete, (inspect b).expected⟩ := by rw [← hi]
    have hle := (inspect_complete_le heta).2
    have hlen : (b.take (inspect b).expected).length = (inspect b).expected := by
      rw [List.length_take, min_eq_left hle]
    obtain ⟨st, hstop, -⟩ := (readable_dispatched_iff io.cfg io.bufsz env hst
      (b.take (inspect b).expected) (b.drop (inspect b).expected)).mpr
      ⟨by rw [List.take_append_drop, harrived], by rw [List.take_append_drop, hlen, ← heta]⟩
    rw [← hpool] at hstop
    rcases io.readOutcome_pool fd env hpool with h | ⟨-, htasks⟩
    · exact h
    · change (io.readOutcome fd env).stop = _ at hstop
      rw [hstop] at htasks
      cases htasks

/-- The slot of a connection that a call leaves open is sound if it was. -/
theorem handleReadable_sound (hst : (io.pendingSlot fd).Sound)
    (h : fd ∈ (io.handleReadable fd env).openFds) :
    ((io.handleReadable fd env).pendingSlot fd).Sound := by
  obtain ⟨-, st, hstop, -, hsound⟩ := finishRead_open _ fd h
  exact hsound ((readable_sound io.cfg io.bufsz env io.pool hst).2 st hstop).2

end

/-- The slot behind `RearmConnection` holds the bytes it held, and nothing cached. -/
theorem rearmed_eq (now : Ticks) : ∃ p armed,
    io.rearmed fd now = { io with pending := p, armed := armed } ∧
      (∀ g, p.get g = if g = fd then some { io.pendingSlot fd with
          start := now, lastActivity := now, expected := 0, headKnown := false,
          dispatching := false } else io.pending.get g) ∧
      (armed = io.armed ∨ armed = insert fd io.armed ∧ fd ∈ io.openFds) := by
  unfold rearmed
  generalize ({ io.pendingSlot fd with
    start := now, lastActivity := now, expected := 0, headKnown := false,
    dispatching := false } : ConnState) = st
  obtain ⟨armed, heq, harmed⟩ := (io.setSlot fd st).epollMod_eq fd
  exact ⟨io.pending.put fd st, armed, heq, Slots.get_put _ _ _, harmed⟩

theorem slot_rearmed (now : Ticks) : (io.rearmed fd now).slot fd = some { io.pendingSlot fd with
    start := now, lastActivity := now, expected := 0, headKnown := false,
    dispatching := false } := by
  obtain ⟨p, armed, heq, hp, -⟩ := io.rearmed_eq fd now
  rw [heq]
  simp [slot, hp]

theorem pendingSlot_rearmed (now : Ticks) : (io.rearmed fd now).pendingSlot fd =
    { io.pendingSlot fd with
      start := now, lastActivity := now, expected := 0, headKnown := false,
      dispatching := false } := by
  rw [pendingSlot, slot_rearmed, Option.getD_some]

end
end RequestIO
end Vermell.Request
