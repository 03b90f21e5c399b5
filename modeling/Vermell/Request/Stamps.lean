import Vermell.Request.Effects
import Vermell.Request.Loop
import Vermell.Request.Rounds

/-! The times in the slots: each is a reading of the clock that a step has taken, so none is later
than the last of them. -/
namespace Vermell.Request
open Http

/-- A reading of the clock behind its epoch and no later than `T`. -/
def Past (T t : Ticks) : Prop := 0 < t ∧ t ≤ T

/-- Each reading of a call has passed. -/
def ReadEnv.Passed (T : Ticks) (env : ReadEnv) : Prop :=
  Past T env.now ∧ Past T env.finish ∧ ∀ bytes time, .data bytes time ∈ env.recvs → Past T time

/-- Each reading of a step has passed, but for that of a sweep, which no slot keeps. -/
def LoopStep.Passed (T : Ticks) : LoopStep → Prop
  | .event env => (∀ a ∈ env.accepts, Past T a.now) ∧
      ∀ k, Past T (env.drains k).now ∧ (env.drains k).read.Passed T
  | _ => True

/-- The times of a slot have passed. -/
structure ConnState.Stamped (T : Ticks) (st : ConnState) : Prop where
  start : Past T st.start
  lastActivity : st.lastActivity ≤ T

section
variable {cfg : Config} {T : Ticks} {st st' : ConnState}

theorem readLoop_stamped {bufsz : ℕ} {got got' : Bytes} {recvs : List Recv} {peerClosed : Bool}
    (hst : st.Stamped T) (hrecvs : ∀ bytes time, .data bytes time ∈ recvs → Past T time)
    (h : readLoop cfg bufsz st got recvs = .ok st' got' peerClosed) : st'.Stamped T := by
  induction recvs generalizing st got with
  | nil =>
    cases h
    exact hst
  | cons r rest ih =>
    have hrest : ∀ bytes time, .data bytes time ∈ rest → Past T time :=
      fun bytes time hr => hrecvs bytes time (List.mem_cons_of_mem r hr)
    cases r with
    | interrupted => exact ih hst hrest h
    | wouldBlock =>
      cases h
      exact hst
    | failed => cases h
    | data bytes time =>
      have htime := hrecvs bytes time List.mem_cons_self
      simp only [readLoop] at h
      split_ifs at h with hend hbig hshort
      · cases h
        exact hst
      · cases h
        exact ⟨hst.start, htime.2⟩
      · refine ih ?_ hrest h
        exact ⟨hst.start, htime.2⟩

/-- A pass does not touch the time of the last input. -/
theorem takeRequest_lastActivity {peerClosed dl : Bool}
    (h : takeRequest cfg peerClosed dl st = .wait st' ∨
      ∃ raw, takeRequest cfg peerClosed dl st = .cut raw st') :
    st'.lastActivity = st.lastActivity := by
  rcases h with h | ⟨raw, h⟩
  · obtain ⟨-, -, ⟨-, -, rfl⟩ | ⟨-, n, -, rfl⟩⟩ := takeRequest_wait h
    · rfl
    · rfl
  · obtain ⟨n, hcut, -⟩ := (takeRequest_cut_iff _ _ _ _ _ _).mp h
    obtain ⟨-, rfl⟩ := Taken.cut.inj hcut
    rfl

theorem ConnState.Stamped.taken {peerClosed dl : Bool} (hst : st.Stamped T)
    (h : takeRequest cfg peerClosed dl st = .wait st' ∨
      ∃ raw, takeRequest cfg peerClosed dl st = .cut raw st') : st'.Stamped T := by
  obtain ⟨hstart, -⟩ := takeRequest_keeps h
  exact ⟨hstart ▸ hst.start, takeRequest_lastActivity h ▸ hst.lastActivity⟩

theorem serveLoop_stamped {pool : Bool} {env : ReadEnv} {peerClosed dl : Bool}
    {handed : List Bytes} (hfinish : Past T env.finish) (hst : st.Stamped T)
    (h : (serveLoop cfg pool env peerClosed dl st handed).2.state? = some st') :
    st'.Stamped T := by
  induction st, handed using serveLoop.induct cfg pool env peerClosed dl with
  | case1 st handed r htaken =>
    rw [serveLoop_eq, htaken] at h
    cases h
  | case2 st handed st₁ htaken =>
    rw [serveLoop_eq, htaken] at h
    cases h
    exact hst.taken (Or.inl htaken)
  | case3 st handed raw st₁ htaken hpool =>
    rw [serveLoop_eq, htaken] at h
    simp only [hpool, if_true] at h
    cases h
    exact hst.taken (Or.inr ⟨raw, htaken⟩)
  | case4 st handed raw st₁ htaken hpool hhandler =>
    rw [serveLoop_eq, htaken] at h
    simp only [if_neg hpool, hhandler] at h
    cases h
    exact hst.taken (Or.inr ⟨raw, htaken⟩)
  | case5 st handed raw st₁ htaken hpool hhandler =>
    rw [serveLoop_eq, htaken] at h
    simp only [if_neg hpool, hhandler] at h
    cases h
  | case6 st handed raw st₁ htaken hpool hhandler hempty =>
    rw [serveLoop_eq, htaken] at h
    simp only [if_neg hpool, hhandler, if_pos hempty] at h
    cases h
    exact ⟨hfinish, hfinish.2⟩
  | case7 st handed raw st₁ htaken hpool hhandler hempty ih =>
    rw [serveLoop_eq, htaken] at h
    simp only [if_neg hpool, hhandler, if_neg hempty] at h
    exact ih (hst.taken (Or.inr ⟨raw, htaken⟩)) h

/-- What a call leaves in the slot is stamped by readings of its own or of the slot before. -/
theorem readable_stamped {pool : Bool} {bufsz : ℕ} {env : ReadEnv} (henv : env.Passed T)
    (hstart : st.start = 0 ∨ Past T st.start) (hlast : st.lastActivity ≤ T)
    (h : (readable cfg pool bufsz env st).stop.state? = some st') : st'.Stamped T := by
  obtain ⟨hnow, hfinish, hrecvs⟩ := henv
  have hstarted : (st.started env.now).Stamped T := by
    unfold ConnState.started
    split_ifs with hzero
    · exact ⟨hnow, hlast⟩
    · exact ⟨hstart.resolve_left hzero, hlast⟩
  unfold readable at h
  cases hread : readLoop cfg bufsz (st.started env.now) [] env.recvs with
  | reject r got =>
    rw [hread] at h
    cases h
  | ok st₁ got peerClosed =>
    have hst₁ := readLoop_stamped hstarted hrecvs hread
    simp only [hread] at h
    split_ifs at h
    · cases h
      exact hst₁
    · exact serveLoop_stamped hfinish hst₁ h

theorem ReadEnd.slot?_stamped {stop : ReadEnd}
    (h : ∀ st, stop.state? = some st → st.Stamped T) (hst : stop.slot? = some st) :
    st.Stamped T := by
  cases stop with
  | waits s => exact h st hst
  | rejected r => cases hst
  | closed => cases hst
  | dispatched raw s =>
    have hs := h s rfl
    simp only [ReadEnd.slot?] at hst
    split_ifs at hst
    cases hst
    exact ⟨hs.start, hs.lastActivity⟩
  | escaped s => exact h st hst

end

namespace RequestIO

/-- The times of every slot have passed. -/
def Stamped (T : Ticks) (io : RequestIO) : Prop := ∀ fd st, io.slot fd = some st → st.Stamped T

section
variable {io : RequestIO} {T : Ticks} {fd : ℕ}

/-- One slot has changed. -/
theorem Stamped.update (h : io.Stamped T) {io' : RequestIO} {slot : Option ConnState}
    (hslots : ∀ g, io'.slot g = if g = fd then slot else io.slot g)
    (hslot : ∀ st, slot = some st → st.Stamped T) : io'.Stamped T := by
  intro g st hg
  rw [hslots] at hg
  split_ifs at hg
  · exact hslot st hg
  · exact h g st hg

theorem Stamped.retire (h : io.Stamped T) (fd : ℕ) : (io.retire fd).Stamped T := by
  obtain ⟨p, heq, hp⟩ := io.retire_eq fd
  rw [heq]
  exact h.update hp fun st hst => by cases hst

theorem Stamped.reject (h : io.Stamped T) (fd : ℕ) : (io.reject fd).Stamped T := h.retire fd

theorem Stamped.handleReadable (h : io.Stamped T) {env : ReadEnv} (henv : env.Passed T) :
    (io.handleReadable fd env).Stamped T := by
  have hslot : ∀ st, (io.readOutcome fd env).stop.slot? = some st → st.Stamped T := by
    intro st hst
    refine ReadEnd.slot?_stamped (fun st hstate => ?_) hst
    unfold readOutcome pendingSlot at hstate
    cases hslot : io.slot fd with
    | none =>
      rw [hslot] at hstate
      exact readable_stamped henv (Or.inl rfl) (henv.1.1.le.trans henv.1.2) hstate
    | some s =>
      rw [hslot] at hstate
      have hs := h fd s hslot
      exact readable_stamped henv (Or.inr hs.start) hs.lastActivity hstate
  cases hends : (io.readOutcome fd env).stop.ends env.accepted with
  | true =>
    obtain ⟨p, n, hist, heq, hp⟩ := io.handleReadable_ended fd env hends
    rw [heq]
    exact h.update hp fun st hst => by cases hst
  | false =>
    obtain ⟨p, armed, u, n, hist, heq, hp, -⟩ := io.handleReadable_kept fd env hends
    rw [heq]
    exact h.update hp hslot

theorem Stamped.rearmConnection (h : io.Stamped T) {now : Ticks} (hnow : Past T now)
    {env : ReadEnv} (henv : env.Passed T) : (io.rearmConnection fd now env).Stamped T := by
  have hrearmed : (io.rearmed fd now).Stamped T := by
    obtain ⟨p, armed, heq, hp, -⟩ := io.rearmed_eq fd now
    rw [heq]
    refine h.update hp fun st hst => ?_
    cases hst
    exact ⟨hnow, hnow.2⟩
  unfold RequestIO.rearmConnection
  simp only
  split_ifs
  · exact hrearmed.handleReadable henv
  · exact hrearmed

theorem Stamped.drainEach {done : List Completion} (h : io.Stamped T) {envs : ℕ → DrainEnv}
    (henvs : ∀ k, Past T (envs k).now ∧ (envs k).read.Passed T) :
    (drainEach envs done io).Stamped T := by
  induction done generalizing io envs with
  | nil => exact h
  | cons c rest ih =>
    apply ih _ fun k => henvs (k + 1)
    unfold drainOne
    split_ifs
    · exact h.rearmConnection (henvs 0).1 (henvs 0).2
    · exact h.retire c.fd

theorem Stamped.acceptPending (h : io.Stamped T) {accs : List Accepted} {io' : RequestIO}
    (haccs : ∀ a ∈ accs, Past T a.now) (ha : io.acceptPending accs = some io') :
    io'.Stamped T := by
  induction accs generalizing io with
  | nil =>
    cases ha
    exact h
  | cons a rest ih =>
    obtain ⟨hnow, hrest⟩ := List.forall_mem_cons.mp haccs
    unfold RequestIO.acceptPending at ha
    split_ifs at ha
    refine ih ?_ hrest ha
    unfold acceptOne
    simp only
    split_ifs
    · exact h
    · exact h
    · refine h.update (Slots.get_put _ _ _) fun st hst => ?_
      cases hst
      exact ⟨hnow, hnow.2⟩

theorem Stamped.dispatchEvent (h : io.Stamped T) {e : Event} {env : EventEnv}
    (henv : (LoopStep.event env).Passed T) {io' : RequestIO}
    (hs : io.dispatchEvent e env = some io') : io'.Stamped T := by
  obtain ⟨haccepts, hdrains⟩ := henv
  have hread : (io.handleReadable e.fd (env.drains 0).read).Stamped T :=
    h.handleReadable (hdrains 0).2
  unfold RequestIO.dispatchEvent at hs
  split_ifs at hs
  · cases hs
    have hswapped : Stamped T { io with completed := [] } := h
    exact hswapped.drainEach hdrains
  · exact h.acceptPending haccepts hs
  · cases hs
    unfold dispatchClient
    cases e.readable with
    | true =>
      simp only [if_true]
      split_ifs
      · exact hread
      · exact hread.reject e.fd
      · exact hread
      · exact hread
    | false =>
      simp only [Bool.false_eq_true, if_false]
      split_ifs
      · exact h
      · exact h.reject e.fd
      · exact h
      · exact h

theorem Stamped.sweepStale (h : io.Stamped T) (now : Ticks) : (io.sweepStale now).Stamped T := by
  apply List.foldlRecOn (motive := fun io : RequestIO => io.Stamped T) _ _ h
  intro io h fd _
  unfold sweepSlot
  split
  · exact h
  · split_ifs
    · exact h.reject fd
    · exact h

/-- A step stamps the slots with its own readings. -/
theorem Stamped.step (h : io.Stamped T) {l : LoopStep} (hl : l.Passed T) {io' : RequestIO}
    (hs : io.step l = some io') : io'.Stamped T := by
  cases stepped hs with
  | wait polling nodup reported => exact h
  | @event env e rest io₁ ready dispatched =>
    have hnext : Stamped T { io with ready := rest } := h
    have hio₁ := hnext.dispatchEvent hl dispatched
    obtain ⟨r, phase, u, heq⟩ := io₁.unwind_eq
    rw [heq]
    exact hio₁
  | sweep ready => exact h.sweepStale _
  | take taken =>
    obtain ⟨t, rest, -, rfl⟩ := take_eq_some taken
    exact h
  | @finish i handler _ served =>
    obtain ⟨t, -, rfl⟩ := Option.map_eq_some_iff.mp served
    cases handler with
    | returns keepAlive => exact h
    | escapes => exact h
  | stop polling => exact h
  | shutdown stopping queue running =>
    intro fd st hst
    cases hst

end
end RequestIO
end Vermell.Request
