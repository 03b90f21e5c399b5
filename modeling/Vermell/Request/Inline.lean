import Vermell.Request.Accounting

/-! Inline mode. No step changes what a `RequestIO` was made with, so without a pool nothing is ever
in flight, and the accounting holds along every run. -/
namespace Vermell.Request
open Http Runs
namespace RequestIO

section
variable (io : RequestIO) (fd : ℕ)

/-- What a `RequestIO` is made with and keeps. -/
def setup : Config × Bool × ℕ × ℕ := (io.cfg, io.pool, io.listenerFd, io.notifyFd)

theorem setup_handleReadable (env : ReadEnv) : (io.handleReadable fd env).setup = io.setup := by
  cases hends : (io.readOutcome fd env).stop.ends env.accepted with
  | true =>
    obtain ⟨_, _, _, heq, -⟩ := io.handleReadable_ended fd env hends
    rw [heq]
    rfl
  | false =>
    obtain ⟨_, _, _, _, _, heq, -⟩ := io.handleReadable_kept fd env hends
    rw [heq]
    rfl

theorem setup_rearmConnection (now : Ticks) (env : ReadEnv) :
    (io.rearmConnection fd now env).setup = io.setup := by
  have hrearmed : (io.rearmed fd now).setup = io.setup := by
    obtain ⟨_, _, heq, -⟩ := io.rearmed_eq fd now
    rw [heq]
    rfl
  unfold rearmConnection
  simp only
  split_ifs
  · rw [setup_handleReadable, hrearmed]
  · exact hrearmed

theorem setup_drainEach (done : List Completion) (envs : ℕ → DrainEnv) :
    (drainEach envs done io).setup = io.setup := by
  induction done generalizing io envs with
  | nil => rfl
  | cons c rest ih =>
    rw [drainEach, ih]
    unfold drainOne
    split_ifs
    · exact io.setup_rearmConnection c.fd _ _
    · rfl

theorem setup_acceptPending {accs : List Accepted} {io' : RequestIO}
    (h : io.acceptPending accs = some io') : io'.setup = io.setup := by
  induction accs generalizing io with
  | nil =>
    cases h
    rfl
  | cons a rest ih =>
    unfold acceptPending at h
    split_ifs at h
    rw [ih _ h]
    unfold acceptOne
    simp only
    split_ifs <;> rfl

theorem setup_reject : (io.reject fd).setup = io.setup := rfl

theorem setup_dispatchClient (e : Event) (env : ReadEnv) :
    (io.dispatchClient e env).setup = io.setup := by
  have hread := io.setup_handleReadable e.fd env
  unfold dispatchClient
  simp only
  split_ifs
  · exact hread
  · rw [setup_reject]
    exact hread
  · exact hread
  · rfl
  · rw [setup_reject]
  · rfl
  · exact hread
  · rfl

theorem setup_foldl {α : Type*} {op : RequestIO → α → RequestIO}
    (hop : ∀ io x, (op io x).setup = io.setup) (xs : List α) :
    (xs.foldl op io).setup = io.setup := by
  induction xs generalizing io with
  | nil => rfl
  | cons x xs ih => rw [List.foldl_cons, ih, hop]

theorem setup_sweepStale (now : Ticks) : (io.sweepStale now).setup = io.setup := by
  apply setup_foldl
  intro io fd
  unfold sweepSlot
  cases io.slot fd with
  | none => rfl
  | some st =>
    simp only
    split_ifs <;> rfl

theorem setup_shutdown : io.shutdown.setup = io.setup := by
  have hclose (io : RequestIO) (fd : ℕ) : (io.closeSlot fd).setup = io.setup := by
    unfold closeSlot
    split_ifs <;> rfl
  have hretire (io : RequestIO) (c : Completion) : (io.retire c.fd).setup = io.setup := rfl
  exact (setup_foldl _ hclose _).trans (setup_foldl _ hretire _)

theorem setup_step {io io' : RequestIO} {l : LoopStep} (hs : io.step l = some io') :
    io'.setup = io.setup := by
  cases stepped hs with
  | wait polling nodup reported => rfl
  | @event env e rest io₁ ready dispatched =>
    obtain ⟨_, _, _, hunwind⟩ := io₁.unwind_eq
    rw [hunwind]
    change io₁.setup = io.setup
    unfold dispatchEvent at dispatched
    split_ifs at dispatched
    · cases dispatched
      exact setup_drainEach { io with ready := rest, completed := [] } io.completed env.drains
    · exact setup_acceptPending { io with ready := rest } dispatched
    · cases dispatched
      exact setup_dispatchClient _ e _
  | sweep ready => exact io.setup_sweepStale _
  | take taken =>
    obtain ⟨t, rest, -, rfl⟩ := take_eq_some taken
    rfl
  | @finish i handler _ served =>
    obtain ⟨t, -, rfl⟩ := Option.map_eq_some_iff.mp served
    cases handler <;> rfl
  | stop polling => rfl
  | shutdown stopping queue running => exact io.setup_shutdown

end

/-- Without a pool nothing is ever in flight, so every step meets the condition. -/
theorem Kept.orderly_inline {io : RequestIO} (h : io.Kept []) (hpool : io.pool = false)
    (l : LoopStep) : Orderly io l := by
  have hidle (fd : ℕ) : io.inFlight fd = 0 := by
    have := (h.ledgers fd).pooled hpool
    unfold flights at this
    omega
  cases l with
  | wait events => exact fun e _ _ => hidle e.fd
  | event env =>
    intro e _ hpool'
    rw [hpool] at hpool'
    cases hpool'
  | finish i handler =>
    cases handler with
    | returns keepAlive => trivial
    | escapes =>
      intro t ht
      have hrunning : io.running.countP (·.fd == t.fd) = 0 := by
        have := hidle t.fd
        unfold inFlight at this
        omega
      exact absurd (beq_self_eq_true t.fd)
        (List.countP_eq_zero.mp hrunning t (List.mem_of_getElem? ht))
  | sweep now => trivial
  | take => trivial
  | stop => trivial
  | shutdown => trivial

/-- In inline mode the accounting holds along every run. -/
theorem accounting_inline (cfg : Config) (listenerFd notifyFd : ℕ) (ls : List LoopStep) :
    Along step Accounted (start cfg false listenerFd notifyFd) ls := by
  have hkept : Along step (fun io => io.Kept [] ∧ io.pool = false)
      (start cfg false listenerFd notifyFd) ls := by
    apply along_of_invariant _ ⟨kept_start cfg false listenerFd notifyFd, rfl⟩
    rintro io l io' ⟨h, hpool⟩ hs
    refine ⟨h.preserved (h.orderly_inline hpool l) hs, ?_⟩
    have hsetup := congrArg (fun s => s.2.1) (setup_step hs)
    exact hsetup.trans hpool
  exact hkept.mono fun _ h => h.1.accounted

end RequestIO
end Vermell.Request
