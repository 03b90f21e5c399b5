import Vermell.Request.Inline

/-! `RouterEpoll`: the accept loops of one process. Each has a listener, a counter and a cap of its
own; the pool that they share hands every loop its own tasks in order. -/
namespace Vermell.Request
open Http Runs

inductive ListenType
  | WHILE | UNIQUE
  deriving DecidableEq, Repr

/-- `resolve_accept_threads`, with `hardware_concurrency` as a parameter. -/
def resolveAcceptThreads (acceptThreads cores : ℕ) : ℕ :=
  let n := if acceptThreads = 0 then (if cores = 0 then 1 else cores) else acceptThreads
  if n < 1 then 1 else n

def acceptCount (listenType : ListenType) (acceptThreads cores : ℕ) : ℕ :=
  if listenType = .WHILE then resolveAcceptThreads acceptThreads cores else 1

/-- The loops of a process, each with its `RequestIO`. -/
abbrev Loops (k : ℕ) := Fin k → RequestIO

/-- One loop accepts a connection out of its event for the listener, or takes any other step. -/
inductive MainStep (k : ℕ)
  | accept (i : Fin k) (a : RequestIO.Accepted)
  | loop (i : Fin k) (l : LoopStep)

/-- The event that is next is the listener's. -/
def RequestIO.accepting (io : RequestIO) : Bool :=
  io.ready.head?.any fun e => e.fd != io.notifyFd && e.fd == io.listenerFd

/-- The accepts of an event are steps of their own. -/
def LoopStep.quiet : LoopStep → Bool
  | .event env => env.accepts.isEmpty
  | _ => true

namespace Loops
variable {k : ℕ}

/-- The loops as `getMainProcess` starts them. -/
def start (k : ℕ) (cfg : Config) (pool : Bool) (listenerFd notifyFd : Fin k → ℕ) : Loops k :=
  fun i => RequestIO.start cfg pool (listenerFd i) (notifyFd i)

/-- `accept4` answers with a descriptor that no loop uses. -/
def step (s : Loops k) : MainStep k → Option (Loops k)
  | .accept i a =>
    if (s i).accepting ∧ ∀ j, (s j).unused a.fd then
      some (Function.update s i ((s i).acceptOne a))
    else none
  | .loop i l => if l.quiet then ((s i).step l).map (Function.update s i) else none

/-- The client connections that are open in the process. -/
def total (s : Loops k) : ℕ := ∑ i, (s i).openFds.card

/-- What the counters of all loops add up to. -/
def counted (s : Loops k) : ℕ := ∑ i, (s i).active.toNat

def Orderly (s : Loops k) : MainStep k → Prop
  | .accept _ _ => True
  | .loop i l => RequestIO.Orderly (s i) l

instance decidableOrderly (s : Loops k) : ∀ l, Decidable (s.Orderly l)
  | .accept _ _ => inferInstanceAs (Decidable True)
  | .loop i l => (s i).decidableOrderly l

/-- A connection that its loop lets in is let in by the same test on all counters together. -/
def Agrees (s : Loops k) : MainStep k → Prop
  | .accept i a => (s i).cfg.maxConnections ≠ 0 → a.added = true →
      (s i).active < (s i).cfg.maxConnections → s.counted < (s i).cfg.maxConnections.toNat
  | .loop _ _ => True

/-- The hard cap. -/
def Capped (cfg : Config) (s : Loops k) : Prop :=
  cfg.maxConnections ≠ 0 → s.total ≤ cfg.maxConnections.toNat

/-- Every loop keeps its books, with the same configuration. -/
structure Booked (cfg : Config) (s : Loops k) : Prop where
  kept : ∀ i, (s i).Kept []
  shared : ∀ i, (s i).cfg = cfg

end Loops

namespace RequestIO
variable (io : RequestIO) (fd : ℕ)

theorem openFds_handleReadable (env : ReadEnv) :
    (io.handleReadable fd env).openFds ⊆ io.openFds := by
  cases hends : (io.readOutcome fd env).stop.ends env.accepted with
  | true =>
    obtain ⟨_, _, _, heq, -⟩ := io.handleReadable_ended fd env hends
    rw [heq]
    exact Finset.erase_subset fd io.openFds
  | false =>
    obtain ⟨_, _, _, _, _, heq, -⟩ := io.handleReadable_kept fd env hends
    rw [heq]

theorem openFds_retire : (io.retire fd).openFds ⊆ io.openFds := Finset.erase_subset fd io.openFds

theorem openFds_rearmConnection (now : Ticks) (env : ReadEnv) :
    (io.rearmConnection fd now env).openFds ⊆ io.openFds := by
  have hrearmed : (io.rearmed fd now).openFds = io.openFds := by
    obtain ⟨_, _, heq, -⟩ := io.rearmed_eq fd now
    rw [heq]
  unfold rearmConnection
  simp only
  split_ifs
  · exact (openFds_handleReadable _ fd env).trans hrearmed.subset
  · exact hrearmed.subset

theorem openFds_foldl {α : Type*} {op : RequestIO → α → RequestIO}
    (hop : ∀ io x, (op io x).openFds ⊆ io.openFds) (xs : List α) :
    (xs.foldl op io).openFds ⊆ io.openFds := by
  induction xs generalizing io with
  | nil => exact Finset.Subset.refl _
  | cons x xs ih => exact (ih (op io x)).trans (hop io x)

theorem openFds_drainEach (done : List Completion) (envs : ℕ → DrainEnv) :
    (drainEach envs done io).openFds ⊆ io.openFds := by
  induction done generalizing io envs with
  | nil => exact Finset.Subset.refl _
  | cons c rest ih =>
    refine (ih (io.drainOne c (envs 0)) _).trans ?_
    unfold drainOne
    split_ifs
    · exact io.openFds_rearmConnection c.fd _ _
    · exact io.openFds_retire c.fd

theorem openFds_dispatchClient (e : Event) (env : ReadEnv) :
    (io.dispatchClient e env).openFds ⊆ io.openFds := by
  have hread := io.openFds_handleReadable e.fd env
  unfold dispatchClient
  simp only
  split_ifs
  · exact hread
  · exact (openFds_retire _ e.fd).trans hread
  · exact hread
  · exact Finset.Subset.refl _
  · exact io.openFds_retire e.fd
  · exact Finset.Subset.refl _
  · exact hread
  · exact Finset.Subset.refl _

theorem openFds_closeSlot : (io.closeSlot fd).openFds ⊆ io.openFds := by
  unfold closeSlot
  split_ifs
  · exact Finset.erase_subset fd io.openFds
  · exact Finset.Subset.refl _

theorem openFds_sweepSlot (now : Ticks) : (io.sweepSlot now fd).openFds ⊆ io.openFds := by
  unfold sweepSlot
  cases io.slot fd with
  | none => exact Finset.Subset.refl _
  | some st =>
    simp only
    split_ifs
    · exact io.openFds_retire fd
    · exact Finset.Subset.refl _

/-- Only an accept opens a connection. -/
theorem openFds_step {io io' : RequestIO} {l : LoopStep} (hquiet : l.quiet = true)
    (hs : io.step l = some io') : io'.openFds ⊆ io.openFds := by
  cases stepped hs with
  | wait polling nodup reported => exact Finset.Subset.refl _
  | @event env e rest io₁ ready dispatched =>
    obtain ⟨_, _, _, hunwind⟩ := io₁.unwind_eq
    rw [hunwind]
    change io₁.openFds ⊆ io.openFds
    unfold dispatchEvent at dispatched
    split_ifs at dispatched
    · cases dispatched
      exact openFds_drainEach { io with ready := rest, completed := [] } io.completed env.drains
    · rw [List.isEmpty_iff.mp hquiet] at dispatched
      cases dispatched
      exact Finset.Subset.refl _
    · cases dispatched
      exact openFds_dispatchClient { io with ready := rest } e _
  | sweep ready => exact openFds_foldl io (fun io fd => io.openFds_sweepSlot fd _) _
  | take taken =>
    obtain ⟨t, rest, -, rfl⟩ := take_eq_some taken
    exact Finset.Subset.refl _
  | @finish i handler _ served =>
    obtain ⟨t, -, rfl⟩ := Option.map_eq_some_iff.mp served
    cases handler <;> exact Finset.Subset.refl _
  | stop polling => exact Finset.Subset.refl _
  | shutdown stopping queue running =>
    exact (openFds_foldl _ (fun io fd => io.openFds_closeSlot fd) _).trans
      (openFds_foldl _ (fun io (c : Completion) => io.openFds_retire c.fd) _)

end RequestIO

namespace Loops
open RequestIO
variable {k : ℕ} {cfg : Config} {s t : Loops k}

theorem Booked.counted (h : s.Booked cfg) : s.counted = s.total :=
  Finset.sum_congr rfl fun i _ => (h.kept i).totals.count

/-- One loop changes, the others keep what they hold. -/
theorem total_update (s : Loops k) (i : Fin k) (io : RequestIO) :
    total (Function.update s i io) + (s i).openFds.card = s.total + io.openFds.card := by
  have hothers : ∑ j ∈ Finset.univ.erase i, (Function.update s i io j).openFds.card =
      ∑ j ∈ Finset.univ.erase i, (s j).openFds.card := by
    apply Finset.sum_congr rfl
    intro j hj
    rw [Function.update_of_ne (Finset.ne_of_mem_erase hj)]
  have hnew := Finset.add_sum_erase Finset.univ
    (fun j => (Function.update s i io j).openFds.card) (Finset.mem_univ i)
  have hold := Finset.add_sum_erase Finset.univ (fun j => (s j).openFds.card) (Finset.mem_univ i)
  simp only [Function.update_self] at hnew
  unfold total
  omega

theorem Booked.update (h : s.Booked cfg) {i : Fin k} {io : RequestIO} (hkept : io.Kept [])
    (hcfg : io.cfg = cfg) : Booked cfg (Function.update s i io) := by
  constructor
  · intro j
    by_cases hj : j = i
    · rw [hj, Function.update_self]
      exact hkept
    · rw [Function.update_of_ne hj]
      exact h.kept j
  · intro j
    by_cases hj : j = i
    · rw [hj, Function.update_self]
      exact hcfg
    · rw [Function.update_of_ne hj]
      exact h.shared j

/-- A step that meets the condition keeps the books of every loop. -/
theorem Booked.step (h : s.Booked cfg) {l : MainStep k} (hok : s.Orderly l)
    (hs : s.step l = some t) : t.Booked cfg := by
  cases l with
  | accept i a =>
    simp only [Loops.step] at hs
    split_ifs at hs with hcan
    cases hs
    have hphase : (s i).phase ≠ .down := by
      intro hdown
      have hquiet := (h.kept i).totals.quiet (by simp [hdown])
      simp [accepting, hquiet] at hcan
    apply h.update ((h.kept i).acceptOne (hcan.2 i) hphase)
    rw [← h.shared i]
    unfold acceptOne
    simp only
    split_ifs <;> rfl
  | loop i l =>
    simp only [Loops.step] at hs
    split_ifs at hs with hquiet
    obtain ⟨io, hio, rfl⟩ := Option.map_eq_some_iff.mp hs
    apply h.update ((h.kept i).preserved hok hio)
    rw [← h.shared i]
    exact congrArg Prod.fst (setup_step hio)

/-- What one accept does to the number of open connections: its own loop decides. -/
theorem card_acceptOne (io : RequestIO) {a : Accepted} (hfd : a.fd ∉ io.openFds) :
    (io.acceptOne a).openFds.card = io.openFds.card +
      if (io.cfg.maxConnections ≠ 0 → io.active < io.cfg.maxConnections) ∧ a.added = true then 1
      else 0 := by
  have hrefused : ((insert a.fd io.openFds).erase a.fd).card = io.openFds.card := by
    rw [Finset.erase_insert hfd]
  have hinserted : (insert a.fd io.openFds).card = io.openFds.card + 1 :=
    Finset.card_insert_of_notMem hfd
  unfold acceptOne
  dsimp only
  by_cases hcap : io.cfg.maxConnections ≠ 0 ∧ io.active ≥ io.cfg.maxConnections
  · have hout : ¬((io.cfg.maxConnections ≠ 0 → io.active < io.cfg.maxConnections) ∧
        a.added = true) := fun hin => absurd (hin.1 hcap.1) (UInt64.not_lt.mpr hcap.2)
    rw [if_pos hcap, if_neg hout]
    exact hrefused
  · have hroom : io.cfg.maxConnections ≠ 0 → io.active < io.cfg.maxConnections := by
      intro hmax
      exact UInt64.not_le.mp fun hge => hcap ⟨hmax, hge⟩
    rw [if_neg hcap]
    cases a.added with
    | false =>
      rw [if_pos (by decide), if_neg (fun hin => Bool.false_ne_true hin.2)]
      exact hrefused
    | true =>
      rw [if_neg (by decide), if_pos ⟨hroom, rfl⟩]
      exact hinserted

/-- A step within the cap stays within it exactly when a connection that it lets in is let in by
the test on all counters as well. -/
theorem Booked.capped_iff (h : s.Booked cfg) (hcap : s.Capped cfg) {l : MainStep k}
    (hs : s.step l = some t) : t.Capped cfg ↔ s.Agrees l := by
  cases l with
  | accept i a =>
    simp only [Loops.step] at hs
    split_ifs at hs with hcan
    cases hs
    have hfd : a.fd ∉ (s i).openFds := by
      have hunused := hcan.2 i
      simp only [unused, Bool.and_eq_true, decide_eq_true_eq] at hunused
      exact hunused.1.1.1
    have htotal := total_update s i ((s i).acceptOne a)
    rw [card_acceptOne _ hfd] at htotal
    simp only [Capped, Agrees, h.counted, h.shared i] at hcap htotal ⊢
    split_ifs at htotal with hin
    · constructor
      · intro hafter hmax _ _
        have hle := hafter hmax
        omega
      · intro hagrees hmax
        have hlt := hagrees hmax hin.2 (hin.1 hmax)
        omega
    · refine iff_of_true ?_ ?_
      · intro hmax
        have hle := hcap hmax
        omega
      · intro hmax hadded hlt
        exact absurd ⟨fun _ => hlt, hadded⟩ hin
  | loop i l =>
    simp only [Loops.step] at hs
    split_ifs at hs with hquiet
    obtain ⟨io, hio, rfl⟩ := Option.map_eq_some_iff.mp hs
    have hcard := Finset.card_le_card (openFds_step hquiet hio)
    have htotal := total_update s i io
    refine iff_of_true ?_ trivial
    intro hmax
    have hle := hcap hmax
    omega

theorem Booked.along_iff (h : s.Booked cfg) (hcap : s.Capped cfg) {ls : List (MainStep k)}
    (horderly : Guarded Loops.step Orderly s ls) :
    Along Loops.step (Capped cfg) s ls ↔ Guarded Loops.step Agrees s ls := by
  induction ls generalizing s with
  | nil => exact iff_of_true hcap trivial
  | cons l ls ih =>
    have hnext (t : Loops k) (ht : s.step l = some t) (hafter : t.Capped cfg) :
        Along Loops.step (Capped cfg) t ls ↔ Guarded Loops.step Agrees t ls :=
      ih (h.step (horderly t ht).1 ht) hafter (horderly t ht).2
    constructor
    · rintro ⟨-, hrun⟩ t ht
      have hafter := (hrun t ht).head
      exact ⟨(h.capped_iff hcap ht).mp hafter, (hnext t ht hafter).mp (hrun t ht)⟩
    · intro hrun
      refine ⟨hcap, fun t ht => ?_⟩
      have hafter := (h.capped_iff hcap ht).mpr (hrun t ht).1
      exact (hnext t ht hafter).mpr (hrun t ht).2

theorem booked_start (k : ℕ) (cfg : Config) (pool : Bool) (listenerFd notifyFd : Fin k → ℕ) :
    (start k cfg pool listenerFd notifyFd).Booked cfg :=
  ⟨fun i => kept_start cfg pool (listenerFd i) (notifyFd i), fun _ => rfl⟩

theorem capped_start (k : ℕ) (cfg : Config) (pool : Bool) (listenerFd notifyFd : Fin k → ℕ) :
    (start k cfg pool listenerFd notifyFd).Capped cfg := by
  intro _
  have hzero : (start k cfg pool listenerFd notifyFd).total = 0 :=
    Finset.sum_eq_zero fun _ _ => rfl
  rw [hzero]
  exact Nat.zero_le _

/-- The cap of the process. As long as no step upsets the accounting of its loop, it holds along a
run exactly when each accept that passes the test of its own loop passes it on all loops. -/
theorem connections_capped (listenType : ListenType) (acceptThreads cores : ℕ) (cfg : Config)
    (pool : Bool) (listenerFd notifyFd : Fin (acceptCount listenType acceptThreads cores) → ℕ)
    (ls : List (MainStep (acceptCount listenType acceptThreads cores)))
    (h : Guarded step Orderly (start _ cfg pool listenerFd notifyFd) ls) :
    Along step (Capped cfg) (start _ cfg pool listenerFd notifyFd) ls ↔
      Guarded step Agrees (start _ cfg pool listenerFd notifyFd) ls :=
  (booked_start _ cfg pool listenerFd notifyFd).along_iff
    (capped_start _ cfg pool listenerFd notifyFd) h

/-- A single loop has no other counters to miss. -/
theorem agrees_of_single {s : Loops 1} (l : MainStep 1) : s.Agrees l := by
  cases l with
  | accept i a =>
    intro _ _ hlt
    have hone : s.counted = (s i).active.toNat := by
      rw [counted, Fin.sum_univ_one, Subsingleton.elim i 0]
    rw [hone]
    exact UInt64.lt_iff_toNat_lt.mp hlt
  | loop i l => trivial

/-- So the cap of one loop is the cap of the process. -/
theorem connections_capped_single (cfg : Config) (pool : Bool) (listenerFd notifyFd : Fin 1 → ℕ)
    (ls : List (MainStep 1)) (h : Guarded step Orderly (start 1 cfg pool listenerFd notifyFd) ls) :
    Along step (Capped cfg) (start 1 cfg pool listenerFd notifyFd) ls :=
  ((booked_start 1 cfg pool listenerFd notifyFd).along_iff
    (capped_start 1 cfg pool listenerFd notifyFd) h).mpr
      (guarded_of_forall (fun _ l => agrees_of_single l) _ ls)

/-- Two loops, each of which lets one connection in. -/
def twoAccepts : List (MainStep 2) :=
  [.loop 0 (.wait [⟨3, true, false⟩]), .accept 0 ⟨10, true, 0⟩,
    .loop 1 (.wait [⟨4, true, false⟩]), .accept 1 ⟨11, true, 0⟩]

def twoLoops (cfg : Config) : Loops 2 :=
  start 2 cfg true (fun i => 3 + i.val) (fun i => 5 + i.val)

theorem connections_capped_two :
    Along step (Capped { maxConnections := 2 }) (twoLoops { maxConnections := 2 }) twoAccepts ↔
      Guarded step Agrees (twoLoops { maxConnections := 2 }) twoAccepts := by
  have horderly : Guarded step Orderly (twoLoops { maxConnections := 2 }) twoAccepts := by
    decide +kernel
  exact connections_capped .WHILE 2 4 { maxConnections := 2 } true (fun i => 3 + i.val)
    (fun i => 5 + i.val) twoAccepts horderly

theorem connections_over_cap : ¬∀ (listenType : ListenType) (acceptThreads cores : ℕ)
    (cfg : Config) (pool : Bool)
    (listenerFd notifyFd : Fin (acceptCount listenType acceptThreads cores) → ℕ)
    (ls : List (MainStep (acceptCount listenType acceptThreads cores))),
    Along step (Capped cfg) (start _ cfg pool listenerFd notifyFd) ls := by
  intro hall
  have hrun : (exec step (twoLoops { maxConnections := 1 }) twoAccepts).map total = some 2 := by
    decide +kernel
  obtain ⟨s, hs, htotal⟩ := Option.map_eq_some_iff.mp hrun
  have hcapped : s.total ≤ 1 := (hall .WHILE 2 4 { maxConnections := 1 } true (fun i => 3 + i.val)
    (fun i => 5 + i.val) twoAccepts).exec hs (by decide)
  omega

end Loops
end Vermell.Request
