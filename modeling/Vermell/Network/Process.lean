import Vermell.Network.MainProcess

/-! The process while its loops run and while `getMainProcess` takes them down: which descriptors
are open at any time, and which are left at the end. -/
namespace Vermell.Network
open Runs Request

/-- The kernel holds the descriptors of the setup; the clients are with their loops. -/
structure Process (n : ℕ) where
  kernel : Kernel
  loops : Fin n → EventLoop
  clients : Loops n
  down : Finset (Fin n) := ∅

inductive ProcessStep (n : ℕ)
  | run (l : MainStep n)
  | finish (i : Fin n)

namespace Process
variable {n : ℕ}

/-- A descriptor that the kernel refused is -1, which no event names. -/
def NO_FD : ℕ := 2^32 - 1

def start (c : MainConfig) (loops : List EventLoop) (k : Kernel) : Process loops.length where
  kernel := k
  loops := loops.get
  clients := Loops.start _ c.request c.pool (fun i => (loops.get i).listener.socketId.getD NO_FD)
    fun i => (loops.get i).notifyFd.getD NO_FD

/-- Where a step takes place, and what it needs of the kernel: an accepted connection comes on a
descriptor that is not in use. The shutdown of a loop belongs to its teardown. -/
def allows (p : Process n) : MainStep n → Bool
  | .accept i a => i ∉ p.down && a.fd ∉ p.kernel.openFds
  | .loop _ .shutdown => false
  | .loop i _ => i ∉ p.down

def step (p : Process n) : ProcessStep n → Option (Process n)
  | .run l => if p.allows l then (p.clients.step l).map fun s => { p with clients := s } else none
  | .finish i =>
    if i ∈ p.down then none
    else
      (p.clients.step (.loop i .shutdown)).map fun s =>
        { p with kernel := closeLoop p.kernel (p.loops i), clients := s, down := insert i p.down }

def Orderly (p : Process n) : ProcessStep n → Prop
  | .run l => p.clients.Orderly l
  | .finish i => p.clients.Orderly (.loop i .shutdown)

instance decidableOrderly (p : Process n) : ∀ l, Decidable (p.Orderly l)
  | .run l => inferInstanceAs (Decidable (p.clients.Orderly l))
  | .finish i => inferInstanceAs (Decidable (p.clients.Orderly (.loop i .shutdown)))

/-- The descriptors of the client connections. -/
def clientFds (p : Process n) : Finset ℕ := Finset.univ.biUnion fun i => (p.clients i).openFds

/-- All open descriptors of the process. -/
def openFds (p : Process n) : Finset ℕ := p.kernel.openFds ∪ p.clientFds

/-- The descriptors of one loop that the setup opened and that are still open. -/
def ownOf (p : Process n) (i : Fin n) : List ℕ :=
  if i ∈ p.down then (p.loops i).notifyFd.toList else (p.loops i).fds

def own (p : Process n) : List ℕ := (List.finRange n).flatMap p.ownOf

/-- What the steps keep. -/
structure Kept (base : Finset ℕ) (cfg : Request.Config) (p : Process n) : Prop where
  booked : p.clients.Booked cfg
  holds : p.kernel.Holds base p.own
  apart : ∀ i, Disjoint p.kernel.openFds (p.clients i).openFds
  clients : ∀ i j, i ≠ j → Disjoint (p.clients i).openFds (p.clients j).openFds
  gone : ∀ i ∈ p.down, (p.clients i).openFds = ∅

theorem kept_start (base : Finset ℕ) (c : MainConfig) {loops : List EventLoop} {k : Kernel}
    (h : k.Holds base (loops.flatMap EventLoop.fds)) :
    (start c loops k).Kept base c.request where
  booked := Loops.booked_start _ _ _ _ _
  holds := by
    have hown : (start c loops k).own = loops.flatMap EventLoop.fds := by
      have hof : (start c loops k).ownOf = fun i => (loops.get i).fds := by
        funext i
        simp [ownOf, start]
      have hmap : loops.flatMap EventLoop.fds =
          ((List.finRange loops.length).map loops.get).flatMap EventLoop.fds := by
        rw [List.map_get_finRange]
      rw [own, hof, hmap, List.flatMap_map]
    rw [hown]
    exact h
  apart := fun _ => Finset.disjoint_empty_right _
  clients := fun _ _ _ => Finset.disjoint_empty_left _
  gone := fun _ hi => absurd hi (Finset.notMem_empty _)

section
variable {base : Finset ℕ} {cfg : Request.Config} {p q : Process n}

/-- A loop whose clients only become fewer keeps the descriptors apart. -/
theorem Kept.shrink (h : p.Kept base cfg) {i : Fin n} {io : RequestIO}
    (hbooked : Loops.Booked cfg (Function.update p.clients i io))
    (hsub : io.openFds ⊆ (p.clients i).openFds) :
    ({ p with clients := Function.update p.clients i io } : Process n).Kept base cfg := by
  have hless (j : Fin n) : (Function.update p.clients i io j).openFds ⊆ (p.clients j).openFds := by
    by_cases hj : j = i
    · subst hj
      rw [Function.update_self]
      exact hsub
    · rw [Function.update_of_ne hj]
  refine ⟨hbooked, h.holds, fun j => ?_, fun j k hne => ?_, fun j hj => ?_⟩
  · exact (h.apart j).mono_right (hless j)
  · exact (h.clients j k hne).mono (hless j) (hless k)
  · exact Finset.subset_empty.mp (h.gone j hj ▸ hless j)

/-- An accepted connection comes on a descriptor of its own. -/
theorem Kept.accept (h : p.Kept base cfg) {i : Fin n} {a : RequestIO.Accepted}
    (hbooked : Loops.Booked cfg (Function.update p.clients i ((p.clients i).acceptOne a)))
    (hdown : i ∉ p.down) (hfresh : a.fd ∉ p.kernel.openFds)
    (hunused : ∀ j, a.fd ∉ (p.clients j).openFds) :
    ({ p with clients := Function.update p.clients i ((p.clients i).acceptOne a) } :
      Process n).Kept base cfg := by
  have hopen : ((p.clients i).acceptOne a).openFds ⊆ insert a.fd (p.clients i).openFds := by
    unfold RequestIO.acceptOne
    simp only
    split_ifs
    · exact Finset.erase_subset _ _
    · exact Finset.erase_subset _ _
    · exact Finset.Subset.refl _
  have hmore (j : Fin n) : (Function.update p.clients i ((p.clients i).acceptOne a) j).openFds ⊆
      insert a.fd (p.clients j).openFds := by
    by_cases hj : j = i
    · subst hj
      rw [Function.update_self]
      exact hopen
    · rw [Function.update_of_ne hj]
      exact Finset.subset_insert _ _
  have hsame (j : Fin n) (hj : j ≠ i) :
      (Function.update p.clients i ((p.clients i).acceptOne a) j).openFds =
        (p.clients j).openFds := by rw [Function.update_of_ne hj]
  have hinsert (j k : Fin n) (hne : j ≠ k) :
      Disjoint (insert a.fd (p.clients j).openFds) (p.clients k).openFds :=
    Finset.disjoint_insert_left.mpr ⟨hunused k, h.clients j k hne⟩
  refine ⟨hbooked, h.holds, fun j => ?_, fun j k hne => ?_, fun j hj => ?_⟩
  · apply Disjoint.mono_right (hmore j)
    exact Finset.disjoint_insert_right.mpr ⟨hfresh, h.apart j⟩
  · by_cases hj : j = i
    · rw [hsame k (hj ▸ hne.symm)]
      exact (hinsert j k hne).mono_left (hmore j)
    · rw [hsame j hj]
      exact ((hinsert k j hne.symm).mono_left (hmore k)).symm
  · rw [hsame j fun heq => hdown (heq ▸ hj)]
    exact h.gone j hj

/-- The teardown of a loop closes its clients, its epoll instance and its listener. -/
theorem Kept.finish (h : p.Kept base cfg) {i : Fin n} (hdown : i ∉ p.down)
    {io : RequestIO} (hbooked : Loops.Booked cfg (Function.update p.clients i io))
    (hempty : io.openFds = ∅) :
    ({ p with
        kernel := closeLoop p.kernel (p.loops i)
        clients := Function.update p.clients i io
        down := insert i p.down } : Process n).Kept base cfg := by
  let q : Process n :=
    { p with
      kernel := closeLoop p.kernel (p.loops i)
      clients := Function.update p.clients i io
      down := insert i p.down }
  have hi : (List.finRange n).Perm (i :: (List.finRange n).erase i) :=
    List.perm_cons_erase (List.mem_finRange i)
  have hown : p.own.Perm ((p.loops i).fds ++ ((List.finRange n).erase i).flatMap p.ownOf) := by
    have hof : p.ownOf i = (p.loops i).fds := if_neg hdown
    have hperm := hi.flatMap_right p.ownOf
    rwa [List.flatMap_cons, hof] at hperm
  have hown' : q.own.Perm
      ((p.loops i).notifyFd.toList ++ ((List.finRange n).erase i).flatMap p.ownOf) := by
    have hof : q.ownOf i = (p.loops i).notifyFd.toList := if_pos (Finset.mem_insert_self i p.down)
    have hothers : ((List.finRange n).erase i).flatMap q.ownOf =
        ((List.finRange n).erase i).flatMap p.ownOf := by
      apply List.flatMap_congr
      intro j hj
      have hne : j ≠ i := ((List.nodup_finRange n).mem_erase_iff.mp hj).1
      simp [q, ownOf, Finset.mem_insert, hne]
    have hperm := hi.flatMap_right q.ownOf
    rwa [List.flatMap_cons, hof, hothers] at hperm
  have hclosed := holds_closeLoop (Descriptors.Holds.perm h.holds hown)
  have hholds : q.kernel.Holds base q.own := Descriptors.Holds.perm hclosed hown'.symm
  have hkernel : q.kernel.openFds ⊆ p.kernel.openFds := openFds_closeLoop _ _
  have hshrunk := h.shrink hbooked (by rw [hempty]; exact Finset.empty_subset _)
  refine ⟨hbooked, hholds, fun j => (hshrunk.apart j).mono_left hkernel, hshrunk.clients, ?_⟩
  intro j hj
  rcases Finset.mem_insert.mp hj with rfl | hj
  · change (Function.update p.clients j io j).openFds = ∅
    rw [Function.update_self]
    exact hempty
  · exact hshrunk.gone j hj

/-- A step that meets its condition keeps all descriptors accounted for. -/
theorem Kept.step (h : p.Kept base cfg) {l : ProcessStep n} (hok : p.Orderly l)
    (hs : p.step l = some q) : q.Kept base cfg := by
  cases l with
  | run l =>
    simp only [Process.step] at hs
    split_ifs at hs with hallows
    obtain ⟨s, hstep, rfl⟩ := Option.map_eq_some_iff.mp hs
    have hbooked := h.booked.step hok hstep
    cases l with
    | accept i a =>
      simp only [Loops.step] at hstep
      split_ifs at hstep with hcan
      cases hstep
      simp only [allows, Bool.and_eq_true, decide_eq_true_eq] at hallows
      refine h.accept hbooked hallows.1 hallows.2 fun j => ?_
      have hunused := hcan.2 j
      simp only [Bool.and_eq_true, RequestIO.unused, decide_eq_true_eq] at hunused
      exact hunused.1.1.1
    | loop i l =>
      simp only [Loops.step] at hstep
      split_ifs at hstep with hquiet
      obtain ⟨io, hio, rfl⟩ := Option.map_eq_some_iff.mp hstep
      have hless := RequestIO.openFds_step hquiet hio
      exact h.shrink hbooked hless
  | finish i =>
    simp only [Process.step] at hs
    split_ifs at hs with hdown
    obtain ⟨s, hstep, rfl⟩ := Option.map_eq_some_iff.mp hs
    have hbooked := h.booked.step (l := .loop i .shutdown) hok hstep
    simp only [Loops.step] at hstep
    split_ifs at hstep with hquiet
    obtain ⟨io, hio, rfl⟩ := Option.map_eq_some_iff.mp hstep
    have hkept := hbooked.kept i
    rw [Function.update_self] at hkept
    refine h.finish hdown hbooked (hkept.accounted.down ?_)
    cases RequestIO.stepped hio with
    | shutdown stopping queue running => rfl

end

end Process

end Vermell.Network
