import Mathlib.Data.Finset.Basic
import Mathlib.Tactic

/-! The descriptors of a process. A descriptor that is opened was not in use, and the log keeps for
each `close` whether it met an open descriptor. -/

/-- The open descriptors, and the closes so far. -/
structure Descriptors where
  openFds : Finset ℕ
  closes : List (ℕ × Bool) := []

namespace Descriptors

/-- Every close met an open descriptor. -/
def Once (d : Descriptors) : Prop := ∀ c ∈ d.closes, c.2 = true

section
variable (d : Descriptors) (fd : ℕ)

/-- The kernel hands out a descriptor that is not in use. -/
def opened : Option Descriptors :=
  if fd ∈ d.openFds then none else some { d with openFds := insert fd d.openFds }

def close : Descriptors :=
  { openFds := d.openFds.erase fd, closes := d.closes ++ [(fd, decide (fd ∈ d.openFds))] }

@[simp] theorem openFds_close : (d.close fd).openFds = d.openFds.erase fd := rfl

variable {d fd}

theorem opened_eq_some {d' : Descriptors} (h : d.opened fd = some d') :
    fd ∉ d.openFds ∧ d'.openFds = insert fd d.openFds ∧ d'.closes = d.closes := by
  unfold opened at h
  split_ifs at h with hopen
  cases h
  exact ⟨hopen, rfl, rfl⟩

theorem Once.opened {d' : Descriptors} (hd : d.Once) (h : d.opened fd = some d') : d'.Once := by
  unfold Once
  rw [(opened_eq_some h).2.2]
  exact hd

theorem Once.close (hd : d.Once) (hopen : fd ∈ d.openFds) : (d.close fd).Once := by
  intro c hc
  rcases List.mem_append.mp hc with hc | hc
  · exact hd c hc
  · rw [List.mem_singleton.mp hc]
    exact decide_eq_true hopen

end

/-- The process holds the descriptors it started with and those of its own, each its own once. -/
structure Holds (d : Descriptors) (base : Finset ℕ) (own : List ℕ) : Prop where
  openFds : d.openFds = base ∪ own.toFinset
  apart : ∀ fd ∈ own, fd ∉ base
  nodup : own.Nodup
  once : d.Once

variable {d d' : Descriptors} {base : Finset ℕ} {own : List ℕ} {fd : ℕ}

theorem holds_nil (h : d.Once) : d.Holds d.openFds [] :=
  ⟨by simp, by simp, List.nodup_nil, h⟩

theorem Holds.opened (h : d.Holds base own) (hd : d.opened fd = some d') :
    d'.Holds base (fd :: own) := by
  obtain ⟨hfresh, hopen, -⟩ := opened_eq_some hd
  rw [h.openFds, Finset.mem_union, List.mem_toFinset, not_or] at hfresh
  refine ⟨?_, ?_, List.nodup_cons.mpr ⟨hfresh.2, h.nodup⟩, h.once.opened hd⟩
  · rw [hopen, h.openFds, List.toFinset_cons, Finset.union_insert]
  · exact List.forall_mem_cons.mpr ⟨hfresh.1, h.apart⟩

/-- What the process closes of its own, it no longer holds. -/
theorem Holds.close (h : d.Holds base own) (hfd : fd ∈ own) :
    (d.close fd).Holds base (own.erase fd) := by
  have hbase := h.apart fd hfd
  refine ⟨?_, ?_, h.nodup.erase fd, ?_⟩
  · rw [openFds_close, h.openFds, Finset.erase_union_distrib, Finset.erase_eq_of_notMem hbase]
    congr 1
    ext x
    rw [Finset.mem_erase, List.mem_toFinset, List.mem_toFinset, h.nodup.mem_erase_iff]
  · exact fun x hx => h.apart x (List.mem_of_mem_erase hx)
  · apply h.once.close
    rw [h.openFds]
    exact Finset.mem_union_right base (List.mem_toFinset.mpr hfd)

theorem Holds.close_last (h : d.Holds base [fd]) : (d.close fd).Holds base [] := by
  simpa using h.close (List.mem_singleton.mpr rfl)

/-- The order in which the process counts its own does not matter. -/
theorem Holds.perm {own' : List ℕ} (h : d.Holds base own) (hperm : own.Perm own') :
    d.Holds base own' := by
  refine ⟨?_, ?_, hperm.nodup_iff.mp h.nodup, h.once⟩
  · rw [h.openFds, List.toFinset_eq_of_perm own own' hperm]
  · exact fun x hx => h.apart x (hperm.mem_iff.mpr hx)

end Descriptors
