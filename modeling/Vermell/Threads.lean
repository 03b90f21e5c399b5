import Mathlib.Algebra.BigOperators.Group.Finset.Basic
import Mathlib.Tactic

/-! Threads that are each in a phase of their own. One thread moves at a time, so what the phases
add up to changes by the phase that is left and the phase that is entered. -/
namespace Threads
variable {W P : Type*} [DecidableEq W] (phase : W → P) (w : W) (p : P)

theorem exists_update_iff (Q : P → Prop) :
    (∃ v, Q (Function.update phase w p v)) ↔ Q p ∨ ∃ v, v ≠ w ∧ Q (phase v) := by
  constructor
  · rintro ⟨v, hv⟩
    by_cases h : v = w
    · subst h
      rw [Function.update_self] at hv
      exact Or.inl hv
    · rw [Function.update_of_ne h] at hv
      exact Or.inr ⟨v, h, hv⟩
  · rintro (hp | ⟨v, h, hv⟩)
    · exact ⟨w, by rwa [Function.update_self]⟩
    · exact ⟨v, by rwa [Function.update_of_ne h]⟩

/-- Where the phase that is left does not count, the threads that do are the same or the one that
moves. -/
theorem exists_update_iff_of_not {Q : P → Prop} (h : ¬Q (phase w)) :
    (∃ v, Q (Function.update phase w p v)) ↔ Q p ∨ ∃ v, Q (phase v) := by
  rw [exists_update_iff]
  refine or_congr_right ⟨fun ⟨v, _, hv⟩ => ⟨v, hv⟩, fun ⟨v, hv⟩ => ⟨v, ?_, hv⟩⟩
  intro heq
  exact h (heq ▸ hv)

theorem sum_update {M : Type*} [AddCommMonoid M] [Fintype W] (g : P → M) :
    ∑ v, g (Function.update phase w p v) + g (phase w) = ∑ v, g (phase v) + g p := by
  have hrest : ∑ v ∈ Finset.univ.erase w, g (Function.update phase w p v) =
      ∑ v ∈ Finset.univ.erase w, g (phase v) := by
    apply Finset.sum_congr rfl
    intro v hv
    rw [Function.update_of_ne (Finset.ne_of_mem_erase hv)]
  have hupdate := Finset.sum_erase_add Finset.univ (fun v => g (Function.update phase w p v))
    (Finset.mem_univ w)
  have hphase := Finset.sum_erase_add Finset.univ (fun v => g (phase v)) (Finset.mem_univ w)
  rw [← hupdate, ← hphase, hrest, Function.update_self, add_right_comm]

end Threads
