import Mathlib.Logic.Relation
import Vermell.Router.Patterns

/-! What a pattern captures: `match_pattern` against the substitutions of a pattern, and the slashes
and escapes of the paths that it is given. -/
namespace Vermell.Router
open Http

theorem hexValue_none_or {h l : UInt8}
    (hnot : ∀ hi lo, hexValue h = some hi → hexValue l = some lo → False) :
    hexValue h = none ∨ hexValue l = none := by
  by_contra hboth
  rw [not_or] at hboth
  obtain ⟨hi, hhi⟩ := Option.ne_none_iff_exists'.mp hboth.1
  obtain ⟨lo, hlo⟩ := Option.ne_none_iff_exists'.mp hboth.2
  exact hnot hi lo hhi hlo

/-- A byte that no escape starts with is decoded alone. -/
theorem percentDecode_cons {c : UInt8} {s : Bytes}
    (h : ∀ x y t, s = x :: y :: t → c = PERCENT → hexValue x = none ∨ hexValue y = none) :
    percentDecode (c :: s) = c :: percentDecode s := by
  cases s with
  | nil => rfl
  | cons x s =>
    cases s with
    | nil => rfl
    | cons y t =>
      rw [percentDecode]
      by_cases hc : c = PERCENT
      · cases h x y t rfl hc with
        | inl hx => rw [hx]
        | inr hy =>
          rw [hy]
          cases hexValue x <;> rfl
      · simp only [hc, if_false]
        split <;> rfl

theorem percentDecode_escape {h l c : UInt8} (high : hexValue h = some (c.toNat / 16))
    (low : hexValue l = some (c.toNat % 16)) (t : Bytes) :
    percentDecode (PERCENT :: h :: l :: t) = c :: percentDecode t := by
  rw [percentDecode, high, low]
  simp only [if_true]
  rw [Nat.div_add_mod' c.toNat 16]
  simp

/-- No escape straddles a byte that is no hex digit. -/
theorem percentDecode_append {c : UInt8} (hc : hexValue c = none) (s t : Bytes) :
    percentDecode (s ++ c :: t) = percentDecode s ++ percentDecode (c :: t) := by
  fun_induction percentDecode s with
  | case1 h l tail hi lo hhi hlo ih =>
    simp only [List.cons_append] at ih ⊢
    rw [percentDecode, hhi, hlo]
    simp only [if_true, ih]
  | case2 d h l tail hi lo hhi hlo hd ih =>
    simp only [List.cons_append] at ih ⊢
    rw [percentDecode_cons (fun _ _ _ _ h => absurd h hd), ih]
  | case3 d h l tail hnot ih =>
    simp only [List.cons_append] at ih ⊢
    rw [percentDecode_cons, ih]
    intro x y u heq _
    cases heq
    exact hexValue_none_or hnot
  | case4 d rest hrest ih =>
    simp only [List.cons_append]
    rw [percentDecode_cons, ih]
    -- the rest is shorter than an escape, so that the byte is one of its digits
    intro x y u heq _
    cases rest with
    | nil =>
      cases heq
      exact .inl hc
    | cons e rest =>
      cases rest with
      | nil =>
        cases heq
        exact .inr hc
      | cons f rest => exact absurd rfl (hrest e f rest)
  | case5 => rfl

end Vermell.Router
