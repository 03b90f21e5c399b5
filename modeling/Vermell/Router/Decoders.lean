import Vermell.Router.UrlEncoded

/-! `url_decode` and `percent_decode`: one is the other behind a replacement of pluses, and both
keep what is no escape. -/
namespace Vermell.Router
open Http

/-- The encodings of one byte in a path. -/
inductive PathByte (c : UInt8) : Bytes → Prop
  | literal (hplain : c ≠ PERCENT) : PathByte c [c]
  | escape {h l : UInt8} (high : hexValue h = some (c.toNat / 16))
    (low : hexValue l = some (c.toNat % 16)) : PathByte c [PERCENT, h, l]

/-- The encodings of a text, each byte in any of its own. -/
inductive PathEncoded : Bytes → Bytes → Prop
  | nil : PathEncoded [] []
  | cons {c : UInt8} {s e t : Bytes} (byte : PathByte c e) (rest : PathEncoded s t) :
    PathEncoded (c :: s) (e ++ t)

theorem percentDecode_encoded {s t : Bytes} (h : PathEncoded s t) : percentDecode t = s := by
  induction h with
  | nil => rfl
  | cons byte rest ih =>
    cases byte with
    | literal hplain =>
      rw [List.singleton_append, percentDecode_cons (fun _ _ _ _ heq => absurd heq hplain), ih]
    | escape high low =>
      rw [List.cons_append, List.cons_append, List.singleton_append, percentDecode_escape high low,
        ih]

/-- Two hex digits stand in front. -/
def TwoDigits (s : Bytes) : Prop :=
  ∃ h l t, s = h :: l :: t ∧ hexValue h ≠ none ∧ hexValue l ≠ none

/-- A percent sign that starts no escape is kept, and decodes nothing of what surrounds it. -/
theorem percentDecode_malformed (u : Bytes) {s : Bytes} (h : ¬TwoDigits s) :
    percentDecode (u ++ PERCENT :: s) = percentDecode u ++ PERCENT :: percentDecode s := by
  rw [percentDecode_append (by decide), percentDecode_cons]
  intro x y t heq _
  by_contra hboth
  rw [not_or] at hboth
  exact h ⟨x, y, t, heq, hboth.1, hboth.2⟩

theorem twoDigits_of_map_plusDecode {s : Bytes} (h : TwoDigits (s.map plusDecode)) :
    TwoDigits s := by
  obtain ⟨x, y, t, heq, hx, hy⟩ := h
  obtain ⟨a, s', rfl, rfl, hs'⟩ := List.map_eq_cons_iff.mp heq
  obtain ⟨b, s'', rfl, rfl, -⟩ := List.map_eq_cons_iff.mp hs'
  rw [hexValue_plusDecode] at hx hy
  exact ⟨a, b, s'', rfl, hx, hy⟩

theorem urlDecode_malformed (u : Bytes) {s : Bytes} (h : ¬TwoDigits s) :
    urlDecode (u ++ PERCENT :: s) = urlDecode u ++ PERCENT :: urlDecode s := by
  have hpercent : plusDecode PERCENT = PERCENT := rfl
  simp only [urlDecode_eq_percentDecode, List.map_append, List.map_cons, hpercent]
  exact percentDecode_malformed _ (mt twoDigits_of_map_plusDecode h)

/-- The decoders differ in the pluses only, invert every encoding of a path, and keep an escape that
is malformed or cut off, wherever it stands. -/
theorem decoders_agree :
    (∀ s, urlDecode s = percentDecode (s.map plusDecode)) ∧
      (∀ s t, PathEncoded s t → percentDecode t = s) ∧
      ∀ u s, ¬TwoDigits s →
        percentDecode (u ++ PERCENT :: s) = percentDecode u ++ PERCENT :: percentDecode s ∧
          urlDecode (u ++ PERCENT :: s) = urlDecode u ++ PERCENT :: urlDecode s :=
  ⟨urlDecode_eq_percentDecode, fun _ _ => percentDecode_encoded,
    fun u _ h => ⟨percentDecode_malformed u h, urlDecode_malformed u h⟩⟩

/-- `a+%2F` is an encoding of `a+/`. -/
theorem decoders_agree_plus : percentDecode [97, 43, 37, 50, 70] = [97, 43, 47] := by
  have hencoded : PathEncoded [97, 43, 47] ([97] ++ ([43] ++ ([37, 50, 70] ++ []))) :=
    .cons (.literal (by decide)) (.cons (.literal (by decide)) (.cons (.escape rfl rfl) .nil))
  exact decoders_agree.2.1 _ _ hencoded

end Vermell.Router
