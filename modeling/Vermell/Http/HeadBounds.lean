import Vermell.Http.Message

/-! Where the head ends. `headBounds` is the first position at which one of the two terminators
starts; it and the chunk scan read nothing behind the bytes they consume. -/
namespace Vermell.Http
open Text

theorem crlfcrlf_at_iff (raw : Bytes) (i : ℕ) : CRLFCRLF <+: raw.drop i ↔
    raw[i]? = some CR ∧ raw[i+1]? = some LF ∧ raw[i+2]? = some CR ∧ raw[i+3]? = some LF := by
  rw [occurs_iff_getElem?]
  constructor
  · intro h
    exact ⟨h 0 (by decide), h 1 (by decide), h 2 (by decide), h 3 (by decide)⟩
  · rintro ⟨h0, h1, h2, h3⟩ k hk
    match k, hk with
    | 0, _ => exact h0
    | 1, _ => exact h1
    | 2, _ => exact h2
    | 3, _ => exact h3

theorem lflf_at_iff (raw : Bytes) (i : ℕ) :
    LFLF <+: raw.drop i ↔ raw[i]? = some LF ∧ raw[i+1]? = some LF := by
  rw [occurs_iff_getElem?]
  constructor
  · intro h
    exact ⟨h 0 (by decide), h 1 (by decide)⟩
  · rintro ⟨h0, h1⟩ k hk
    match k, hk with
    | 0, _ => exact h0
    | 1, _ => exact h1

/-- A terminator of the given size starts at position `i`. -/
def TerminatorAt (raw : Bytes) (i : ℕ) (separator : ℕ) : Prop :=
  separator = 4 ∧ CRLFCRLF <+: raw.drop i ∨ separator = 2 ∧ LFLF <+: raw.drop i

/-- The two terminators start with different bytes, so they never start together. -/
theorem TerminatorAt.unique {raw : Bytes} {i k l : ℕ} (hk : TerminatorAt raw i k)
    (hl : TerminatorAt raw i l) : k = l := by
  have hdiff (h4 : CRLFCRLF <+: raw.drop i) (h2 : LFLF <+: raw.drop i) : False := by
    have hcr := ((crlfcrlf_at_iff _ _).mp h4).1
    have hlf := ((lflf_at_iff _ _).mp h2).1
    rw [hcr] at hlf
    exact absurd hlf (by decide)
  rcases hk with ⟨rfl, hk⟩ | ⟨rfl, hk⟩
  · rcases hl with ⟨rfl, -⟩ | ⟨rfl, hl⟩
    · rfl
    · exact (hdiff hk hl).elim
  · rcases hl with ⟨rfl, hl⟩ | ⟨rfl, -⟩
    · exact (hdiff hl hk).elim
    · rfl

theorem TerminatorAt.length {raw : Bytes} {i k : ℕ} (h : TerminatorAt raw i k) :
    i + k ≤ raw.length ∧ 2 ≤ k := by
  rcases h with ⟨rfl, h⟩ | ⟨rfl, h⟩
  · exact ⟨occurs_length (by simp [CRLFCRLF]) h, by omega⟩
  · exact ⟨occurs_length (by simp [LFLF]) h, by omega⟩

/-- A search for one terminator finds its first place, or there is none. -/
theorem find_terminator (raw pat : Bytes) (hpat : pat ≠ []) :
    match find pat raw with
    | none => ∀ i, ¬ pat <+: raw.drop i
    | some i => pat <+: raw.drop i ∧ ∀ j < i, ¬ pat <+: raw.drop j := by
  cases h : find pat raw with
  | none =>
    intro i hocc
    have hlen := occurs_length hpat hocc
    exact (find_eq_none_iff pat raw).mp h i (by omega) hocc
  | some i => exact ((find_eq_some_iff pat raw i).mp h).2

/-- What `head_bounds` returns is a terminator, and none starts in front of it. -/
theorem headBounds_first {raw : Bytes} {headEnd separator : ℕ}
    (h : headBounds raw = some (headEnd, separator)) :
    TerminatorAt raw headEnd separator ∧ ∀ j < headEnd, ∀ k, ¬ TerminatorAt raw j k := by
  have h4 := find_terminator raw CRLFCRLF (by simp [CRLFCRLF])
  have h2 := find_terminator raw LFLF (by simp [LFLF])
  unfold headBounds at h
  cases hcrlf : find CRLFCRLF raw with
  | none =>
    cases hlf : find LFLF raw with
    | none => simp [hcrlf, hlf] at h
    | some lf =>
      simp only [hcrlf, hlf, Option.some.injEq, Prod.mk.injEq] at h h4 h2
      obtain ⟨rfl, rfl⟩ := h
      refine ⟨Or.inr ⟨rfl, h2.1⟩, ?_⟩
      rintro j hj k (⟨-, hocc⟩ | ⟨-, hocc⟩)
      · exact h4 j hocc
      · exact h2.2 j hj hocc
  | some crlf =>
    cases hlf : find LFLF raw with
    | none =>
      simp only [hcrlf, hlf, Option.some.injEq, Prod.mk.injEq] at h h4 h2
      obtain ⟨rfl, rfl⟩ := h
      refine ⟨Or.inl ⟨rfl, h4.1⟩, ?_⟩
      rintro j hj k (⟨-, hocc⟩ | ⟨-, hocc⟩)
      · exact h4.2 j hj hocc
      · exact h2 j hocc
    | some lf =>
      simp only [hcrlf, hlf] at h h4 h2
      split_ifs at h with hlt
      · cases h
        refine ⟨Or.inr ⟨rfl, h2.1⟩, ?_⟩
        rintro j hj k (⟨-, hocc⟩ | ⟨-, hocc⟩)
        · exact h4.2 j (by omega) hocc
        · exact h2.2 j hj hocc
      · cases h
        refine ⟨Or.inl ⟨rfl, h4.1⟩, ?_⟩
        rintro j hj k (⟨-, hocc⟩ | ⟨-, hocc⟩)
        · exact h4.2 j hj hocc
        · exact h2.2 j (by omega) hocc

theorem headBounds_eq_none_iff (raw : Bytes) :
    headBounds raw = none ↔ ∀ i k, ¬ TerminatorAt raw i k := by
  constructor
  · intro h
    have hnone : find CRLFCRLF raw = none ∧ find LFLF raw = none := by
      unfold headBounds at h
      cases hcrlf : find CRLFCRLF raw with
      | none =>
        cases hlf : find LFLF raw with
        | none => exact ⟨rfl, rfl⟩
        | some lf => simp [hcrlf, hlf] at h
      | some crlf =>
        cases hlf : find LFLF raw with
        | none => simp [hcrlf, hlf] at h
        | some lf =>
          simp only [hcrlf, hlf] at h
          split_ifs at h
    have h4 := find_terminator raw CRLFCRLF (by simp [CRLFCRLF])
    have h2 := find_terminator raw LFLF (by simp [LFLF])
    rw [hnone.1] at h4
    rw [hnone.2] at h2
    rintro i k (⟨-, hocc⟩ | ⟨-, hocc⟩)
    · exact h4 i hocc
    · exact h2 i hocc
  · intro h
    cases hb : headBounds raw with
    | none => rfl
    | some b => exact absurd (headBounds_first hb).1 (h _ _)

theorem headBounds_eq_some_iff (raw : Bytes) (headEnd separator : ℕ) :
    headBounds raw = some (headEnd, separator) ↔
      TerminatorAt raw headEnd separator ∧ ∀ j < headEnd, ∀ k, ¬ TerminatorAt raw j k := by
  refine ⟨headBounds_first, ?_⟩
  rintro ⟨hterm, hmin⟩
  cases hb : headBounds raw with
  | none => exact absurd hterm ((headBounds_eq_none_iff raw).mp hb _ _)
  | some b =>
    obtain ⟨i, k⟩ := b
    obtain ⟨hi, hmin'⟩ := headBounds_first hb
    rcases lt_trichotomy i headEnd with hlt | rfl | hgt
    · exact absurd hi (hmin i hlt k)
    · rw [hi.unique hterm]
    · exact absurd hterm (hmin' headEnd hgt separator)

theorem headBounds_le {raw : Bytes} {headEnd separator : ℕ}
    (h : headBounds raw = some (headEnd, separator)) :
    headEnd + separator ≤ raw.length ∧ 2 ≤ separator :=
  ((headBounds_eq_some_iff _ _ _).mp h).1.length

theorem TerminatorAt.congr {raw t : Bytes} {i k n : ℕ} (hst : raw.take n = t.take n)
    (hn : i + k ≤ n) (h : TerminatorAt raw i k) : TerminatorAt t i k := by
  rcases h with ⟨rfl, h⟩ | ⟨rfl, h⟩
  · exact Or.inl ⟨rfl, (occurs_congr hst hn).mp h⟩
  · exact Or.inr ⟨rfl, (occurs_congr hst hn).mp h⟩

/-- A terminator that starts in front of another one also ends in front of its end. -/
theorem TerminatorAt.end_le {raw : Bytes} {i j k l : ℕ} (hi : TerminatorAt raw i k)
    (hj : TerminatorAt raw j l) (hji : j < i) : j + l ≤ i + k := by
  rcases hj with ⟨rfl, hj⟩ | ⟨rfl, hj⟩
  · rcases hi with ⟨rfl, hi⟩ | ⟨rfl, hi⟩
    · omega
    · -- CRLFCRLF one byte in front of LFLF would make its third byte both CR and LF
      by_contra hlt
      obtain rfl : i = j + 1 := by omega
      have hcr := ((crlfcrlf_at_iff _ _).mp hj).2.2.1
      have hlf := ((lflf_at_iff _ _).mp hi).2
      rw [show j + 1 + 1 = j + 2 by omega, hcr] at hlf
      exact absurd hlf (by decide)
  · have := hi.length.2
    omega

/-- The head bounds depend only on the bytes through the terminator. -/
theorem headBounds_congr {raw t : Bytes} {headEnd separator n : ℕ}
    (hst : raw.take n = t.take n) (hn : headEnd + separator ≤ n)
    (h : headBounds raw = some (headEnd, separator)) :
    headBounds t = some (headEnd, separator) := by
  obtain ⟨hterm, hmin⟩ := (headBounds_eq_some_iff _ _ _).mp h
  have hterm' := hterm.congr hst hn
  refine (headBounds_eq_some_iff _ _ _).mpr ⟨hterm', ?_⟩
  intro j hj k hk
  have hend := hterm'.end_le hk hj
  exact hmin j hj k (hk.congr hst.symm (by omega))

/-- In front of its last byte the first terminator is not there yet. -/
theorem headBounds_take_none {raw : Bytes} {headEnd separator n : ℕ}
    (h : headBounds raw = some (headEnd, separator)) (hn : n < headEnd + separator) :
    headBounds (raw.take n) = none := by
  obtain ⟨hterm, hmin⟩ := (headBounds_eq_some_iff _ _ _).mp h
  apply (headBounds_eq_none_iff _).mpr
  intro i k hi
  have hik := hi.length.1
  rw [List.length_take] at hik
  have hi' : TerminatorAt raw i k := hi.congr (by rw [List.take_take, min_self]) (by omega)
  rcases lt_trichotomy i headEnd with hlt | rfl | hgt
  · exact hmin i hlt k hi'
  · have := hi'.unique hterm
    omega
  · have := hi'.end_le hterm hgt
    omega

end Vermell.Http
