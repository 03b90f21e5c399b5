import Mathlib.Data.List.Chain
import Mathlib.Data.List.Infix
import Mathlib.Data.List.TakeDrop
import Mathlib.Tactic

/-! First occurrence of a pattern in a list. The two facts that later arguments need are the
exact meaning of a hit and its locality: a hit depends only on the elements up to its end, as
every slice of a list does. -/
namespace Text
variable {α : Type*} [DecidableEq α]

/-- Position of the first occurrence of `pat`, if there is one. -/
def find (pat : List α) : List α → Option ℕ
  | [] => if pat = [] then some 0 else none
  | a :: s => if pat <+: a :: s then some 0 else (find pat s).map (· + 1)

/-- Position of the first occurrence of `pat` that does not start before `pos`. -/
def findFrom (pat s : List α) (pos : ℕ) : Option ℕ :=
  (find pat (s.drop pos)).map (· + pos)

theorem find_eq_some_iff (pat s : List α) (i : ℕ) :
    find pat s = some i ↔
      i ≤ s.length ∧ pat <+: s.drop i ∧ ∀ j < i, ¬ pat <+: s.drop j := by
  induction s generalizing i with
  | nil =>
    by_cases hp : pat = []
    · subst hp
      constructor
      · intro h
        have hi : i = 0 := by simpa [find] using h.symm
        subst hi
        simp
      · rintro ⟨hi, -, -⟩
        have hi : i = 0 := by simpa using hi
        simp [find, hi]
    · simp [find, hp]
  | cons a s ih =>
    by_cases hp : pat <+: a :: s
    · simp only [find, hp, if_true, Option.some.injEq]
      constructor
      · rintro rfl
        simpa using hp
      · rintro ⟨-, -, hmin⟩
        by_contra hi
        exact hmin 0 (by omega) (by simpa using hp)
    · simp only [find, hp, if_false, Option.map_eq_some_iff, ih]
      constructor
      · rintro ⟨k, ⟨hk, hocc, hmin⟩, rfl⟩
        refine ⟨by simpa using hk, by simpa using hocc, ?_⟩
        intro j hj
        cases j with
        | zero => simpa using hp
        | succ j => simpa using hmin j (by omega)
      · rintro ⟨hi, hocc, hmin⟩
        cases i with
        | zero => exact absurd (by simpa using hocc) hp
        | succ i =>
          refine ⟨i, ⟨by simpa using hi, by simpa using hocc, ?_⟩, rfl⟩
          intro j hj
          simpa using hmin (j+1) (by omega)

theorem find_eq_none_iff (pat s : List α) :
    find pat s = none ↔ ∀ j ≤ s.length, ¬ pat <+: s.drop j := by
  constructor
  · intro h j hj hocc
    classical
    -- the least position at which the pattern occurs would be a hit
    have hex : ∃ k, k ≤ s.length ∧ pat <+: s.drop k := ⟨j, hj, hocc⟩
    have hfind : find pat s = some (Nat.find hex) :=
      (find_eq_some_iff _ _ _).mpr ⟨(Nat.find_spec hex).1, (Nat.find_spec hex).2,
        fun k hk hk' => Nat.find_min hex hk ⟨by have := (Nat.find_spec hex).1; omega, hk'⟩⟩
    simp [h] at hfind
  · intro h
    cases hf : find pat s with
    | none => rfl
    | some i =>
      obtain ⟨hi, hocc, -⟩ := (find_eq_some_iff _ _ _).mp hf
      exact absurd hocc (h i hi)

theorem find_isNone_iff (pat s : List α) : (find pat s).isNone = true ↔ ¬pat <:+: s := by
  rw [Option.isNone_iff_eq_none, find_eq_none_iff]
  constructor
  · rintro h ⟨p, t, rfl⟩
    refine h p.length (by simp) ?_
    rw [List.append_assoc, List.drop_left]
    exact List.prefix_append pat t
  · intro h j _ hpre
    exact h (hpre.isInfix.trans (List.drop_suffix j s).isInfix)

/-- A hit splits the list around the pattern. -/
theorem find_split {pat s : List α} {i : ℕ} (h : find pat s = some i) :
    s = s.take i ++ (pat ++ s.drop (i + pat.length)) := by
  obtain ⟨-, ⟨t, ht⟩, -⟩ := (find_eq_some_iff pat s i).mp h
  have hdrop : s.drop (i + pat.length) = t := by
    rw [← List.drop_drop, ← ht, List.drop_left]
  rw [hdrop, ht, List.take_append_drop]

omit [DecidableEq α] in
/-- An occurrence of a non-empty pattern lies inside the list. -/
theorem occurs_length {pat s : List α} {i : ℕ} (hne : pat ≠ []) (h : pat <+: s.drop i) :
    i + pat.length ≤ s.length := by
  have hlen := h.length_le
  have hpos := List.length_pos_iff.mpr hne
  rw [List.length_drop] at hlen
  omega

section
variable {s t : List α} {n i k : ℕ} (hst : s.take n = t.take n)
include hst

omit [DecidableEq α] in
/-- Lists that agree up to `n` have the same slices there. -/
theorem slice_congr (hi : i + k ≤ n) : (s.drop i).take k = (t.drop i).take k := by
  have hcut (u : List α) : (u.drop i).take k = ((u.take n).drop i).take k := by
    rw [List.drop_take, List.take_take, min_eq_left (by omega)]
  rw [hcut s, hcut t, hst]

omit [DecidableEq α] in
theorem getD_congr (hi : i < n) (d : α) : s.getD i d = t.getD i d := by
  have h := congrArg (·[i]?) hst
  simp only [List.getElem?_take_of_lt hi] at h
  simp [List.getD_eq_getElem?_getD, h]

omit [DecidableEq α] in
theorem length_ge_of_take_eq (hi : i ≤ n) (hs : i ≤ s.length) : i ≤ t.length := by
  have h := congrArg List.length hst
  simp only [List.length_take] at h
  omega

omit [DecidableEq α] in
/-- Whether a pattern occurs at `i` is decided by the elements up to the end of the occurrence. -/
theorem occurs_congr {pat : List α} (hn : i + pat.length ≤ n) :
    pat <+: s.drop i ↔ pat <+: t.drop i := by
  rw [List.prefix_iff_eq_take, List.prefix_iff_eq_take, slice_congr hst hn]

end

omit [DecidableEq α] in
/-- An occurrence, element by element. -/
theorem occurs_iff_getElem? (pat s : List α) (i : ℕ) :
    pat <+: s.drop i ↔ ∀ k (hk : k < pat.length), s[i+k]? = some pat[k] := by
  simp only [List.prefix_iff_getElem?, List.getElem?_drop]

theorem findFrom_eq_some_iff {pat s : List α} {pos i : ℕ} (hne : pat ≠ []) :
    findFrom pat s pos = some i ↔
      pos ≤ i ∧ pat <+: s.drop i ∧ ∀ j, pos ≤ j → j < i → ¬ pat <+: s.drop j := by
  simp only [findFrom, Option.map_eq_some_iff, find_eq_some_iff, List.drop_drop]
  constructor
  · rintro ⟨k, ⟨-, hocc, hmin⟩, rfl⟩
    refine ⟨by omega, by rwa [Nat.add_comm] at hocc, ?_⟩
    intro j hj hjk
    have := hmin (j - pos) (by omega)
    rwa [show pos + (j - pos) = j by omega] at this
  · rintro ⟨hpos, hocc, hmin⟩
    have hlen := occurs_length hne hocc
    refine ⟨i - pos, ⟨by rw [List.length_drop]; omega, ?_, ?_⟩, by omega⟩
    · rwa [show pos + (i - pos) = i by omega]
    · intro j hj
      exact hmin (pos + j) (by omega) (by omega)

theorem findFrom_le {pat s : List α} {pos i : ℕ} (hne : pat ≠ [])
    (h : findFrom pat s pos = some i) : pos ≤ i ∧ i + pat.length ≤ s.length := by
  obtain ⟨hpos, hocc, -⟩ := (findFrom_eq_some_iff hne).mp h
  exact ⟨hpos, occurs_length hne hocc⟩

theorem findFrom_congr {pat s t : List α} {pos i n : ℕ} (hne : pat ≠ [])
    (hst : s.take n = t.take n) (hn : i + pat.length ≤ n) (h : findFrom pat s pos = some i) :
    findFrom pat t pos = some i := by
  obtain ⟨hpos, hocc, hmin⟩ := (findFrom_eq_some_iff hne).mp h
  refine (findFrom_eq_some_iff hne).mpr ⟨hpos, (occurs_congr hst hn).mp hocc, ?_⟩
  intro j hj hji hj'
  exact hmin j hj hji ((occurs_congr hst (by omega)).mpr hj')

theorem findFrom_length (pat pre s : List α) :
    findFrom pat (pre ++ s) pre.length = (find pat s).map (· + pre.length) := by
  rw [findFrom, List.drop_left]

/-- A line in which a pair of distinct elements does not occur ends at the first such pair. -/
theorem find_line {a b : α} (hne : a ≠ b) {line : List α} (h : ¬[a, b] <:+: line) (s : List α) :
    find [a, b] (line ++ a :: b :: s) = some line.length := by
  induction line with
  | nil => simp [find]
  | cons c line ih =>
    have hrest : ¬[a, b] <:+: line := fun hin => h (hin.trans (List.suffix_cons c line).isInfix)
    have hhere : ¬[a, b] <+: c :: line ++ a :: b :: s := by
      cases line with
      | nil => simpa using fun _ => hne.symm
      | cons d line =>
        intro hpre
        simp only [List.cons_append, List.cons_prefix_cons] at hpre
        obtain ⟨rfl, rfl, -⟩ := hpre
        exact h ⟨[], line, rfl⟩
    rw [List.cons_append] at hhere ⊢
    rw [find, if_neg hhere, ih hrest]
    rfl

/-- A hit stays the first one when text is appended. -/
theorem find_append_right {pat s : List α} (hne : pat ≠ []) {i : ℕ} (h : find pat s = some i)
    (t : List α) : find pat (s ++ t) = some i := by
  obtain ⟨hle, hocc, hmin⟩ := (find_eq_some_iff _ _ _).mp h
  have hin := occurs_length hne hocc
  have hst : s.take s.length = (s ++ t).take s.length := by simp
  refine (find_eq_some_iff _ _ _).mpr ⟨by simp; omega, (occurs_congr hst hin).mp hocc, ?_⟩
  intro j hj hocc'
  exact hmin j hj ((occurs_congr hst (by omega)).mpr hocc')

theorem find_append_self (pat s : List α) : find pat (pat ++ s) = some 0 :=
  (find_eq_some_iff _ _ _).mpr ⟨Nat.zero_le _, by simp, fun j hj => absurd hj j.not_lt_zero⟩

omit [DecidableEq α] in
/-- An element that the pattern does not have ends every occurrence in front of it. -/
theorem prefix_append_cons_iff {pat l s : List α} {c : α} (hc : c ∉ pat) :
    pat <+: l ++ c :: s ↔ pat <+: l := by
  refine ⟨fun h => ?_, fun h => h.trans (List.prefix_append l _)⟩
  cases Nat.lt_or_ge l.length pat.length with
  | inl hlt =>
    have hat := h.getElem hlt
    rw [List.getElem_append_right le_rfl] at hat
    simp only [Nat.sub_self, List.getElem_cons_zero] at hat
    exact absurd (hat ▸ List.getElem_mem hlt) hc
  | inr hle =>
    exact List.prefix_of_prefix_length_le h (List.prefix_append l _) hle

/-- Such an element cuts the search in two. -/
theorem find_append_cons {pat : List α} (hne : pat ≠ []) {c : α} (hc : c ∉ pat) (l s : List α) :
    find pat (l ++ c :: s) = (find pat l).or ((find pat s).map (· + (l.length + 1))) := by
  induction l with
  | nil =>
    have hhere : ¬pat <+: c :: s := by
      intro h
      exact hne (List.prefix_nil.mp ((prefix_append_cons_iff (l := []) hc).mp h))
    simp [find, hhere, hne]
  | cons x l ih =>
    have hhere : pat <+: x :: (l ++ c :: s) ↔ pat <+: x :: l :=
      prefix_append_cons_iff (l := x :: l) hc
    rw [List.cons_append, find, find, ih]
    by_cases h : pat <+: x :: l
    · rw [if_pos (hhere.mpr h), if_pos h, Option.some_or]
    · rw [if_neg (hhere.not.mpr h), if_neg h]
      cases find pat l with
      | some i => rfl
      | none => cases find pat s <;> simp [Nat.add_assoc]

/-- Nothing is found before the first element of the pattern. -/
theorem find_append_of_not_mem {a : α} {pat l : List α} (ha : a ∉ l) (s : List α) :
    find (a :: pat) (l ++ s) = (find (a :: pat) s).map (· + l.length) := by
  induction l with
  | nil => simp
  | cons x l ih =>
    obtain ⟨hx, hl⟩ := List.ne_and_not_mem_of_not_mem_cons ha
    have hhere : ¬a :: pat <+: x :: (l ++ s) := fun h => hx (List.cons_prefix_cons.mp h).1
    rw [List.cons_append, find, if_neg hhere, ih hl]
    cases find (a :: pat) s <;> simp [Nat.add_assoc]

/-- A pair is not found where no two neighbours are the pair. -/
theorem find_pair_eq_none_iff {x y : α} {s : List α} :
    find [x, y] s = none ↔ s.IsChain fun a b => ¬(a = x ∧ b = y) := by
  induction s with
  | nil => simp [find]
  | cons a s ih =>
    cases s with
    | nil => simp [find]
    | cons b s =>
      have hhere : [x, y] <+: a :: b :: s ↔ a = x ∧ b = y := by simp [eq_comm]
      rw [find, List.isChain_cons_cons, ← ih]
      by_cases h : a = x ∧ b = y
      · rw [if_pos (hhere.mpr h)]
        simp [h]
      · rw [if_neg (hhere.not.mpr h)]
        simp [h]

/-- The pair that is found ends the part without it. -/
theorem isChain_of_find_pair {x y : α} {s : List α} {i : ℕ} (h : find [x, y] s = some i) :
    (s.take i ++ [x]).IsChain fun a b => ¬(a = x ∧ b = y) := by
  obtain ⟨hle, -, hmin⟩ := (find_eq_some_iff _ _ _).mp h
  have hlen : (s.take i).length = i := List.length_take_of_le hle
  have hpre : s.take i ++ [x] <+: s := by
    refine ⟨y :: s.drop (i + 2), ?_⟩
    conv_rhs => rw [find_split h]
    simp
  rw [← find_pair_eq_none_iff, find_eq_none_iff]
  intro j hj hocc
  have hin := occurs_length (List.cons_ne_nil x [y]) hocc
  simp only [List.length_append, List.length_cons, List.length_nil, hlen] at hin hj
  refine hmin j (by omega) ?_
  obtain ⟨t, ht⟩ := hpre
  rw [← ht, List.drop_append_of_le_length (by simp; omega)]
  exact hocc.trans (List.prefix_append _ _)

end Text
