import Mathlib.Data.List.DropRight
import Mathlib.Data.List.Infix
import Mathlib.Tactic

/-! Texts cut into pieces at a separator: an induction principle that peels off one terminated
piece at a time, and what the cut does to appended text and to the elements before separators. -/
namespace Text
variable {α : Type*} [DecidableEq α] {a b : α}

omit [DecidableEq α] in
/-- A text either holds no separator or is a first piece, a separator and the rest. -/
theorem splitOnP_induction (p : α → Bool) {P : List α → Prop}
    (last : ∀ l, (∀ c ∈ l, p c = false) → P l)
    (line : ∀ l c s, (∀ c ∈ l, p c = false) → p c = true → P s → P (l ++ c :: s)) (s : List α) :
    P s := by
  induction hn : s.length using Nat.strong_induction_on generalizing s with
  | _ n ih =>
    have hcut := List.takeWhile_append_dropWhile (p := fun c => !p c) (l := s)
    have hfree (c : α) (hc : c ∈ s.takeWhile fun c => !p c) : p c = false := by
      have hkept := List.mem_takeWhile_imp hc
      simpa using hkept
    cases hrest : s.dropWhile fun c => !p c with
    | nil =>
      rw [hrest, List.append_nil] at hcut
      exact last s (hcut ▸ hfree)
    | cons c r =>
      have hc := List.head?_dropWhile_not (fun c => !p c) s
      rw [hrest] at hc hcut
      have hlt : r.length < n := by
        rw [← hn, ← hcut]
        simp
        omega
      rw [← hcut]
      exact line _ c r hfree (by simpa using hc) (ih r.length hlt r rfl)

theorem splitOn_induction (a : α) {P : List α → Prop} (last : ∀ l, a ∉ l → P l)
    (line : ∀ l s, a ∉ l → P s → P (l ++ a :: s)) (s : List α) : P s := by
  induction s using splitOnP_induction (· == a) with
  | last l hl => exact last l fun ha => absurd (hl a ha) (by simp)
  | line l c s hl hc ih =>
    obtain rfl := beq_iff_eq.mp hc
    exact line l s (fun ha => absurd (hl c ha) (by simp)) ih

omit [DecidableEq α] in
/-- More separators cut the pieces further. -/
theorem splitOnP_refine {p q : α → Bool} (h : ∀ c, p c = true → q c = true) (s : List α) :
    (s.splitOnP p).flatMap (List.splitOnP q) = s.splitOnP q := by
  induction s using splitOnP_induction p with
  | last l hl => rw [List.splitOnP_eq_singleton hl, List.flatMap_singleton]
  | line l c s hl hc ih =>
    rw [List.splitOnP_append_cons_of_forall_mem hl c hc, List.flatMap_cons, ih,
      List.splitOnP_append_cons l s (h c hc)]

omit [DecidableEq α] in
theorem exists_mem_splitOnP {p : α → Bool} {c : α} (hc : p c = false) {s : List α} (h : c ∈ s) :
    ∃ piece ∈ s.splitOnP p, c ∈ piece := by
  induction s using splitOnP_induction p with
  | last l hl => exact ⟨l, by rw [List.splitOnP_eq_singleton hl]; simp, h⟩
  | line l d s hl hd ih =>
    rw [List.splitOnP_append_cons_of_forall_mem hl d hd]
    rcases List.mem_append.mp h with h | h
    · exact ⟨l, List.mem_cons_self, h⟩
    · rcases List.mem_cons.mp h with rfl | h
      · simp [hc] at hd
      · obtain ⟨piece, hpiece, hmem⟩ := ih h
        exact ⟨piece, List.mem_cons_of_mem _ hpiece, hmem⟩

/-- A text is cut at the first `a` that `idxOf?` finds. -/
theorem eq_append_of_idxOf? {s : List α} {i : ℕ} (h : s.idxOf? a = some i) :
    s = s.take i ++ a :: s.drop (i + 1) := by
  obtain ⟨hlt, hat, -⟩ := List.idxOf?_eq_some_iff.mp h
  rw [← hat, List.cons_getElem_drop_succ, List.take_append_drop]

theorem not_mem_take_of_idxOf? {s : List α} {i : ℕ} (h : s.idxOf? a = some i) : a ∉ s.take i := by
  obtain ⟨hlt, -, hmin⟩ := List.idxOf?_eq_some_iff.mp h
  intro hmem
  obtain ⟨j, hj, hat⟩ := List.mem_take_iff_getElem.mp hmem
  exact hmin j (by omega) hat

theorem idxOf?_append_cons {l : List α} (hl : a ∉ l) (s : List α) :
    (l ++ a :: s).idxOf? a = some l.length := by
  refine List.idxOf?_eq_some_iff.mpr ⟨by simp, by simp, ?_⟩
  intro j hj heq
  rw [List.getElem_append_left hj] at heq
  exact hl (heq ▸ List.getElem_mem hj)

omit [DecidableEq α] in
/-- What stands around the first `a` of a text is determined by it. -/
theorem append_cons_inj {l l' s s' : List α} (hl : a ∉ l) (hl' : a ∉ l')
    (h : l ++ a :: s = l' ++ a :: s') : l = l' ∧ s = s' := by
  rcases List.append_eq_append_iff.mp h with ⟨t, rfl, ht⟩ | ⟨t, rfl, ht⟩
  · cases t with
    | nil => exact ⟨by simp, by simpa using ht⟩
    | cons c t =>
      obtain rfl : a = c := (List.cons.inj ht).1
      simp at hl'
  · cases t with
    | nil => exact ⟨by simp, by simpa using ht.symm⟩
    | cons c t =>
      obtain rfl : a = c := (List.cons.inj ht).1
      simp at hl

theorem splitOn_cons_line {l s : List α} (hl : a ∉ l) :
    (l ++ a :: s).splitOn a = l :: s.splitOn a :=
  List.splitOn_append_cons_self_of_not_mem hl s

theorem not_mem_of_mem_splitOn {l s : List α} (h : l ∈ s.splitOn a) : a ∉ l := by
  induction s using splitOn_induction a with
  | last p hp =>
    rw [List.splitOn_eq_singleton hp, List.mem_singleton] at h
    exact h ▸ hp
  | line p s hp ih =>
    rw [splitOn_cons_line hp, List.mem_cons] at h
    rcases h with rfl | h
    · exact hp
    · exact ih h

omit [DecidableEq α] in
/-- Behind a text without the separator, what starts with one is found in the rest. -/
theorem infix_append_iff_of_not_mem {p : List α} (hp : a ∉ p) (u s : List α) :
    a :: u <:+: p ++ s ↔ a :: u <:+: s := by
  induction p with
  | nil => rfl
  | cons c p ih =>
    rw [List.mem_cons, not_or] at hp
    rw [List.cons_append, List.infix_cons_iff, ih hp.2, List.cons_prefix_cons]
    exact or_iff_right fun h => hp.1 h.1

/-- The pieces in front of the last separator are those that stand between two, where one is put in
front of the text. -/
theorem mem_dropLast_splitOn {piece s : List α} :
    piece ∈ (s.splitOn a).dropLast ↔ a ∉ piece ∧ a :: (piece ++ [a]) <:+: a :: s := by
  induction s using splitOn_induction a with
  | last p hp =>
    rw [List.splitOn_eq_singleton hp, List.dropLast_singleton, List.infix_cons_iff]
    constructor
    · intro h
      cases h
    · rintro ⟨-, h | h⟩
      · have hin : a ∈ piece ++ [a] := List.mem_append_right piece (List.mem_singleton_self a)
        exact absurd ((List.cons_prefix_cons.mp h).2.subset hin) hp
      · exact absurd (h.subset List.mem_cons_self) hp
  | line p s hp ih =>
    have hinfix : a :: (piece ++ [a]) <:+: a :: (p ++ a :: s) ↔
        piece ++ [a] <+: p ++ a :: s ∨ a :: (piece ++ [a]) <:+: a :: s := by
      rw [List.infix_cons_iff, infix_append_iff_of_not_mem hp, List.cons_prefix_cons]
      simp
    rw [splitOn_cons_line hp, List.dropLast_cons_of_ne_nil (List.splitOn_ne_nil a s), List.mem_cons,
      ih, hinfix]
    constructor
    · intro h
      cases h with
      | inl heq => exact ⟨heq ▸ hp, .inl (heq ▸ ⟨s, by simp⟩)⟩
      | inr hrest => exact ⟨hrest.1, .inr hrest.2⟩
    · rintro ⟨hpiece, ⟨t, ht⟩ | h⟩
      · left
        rw [List.append_assoc, List.singleton_append] at ht
        exact (append_cons_inj hpiece hp ht).1
      · exact .inr ⟨hpiece, h⟩

/-- The pieces between two separators. -/
theorem mem_inner_splitOn {piece s : List α} :
    piece ∈ (s.splitOn a).tail.dropLast ↔ a ∉ piece ∧ a :: (piece ++ [a]) <:+: s := by
  by_cases ha : a ∈ s
  · obtain ⟨p, t, rfl, hp⟩ := List.eq_append_cons_of_mem ha
    rw [splitOn_cons_line hp, List.tail_cons, mem_dropLast_splitOn, infix_append_iff_of_not_mem hp]
  · rw [List.splitOn_eq_singleton ha]
    constructor
    · intro h
      cases h
    · exact fun h => absurd (h.2.subset List.mem_cons_self) ha

/-- A joined text is cut into the pieces of its parts. -/
theorem splitOn_intercalate_flatMap {parts : List (List α)} (h : parts ≠ []) :
    ([a].intercalate parts).splitOn a = parts.flatMap (List.splitOn a) := by
  induction parts with
  | nil => exact absurd rfl h
  | cons part rest ih =>
    cases rest with
    | nil => simp
    | cons next rest =>
      rw [List.intercalate_cons_cons, List.append_assoc, List.singleton_append,
        List.splitOn_append_cons_self, ih (List.cons_ne_nil next rest)]
      rfl
/-- Every piece of a text starts some piece of the text with more behind it. -/
theorem exists_prefix_splitOn_append (s t : List α) {l : List α} (h : l ∈ s.splitOn a) :
    ∃ l' ∈ (s ++ t).splitOn a, l <+: l' := by
  induction s using splitOn_induction a with
  | last p hp =>
    rw [List.splitOn_eq_singleton hp, List.mem_singleton] at h
    subst h
    induction t using splitOn_induction a with
    | last q hq =>
      have hpq : a ∉ l ++ q := by simp [hp, hq]
      exact ⟨l ++ q, by simp [List.splitOn_eq_singleton hpq], List.prefix_append _ _⟩
    | line q t hq _ =>
      have hpq : a ∉ l ++ q := by simp [hp, hq]
      refine ⟨l ++ q, ?_, List.prefix_append _ _⟩
      rw [← List.append_assoc, splitOn_cons_line hpq]
      exact List.mem_cons_self
  | line p s hp ih =>
    rw [splitOn_cons_line hp, List.mem_cons] at h
    rw [List.append_assoc, List.cons_append, splitOn_cons_line hp]
    rcases h with rfl | h
    · exact ⟨l, List.mem_cons_self, List.prefix_rfl⟩
    · obtain ⟨l', hl', hpre⟩ := ih h
      exact ⟨l', List.mem_cons_of_mem _ hl', hpre⟩

theorem count_eq_length_splitOn (s : List α) : s.count a + 1 = (s.splitOn a).length := by
  induction s using splitOn_induction a with
  | last p hp => simp [List.splitOn_eq_singleton hp, List.count_eq_zero_of_not_mem hp]
  | line p s hp ih =>
    simp [splitOn_cons_line hp, List.count_eq_zero_of_not_mem hp, ← ih]

omit [DecidableEq α] in
theorem getElem?_append_cons (l s : List α) (a : α) (i : ℕ) :
    (l ++ a :: s)[l.length + 1 + i]? = s[i]? := by
  rw [List.getElem?_append_right (by omega), show l.length + 1 + i - l.length = i + 1 by omega,
    List.getElem?_cons_succ]

/-- An empty piece between two separators is two separators in a row. -/
theorem exists_pair_of_nil_mem {s : List α} (h : [] ∈ (s.splitOn a).tail.dropLast) :
    ∃ i, s[i]? = some a ∧ s[i+1]? = some a := by
  induction s using splitOn_induction a with
  | last p hp => simp [List.splitOn_eq_singleton hp] at h
  | line p s hp ih =>
    rw [splitOn_cons_line hp, List.tail_cons] at h
    induction s using splitOn_induction a with
    | last q hq => simp [List.splitOn_eq_singleton hq] at h
    | line q s hq _ =>
      rw [splitOn_cons_line hq, List.dropLast_cons_of_ne_nil (List.splitOn_ne_nil a s),
        List.mem_cons] at h
      rcases h with rfl | h
      · exact ⟨p.length, by simp⟩
      · obtain ⟨i, hi, hi'⟩ := ih (by rwa [splitOn_cons_line hq, List.tail_cons])
        refine ⟨p.length + 1 + i, ?_, ?_⟩
        · rw [getElem?_append_cons, hi]
        · rw [Nat.add_assoc, getElem?_append_cons, hi']

/-- Every `a` of the text directly follows a `b`. -/
def Preceded (a b : α) (s : List α) : Prop :=
  ∀ i, s[i]? = some a → 0 < i ∧ s[i-1]? = some b

omit [DecidableEq α] in
theorem preceded_of_not_mem {s : List α} (h : a ∉ s) : Preceded a b s :=
  fun _ hi => absurd (List.mem_of_getElem? hi) h

omit [DecidableEq α] in
theorem preceded_append_cons (hab : a ≠ b) {l : List α} (hl : a ∉ l) (s : List α) :
    Preceded a b (l ++ a :: s) ↔ l.getLast? = some b ∧ Preceded a b s := by
  have hsep : (l ++ a :: s)[l.length]? = some a := by simp
  have hback : (l ++ a :: s)[l.length - 1]? = some b ∧ 0 < l.length ↔ l.getLast? = some b := by
    cases l using List.reverseRecOn with
    | nil => simp
    | append_singleton l c => simp
  constructor
  · intro h
    refine ⟨hback.mp ⟨(h _ hsep).2, (h _ hsep).1⟩, ?_⟩
    intro i hi
    have hprev := (h (l.length + 1 + i) (by rw [getElem?_append_cons, hi])).2
    cases i with
    | zero =>
      -- a separator right after a separator follows no `b`
      simp only [Nat.add_zero, Nat.add_sub_cancel, hsep, Option.some.injEq] at hprev
      exact absurd hprev hab
    | succ i =>
      rw [show l.length + 1 + (i + 1) - 1 = l.length + 1 + i by omega,
        getElem?_append_cons] at hprev
      exact ⟨by omega, hprev⟩
  · rintro ⟨hlast, hs⟩ i hi
    rcases lt_trichotomy i l.length with hlt | rfl | hgt
    · rw [List.getElem?_append_left hlt] at hi
      exact absurd (List.mem_of_getElem? hi) hl
    · obtain ⟨h1, h2⟩ := hback.mpr hlast
      exact ⟨h2, h1⟩
    · obtain ⟨k, rfl⟩ : ∃ k, i = l.length + 1 + k := ⟨i - l.length - 1, by omega⟩
      rw [getElem?_append_cons] at hi
      obtain ⟨hpos, hk⟩ := hs k hi
      refine ⟨by omega, ?_⟩
      rw [show l.length + 1 + k - 1 = l.length + 1 + (k - 1) by omega, getElem?_append_cons]
      exact hk

omit [DecidableEq α] in
theorem Preceded.append {s t : List α} (hs : Preceded a b s) (ht : Preceded a b t) :
    Preceded a b (s ++ t) := by
  intro i hi
  by_cases hlt : i < s.length
  · rw [List.getElem?_append_left hlt] at hi
    obtain ⟨hpos, hprev⟩ := hs i hi
    refine ⟨hpos, ?_⟩
    rw [List.getElem?_append_left (by omega), hprev]
  · rw [List.getElem?_append_right (by omega)] at hi
    obtain ⟨hpos, hprev⟩ := ht _ hi
    refine ⟨by omega, ?_⟩
    rw [List.getElem?_append_right (by omega), ← hprev]
    congr 1
    omega

/-- The separators follow a `b` exactly when every terminated piece ends in one. -/
theorem preceded_iff_splitOn (hab : a ≠ b) (s : List α) :
    Preceded a b s ↔ ∀ l ∈ (s.splitOn a).dropLast, l.getLast? = some b := by
  induction s using splitOn_induction a with
  | last p hp => simp [List.splitOn_eq_singleton hp, preceded_of_not_mem hp]
  | line p s hp ih =>
    rw [preceded_append_cons hab hp, splitOn_cons_line hp,
      List.dropLast_cons_of_ne_nil (List.splitOn_ne_nil a s), ih]
    simp

end Text
