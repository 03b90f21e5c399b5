import Vermell.Text.Lines
import Vermell.Text.Search

/-! Lines that a pair of distinct elements ends. Where no line contains the first element of the
pair, every occurrence of that element is the end of a line, and texts around it fall into lines. -/
namespace Text
variable {α : Type*} (a b : α)

/-- The lines one behind the other, each with its end. -/
def joinLines (lines : List (List α)) : List α := lines.flatMap (· ++ [a, b])

@[simp] theorem joinLines_nil : joinLines a b [] = [] := rfl

@[simp] theorem joinLines_cons (line : List α) (lines : List (List α)) :
    joinLines a b (line :: lines) = line ++ a :: b :: joinLines a b lines := by
  simp [joinLines]

@[simp] theorem joinLines_append (lines lines' : List (List α)) :
    joinLines a b (lines ++ lines') = joinLines a b lines ++ joinLines a b lines' :=
  List.flatMap_append

variable {a b}

theorem joinLines_ends {lines : List (List α)} (h : lines ≠ []) :
    ∃ p, joinLines a b lines = p ++ [a, b] := by
  cases lines using List.reverseRecOn with
  | nil => exact absurd rfl h
  | append_singleton lines line => exact ⟨joinLines a b lines ++ line, by simp⟩

/-- A cut of a text whose first line is known falls into the line, into its end or behind it. -/
theorem append_pair_cases {line rest p t : List α} (h : line ++ a :: b :: rest = p ++ t) :
    (∃ q, line = p ++ q ∧ t = q ++ a :: b :: rest) ∨ (p = line ++ [a] ∧ t = b :: rest) ∨
      ∃ q, p = line ++ a :: b :: q ∧ rest = q ++ t := by
  rcases List.append_eq_append_iff.mp h with ⟨q, rfl, hq⟩ | ⟨q, hline, ht⟩
  · rcases q with _ | ⟨x, _ | ⟨y, q⟩⟩ <;>
      simp only [List.nil_append, List.cons_append, List.cons.injEq] at hq
    · exact Or.inl ⟨[], by simp, hq.symm⟩
    · obtain ⟨rfl, rfl⟩ := hq
      exact Or.inr (Or.inl ⟨rfl, rfl⟩)
    · obtain ⟨rfl, rfl, hq⟩ := hq
      exact Or.inr (Or.inr ⟨q, rfl, hq⟩)
  · exact Or.inl ⟨q, hline, ht⟩

/-- An element of the text stands in a line or is part of a line's end. -/
theorem joinLines_element {lines : List (List α)} {p s : List α} {c : α}
    (h : joinLines a b lines = p ++ c :: s) :
    (∃ line ∈ lines, c ∈ line) ∨ (c = a ∧ ∃ s', s = b :: s') ∨ (c = b ∧ ∃ p', p = p' ++ [a]) := by
  induction lines generalizing p with
  | nil => simp at h
  | cons line rest ih =>
    rw [joinLines_cons] at h
    rcases append_pair_cases h with ⟨q, rfl, hq⟩ | ⟨rfl, hq⟩ | ⟨q, rfl, hq⟩
    · cases q with
      | nil =>
        obtain ⟨rfl, rfl⟩ := List.cons.inj hq
        exact Or.inr (Or.inl ⟨rfl, _, rfl⟩)
      | cons c' q =>
        obtain ⟨rfl, -⟩ := List.cons.inj hq
        exact Or.inl ⟨_, List.mem_cons_self, by simp⟩
    · exact Or.inr (Or.inr ⟨(List.cons.inj hq).1, line, rfl⟩)
    · rcases ih hq with ⟨line', hmem, hc⟩ | hpair | ⟨hc, p', rfl⟩
      · exact Or.inl ⟨line', List.mem_cons_of_mem _ hmem, hc⟩
      · exact Or.inr (Or.inl hpair)
      · exact Or.inr (Or.inr ⟨hc, line ++ a :: b :: p', by simp⟩)

/-- A word without the elements of the pair stands inside a line. -/
theorem joinLines_word {lines : List (List α)} {p w s : List α} (hne : w ≠ []) (ha : a ∉ w)
    (hb : b ∉ w) (h : joinLines a b lines = p ++ (w ++ s)) :
    ∃ before l r after, lines = before ++ (l ++ w ++ r) :: after ∧
      p = joinLines a b before ++ l ∧ s = r ++ a :: b :: joinLines a b after := by
  obtain ⟨c, w, rfl⟩ := List.exists_cons_of_ne_nil hne
  induction lines generalizing p with
  | nil => simp at h
  | cons line rest ih =>
    rw [joinLines_cons] at h
    rcases append_pair_cases h with ⟨q, rfl, hq⟩ | ⟨-, hq⟩ | ⟨q, rfl, hq⟩
    · rcases List.append_eq_append_iff.mp hq.symm with ⟨r, hw, hs⟩ | ⟨r, rfl, hs⟩
      · cases r with
        | nil => exact ⟨[], p, [], rest, by simp [hw], by simp, by simpa using hs.symm⟩
        | cons d r =>
          obtain rfl := (List.cons.inj hs).1
          exact absurd (by rw [hw]; simp) ha
      · exact ⟨[], p, r, rest, by simp, by simp, hs⟩
    · exact absurd (by simp [(List.cons.inj hq).1]) hb
    · obtain ⟨before, l, r, after, rfl, rfl, hs⟩ := ih hq
      exact ⟨line :: before, l, r, after, rfl, by simp, hs⟩

section
variable {lines : List (List α)} (hne : a ≠ b) (hfree : ∀ line ∈ lines, a ∉ line)
include hne hfree

/-- The first element of the pair ends a line wherever it stands. -/
theorem joinLines_split {p s : List α} (h : joinLines a b lines = p ++ a :: s) :
    ∃ before line after, lines = before ++ line :: after ∧
      p = joinLines a b before ++ line ∧ s = b :: joinLines a b after := by
  induction lines generalizing p with
  | nil => simp at h
  | cons line rest ih =>
    obtain ⟨hline, hrest⟩ := List.forall_mem_cons.mp hfree
    rw [joinLines_cons] at h
    rcases append_pair_cases h with ⟨q, rfl, hq⟩ | ⟨-, hq⟩ | ⟨q, rfl, hq⟩
    · cases q with
      | nil => exact ⟨[], p, rest, by simp, by simp, (List.cons.inj hq).2⟩
      | cons c q =>
        obtain ⟨rfl, -⟩ := List.cons.inj hq
        exact absurd (by simp) hline
    · exact absurd (List.cons.inj hq).1 hne
    · obtain ⟨before, line', after, rfl, rfl, rfl⟩ := ih hrest hq
      exact ⟨line :: before, line', after, rfl, by simp, rfl⟩

/-- A line end, a word without one and a line end: the word is a line behind another one. -/
theorem joinLines_line {p w s : List α} (hw : a ∉ w)
    (h : joinLines a b lines = p ++ a :: b :: (w ++ a :: b :: s)) :
    ∃ before line after, lines = before ++ line :: w :: after ∧
      p = joinLines a b before ++ line ∧ s = joinLines a b after := by
  obtain ⟨before, line, rest, rfl, rfl, hs⟩ := joinLines_split hne hfree h
  have hrest : ∀ line ∈ rest, a ∉ line := fun line hmem => hfree line (by simp [hmem])
  have htail := (List.cons.inj hs).2.symm
  obtain ⟨between, line', after, rfl, hp, hend⟩ := joinLines_split hne hrest htail
  cases between with
  | nil =>
    have hline : w = line' := by simpa using hp
    subst hline
    exact ⟨before, line, after, rfl, rfl, (List.cons.inj hend).2⟩
  | cons line'' between =>
    rw [hp] at hw
    exact absurd (by simp) hw

/-- Behind non-empty lines and one empty line, two ends in a row stand only at the end. -/
theorem joinLines_blank {p s : List α} (hfull : ∀ line ∈ lines, line ≠ [])
    (h : joinLines a b (lines ++ [[]]) = p ++ a :: b :: a :: b :: s) : s = [] := by
  have hfree' : ∀ line ∈ lines ++ [[]], a ∉ line := by
    intro line hmem
    cases List.mem_append.mp hmem with
    | inl hmem =>
      exact hfree line hmem
    | inr hmem =>
      simp [List.mem_singleton.mp hmem]
  obtain ⟨before, line, after, hlines, -, rfl⟩ :=
    joinLines_line hne hfree' (w := []) (by simp) (by simpa using h)
  cases after using List.reverseRecOn with
  | nil => rfl
  | append_singleton after last =>
    -- the empty line would be one of the non-empty ones
    have hconcat : lines ++ [[]] = before ++ line :: [] :: after ++ [last] := by simpa using hlines
    have hinit := (List.append_inj' hconcat rfl).1
    exact absurd rfl (hfull [] (by simp [hinit]))

end

/-! The text between the ends, cut back into its lines. -/
section
variable [DecidableEq α]

/-- The pieces of a text around the pairs in it, found from the left. -/
def splitLines (a b : α) : List α → List (List α)
  | [] => [[]]
  | [x] => [[x]]
  | x :: y :: s =>
    if x = a ∧ y = b then [] :: splitLines a b s
    else (splitLines a b (y :: s)).modifyHead (x :: ·)

theorem splitLines_of_not_mem {line : List α} (ha : a ∉ line) : splitLines a b line = [line] := by
  induction line with
  | nil => rfl
  | cons x line ih =>
    obtain ⟨hx, hline⟩ := List.ne_and_not_mem_of_not_mem_cons ha
    cases line with
    | nil => rfl
    | cons y line =>
      rw [splitLines, if_neg fun h => hx h.1.symm, ih hline]
      rfl

theorem splitLines_append {line : List α} (ha : a ∉ line) (s : List α) :
    splitLines a b (line ++ a :: b :: s) = line :: splitLines a b s := by
  induction line with
  | nil => simp [splitLines]
  | cons x line ih =>
    obtain ⟨hx, hline⟩ := List.ne_and_not_mem_of_not_mem_cons ha
    cases line with
    | nil =>
      have hrest := ih hline
      rw [List.nil_append] at hrest
      rw [List.singleton_append, splitLines, if_neg fun h => hx h.1.symm, hrest]
      rfl
    | cons y line =>
      have hrest := ih hline
      rw [List.cons_append] at hrest
      rw [List.cons_append, List.cons_append, splitLines, if_neg fun h => hx h.1.symm, hrest]
      rfl

theorem splitLines_intercalate {lines : List (List α)} (hne : lines ≠ [])
    (hfree : ∀ line ∈ lines, a ∉ line) :
    splitLines a b (List.intercalate [a, b] lines) = lines := by
  induction lines with
  | nil => exact absurd rfl hne
  | cons line rest ih =>
    obtain ⟨hline, hrest⟩ := List.forall_mem_cons.mp hfree
    cases rest with
    | nil =>
      rw [List.intercalate_singleton]
      exact splitLines_of_not_mem hline
    | cons line' rest =>
      rw [List.intercalate_cons_cons, List.append_assoc, List.cons_append, List.singleton_append,
        splitLines_append hline, ih (by simp) hrest]

omit [DecidableEq α] in
theorem joinLines_eq_intercalate {lines : List (List α)} (hne : lines ≠ []) :
    joinLines a b lines = List.intercalate [a, b] lines ++ [a, b] := by
  induction lines with
  | nil => exact absurd rfl hne
  | cons line rest ih =>
    cases rest with
    | nil => simp
    | cons line' rest =>
      rw [joinLines_cons, ih (by simp), List.intercalate_cons_cons]
      simp

/-- Cut at the second element of the ends, the lines keep the first one. -/
theorem splitOn_intercalate_pair (hne : a ≠ b) {lines : List (List α)} (hsome : lines ≠ [])
    (hfree : ∀ line ∈ lines, b ∉ line) : (List.intercalate [a, b] lines).splitOn b =
      lines.dropLast.map (· ++ [a]) ++ [lines.getLast hsome] := by
  induction lines with
  | nil => exact absurd rfl hsome
  | cons line rest ih =>
    obtain ⟨hline, hrest⟩ := List.forall_mem_cons.mp hfree
    cases rest with
    | nil =>
      rw [List.intercalate_singleton, List.splitOn_eq_singleton hline]
      rfl
    | cons line' rest =>
      have hend : b ∉ line ++ [a] := by simp [hline, hne.symm]
      have hcut : List.intercalate [a, b] (line :: line' :: rest) =
          (line ++ [a]) ++ b :: List.intercalate [a, b] (line' :: rest) := by
        rw [List.intercalate_cons_cons]
        simp
      rw [hcut, splitOn_cons_line hend, ih (List.cons_ne_nil _ _) hrest]
      simp

/-- Behind non-empty lines the first two ends in a row are those that follow. -/
theorem find_blank_line (hne : a ≠ b) {lines : List (List α)} (hsome : lines ≠ [])
    (hfree : ∀ line ∈ lines, a ∉ line) (hfull : ∀ line ∈ lines, line ≠ []) (s : List α) :
    find [a, b, a, b] (List.intercalate [a, b] lines ++ (a :: b :: a :: b :: s)) =
      some (List.intercalate [a, b] lines).length := by
  induction lines with
  | nil => exact absurd rfl hsome
  | cons line rest ih =>
    obtain ⟨hline, hfree⟩ := List.forall_mem_cons.mp hfree
    cases rest with
    | nil =>
      rw [List.intercalate_singleton, find_append_of_not_mem hline]
      rw [show a :: b :: a :: b :: s = [a, b, a, b] ++ s from rfl, find_append_self]
      simp
    | cons line' rest =>
      have hnext := ih (by simp) hfree fun line hmem => hfull line (by simp [hmem])
      obtain ⟨c, line', rfl⟩ := List.exists_cons_of_ne_nil (hfull line' (by simp))
      have hc : a ≠ c := (List.ne_and_not_mem_of_not_mem_cons (hfree _ List.mem_cons_self)).1
      obtain ⟨t, ht⟩ : ∃ t, List.intercalate [a, b] ((c :: line') :: rest) = c :: t := by
        cases rest with
        | nil => exact ⟨line', by simp⟩
        | cons line'' rest => exact ⟨_, by rw [List.intercalate_cons_cons]; rfl⟩
      rw [ht] at hnext
      rw [List.intercalate_cons_cons, ht, List.append_assoc, List.append_assoc,
        find_append_of_not_mem hline]
      have hhere (u : List α) : ¬[a, b, a, b] <+: a :: b :: c :: u := by simp [hc]
      have hbehind (u : List α) : ¬[a, b, a, b] <+: b :: c :: u := by simp [hne]
      rw [List.cons_append] at hnext
      simp only [List.cons_append, List.nil_append]
      rw [find, if_neg (hhere _), find, if_neg (hbehind _), hnext]
      simp
      omega

/-- A word that neither the pair nor a line holds is looked for behind the lines. -/
theorem find_append_pair {pat : List α} (hne : pat ≠ []) (ha : a ∉ pat) (hb : b ∉ pat)
    (l s : List α) :
    find pat (l ++ a :: b :: s) = (find pat l).or ((find pat s).map (· + (l.length + 2))) := by
  rw [find_append_cons hne ha, show b :: s = [] ++ b :: s from rfl, find_append_cons hne hb]
  refine congrArg (Option.or _) ?_
  cases find pat s with
  | none => simp [find, hne]
  | some i =>
    simp [find, hne]
    omega

theorem find_joinLines {pat : List α} (hne : pat ≠ []) (ha : a ∉ pat) (hb : b ∉ pat)
    {lines : List (List α)} (hfree : ∀ line ∈ lines, ¬pat <:+: line) (s : List α) :
    find pat (joinLines a b lines ++ s) =
      (find pat s).map (· + (joinLines a b lines).length) := by
  induction lines with
  | nil => simp
  | cons line rest ih =>
    obtain ⟨hline, hrest⟩ := List.forall_mem_cons.mp hfree
    have hnone : find pat line = none :=
      Option.isNone_iff_eq_none.mp ((find_isNone_iff pat line).mpr hline)
    rw [joinLines_cons, List.append_assoc, List.cons_append, List.cons_append,
      find_append_pair hne ha hb, hnone, Option.none_or, ih hrest]
    cases find pat s with
    | none => rfl
    | some i =>
      simp only [Option.map_some, List.length_append, List.length_cons]
      congr 1
      omega

/-- A word without the elements of the pair is found inside a line. -/
theorem find_word {lines : List (List α)} {w : List α} (hne : w ≠ []) (ha : a ∉ w) (hb : b ∉ w)
    {i : ℕ} (h : find w (joinLines a b lines) = some i) :
    ∃ before l r after, lines = before ++ (l ++ w ++ r) :: after ∧
      i = (joinLines a b before ++ l).length := by
  have hi := ((find_eq_some_iff _ _ _).mp h).1
  obtain ⟨before, l, r, after, hlines, hp, -⟩ := joinLines_word hne ha hb (find_split h)
  refine ⟨before, l, r, after, hlines, ?_⟩
  rw [← hp, List.length_take, min_eq_left hi]

end
end Text
