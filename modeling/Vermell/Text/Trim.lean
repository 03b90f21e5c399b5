import Mathlib.Data.List.DropRight
import Mathlib.Tactic

/-! Trimming: what a text loses at its ends, and what neither of its ends can be afterwards. -/
namespace Text
variable {α : Type*} {p : α → Bool} {before s after : List α}

theorem head?_dropWhile (p : α → Bool) (s : List α) (c : α)
    (hc : (s.dropWhile p).head? = some c) : p c = false := by
  have hhead := List.head?_dropWhile_not p s
  rw [hc] at hhead
  exact hhead

theorem getLast?_rdropWhile (p : α → Bool) (s : List α) (c : α)
    (hc : (s.rdropWhile p).getLast? = some c) : p c = false := by
  apply head?_dropWhile p s.reverse
  rwa [List.rdropWhile, List.getLast?_reverse] at hc

theorem dropWhile_front (hbefore : ∀ c ∈ before, p c = true)
    (hhead : ∀ c, s.head? = some c → p c = false) : (before ++ s).dropWhile p = s := by
  rw [List.dropWhile_append_of_pos hbefore]
  cases s with
  | nil => rfl
  | cons c s => rw [List.dropWhile_cons_of_neg (by simp [hhead c rfl])]

theorem rdropWhile_back (hafter : ∀ c ∈ after, p c = true)
    (hlast : ∀ c, s.getLast? = some c → p c = false) : (s ++ after).rdropWhile p = s := by
  unfold List.rdropWhile
  rw [List.reverse_append, dropWhile_front, List.reverse_reverse]
  · intro c hc
    exact hafter c (List.mem_reverse.mp hc)
  · intro c hc
    exact hlast c (List.head?_reverse ▸ hc)

theorem takeWhile_append_stop {c : α} (hc : p c = false) (s l : List α) :
    (s ++ c :: l).takeWhile p = s.takeWhile p := by
  induction s with
  | nil => rw [List.nil_append, List.takeWhile_cons_of_neg (by simp [hc]), List.takeWhile_nil]
  | cons a s ih => rw [List.cons_append, List.takeWhile_cons, List.takeWhile_cons, ih]

theorem dropWhile_append_stop {c : α} (hc : p c = false) (s l : List α) :
    (s ++ c :: l).dropWhile p = s.dropWhile p ++ c :: l := by
  induction s with
  | nil => rw [List.nil_append, List.dropWhile_cons_of_neg (by simp [hc]), List.dropWhile_nil]; rfl
  | cons a s ih =>
    rw [List.cons_append, List.dropWhile_cons, List.dropWhile_cons, ih]
    split_ifs <;> rfl

theorem rtakeWhile_append_stop {c : α} (hc : p c = false) (l s : List α) :
    (l ++ c :: s).rtakeWhile p = s.rtakeWhile p := by
  unfold List.rtakeWhile
  rw [List.reverse_append, List.reverse_cons, List.append_assoc, List.singleton_append,
    takeWhile_append_stop hc]

theorem rdropWhile_append_stop {c : α} (hc : p c = false) (l s : List α) :
    (l ++ c :: s).rdropWhile p = l ++ c :: s.rdropWhile p := by
  unfold List.rdropWhile
  rw [List.reverse_append, List.reverse_cons, List.append_assoc, List.singleton_append,
    dropWhile_append_stop hc]
  simp

/-- Trimming at both ends leaves a text that neither starts nor ends with what is trimmed. -/
theorem trim_around (hbefore : ∀ c ∈ before, p c = true) (hafter : ∀ c ∈ after, p c = true)
    (hhead : ∀ c, s.head? = some c → p c = false)
    (hlast : ∀ c, s.getLast? = some c → p c = false) :
    ((before ++ s ++ after).dropWhile p).rdropWhile p = s := by
  cases s with
  | nil =>
    have hall : ∀ c ∈ before ++ [] ++ after, p c = true := by
      rw [List.append_nil]
      exact List.forall_mem_append.mpr ⟨hbefore, hafter⟩
    rw [List.dropWhile_eq_nil_iff.mpr hall]
    rfl
  | cons c s =>
    have hfront : (before ++ (c :: s ++ after)).dropWhile p = c :: s ++ after :=
      dropWhile_front hbefore fun _ h => hhead _ h
    rw [List.append_assoc, hfront, rdropWhile_back hafter hlast]

theorem trim_self (hhead : ∀ c, s.head? = some c → p c = false)
    (hlast : ∀ c, s.getLast? = some c → p c = false) : (s.dropWhile p).rdropWhile p = s := by
  have hself := trim_around (List.forall_mem_nil (p · = true)) (List.forall_mem_nil _) hhead hlast
  rwa [List.nil_append, List.append_nil] at hself

/-- Around an element that is not trimmed each end is trimmed on its own. -/
theorem trim_append_stop {c : α} (hc : p c = false) (l s : List α) :
    ((l ++ c :: s).dropWhile p).rdropWhile p = l.dropWhile p ++ c :: s.rdropWhile p := by
  rw [dropWhile_append_stop hc, rdropWhile_append_stop hc]

/-- What trimming leaves neither starts nor ends with what is trimmed. -/
theorem trimmed_ends (p : α → Bool) (s : List α) :
    (∀ c, ((s.dropWhile p).rdropWhile p).head? = some c → p c = false) ∧
      ∀ c, ((s.dropWhile p).rdropWhile p).getLast? = some c → p c = false := by
  constructor
  · intro c hc
    apply head?_dropWhile p s
    obtain ⟨t, ht⟩ := List.rdropWhile_prefix p (s.dropWhile p)
    rw [← ht, List.head?_append, hc]
    rfl
  · exact getLast?_rdropWhile p (s.dropWhile p)

/-- What trimming takes away. -/
theorem exists_trimmed (p : α → Bool) (s : List α) : ∃ before after,
    s = before ++ (s.dropWhile p).rdropWhile p ++ after ∧
      (∀ c ∈ before, p c = true) ∧ ∀ c ∈ after, p c = true := by
  refine ⟨s.takeWhile p, (s.dropWhile p).rtakeWhile p, ?_, ?_, ?_⟩
  · rw [List.append_assoc, List.rdropWhile_append_rtakeWhile, List.takeWhile_append_dropWhile]
  · exact fun c => List.mem_takeWhile_imp
  · exact fun c => List.mem_rtakeWhile_imp

end Text
