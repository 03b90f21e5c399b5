import Vermell.Http.Numerals
import Vermell.Router.StaticMount
import Vermell.Text.Lines

/-! The lists of entity tags in `If-None-Match`, and which of them `etag_matches` takes for the tag
of a file. -/
namespace Vermell.Router
open Http Text
open Json (COMMA)

/-- A character of an entity tag: neither a quote nor a control character nor a blank. -/
def isEtagc (c : UInt8) : Bool := c == 0x21 || (0x23 ≤ c && c ≤ 0x7E) || 0x80 ≤ c

structure EntityTag where
  weak : Bool
  text : Bytes
  chars : ∀ c ∈ text, isEtagc c = true

/-- The part that is compared. -/
def EntityTag.quoted (t : EntityTag) : Bytes := QUOTE :: (t.text ++ [QUOTE])

def EntityTag.write (t : EntityTag) : Bytes := (if t.weak then bytes "W/" else []) ++ t.quoted

/-- A place of the list, which may be empty, with the blanks around it. -/
structure ListElement where
  before : Bytes
  tag : Option EntityTag
  after : Bytes
  blank_before : ∀ c ∈ before, isItemBlank c = true
  blank_after : ∀ c ∈ after, isItemBlank c = true

def ListElement.write (e : ListElement) : Bytes :=
  e.before ++ (match e.tag with
    | none => []
    | some t => t.write) ++ e.after

/-- The value of an `If-None-Match` field. -/
inductive IfNoneMatch
  | any
  | list (elements : List ListElement)

namespace IfNoneMatch

def write : IfNoneMatch → Bytes
  | any => [STAR]
  | list elements => [COMMA].intercalate (elements.map ListElement.write)

/-- The value asks for a version that it has already, or for any. -/
def Names (etag : Bytes) : IfNoneMatch → Prop
  | any => True
  | list elements => ∃ e ∈ elements, ∃ t, e.tag = some t ∧ t.quoted = etag

/-- Some tag has a star between two commas inside its quotes. -/
def HidesStar : IfNoneMatch → Prop
  | any => False
  | list elements => ∃ e ∈ elements, ∃ t, e.tag = some t ∧ [COMMA, STAR, COMMA] <:+: t.text

end IfNoneMatch

/-- A piece between commas without its blanks. -/
def trimItem (item : Bytes) : Bytes := (item.dropWhile isItemBlank).rdropWhile isItemBlank

def stripWeak (item : Bytes) : Bytes := if (bytes "W/").isPrefixOf item then item.drop 2 else item

def itemMatches (etag item : Bytes) : Bool :=
  trimItem item == [STAR] || stripWeak (trimItem item) == etag

theorem etagMatches_eq (header etag : Bytes) :
    etagMatches header etag =
      (!header.isEmpty && !etag.isEmpty && (header.splitOn COMMA).any (itemMatches etag)) := rfl

/-- What a version of a file is written as: quotes around a text without commas. -/
def QuotedTag (etag : Bytes) : Prop :=
  COMMA ∉ etag ∧ ∃ body, etag = QUOTE :: (body ++ [QUOTE])

theorem comma_not_mem_toCharsInt (z : ℤ) : COMMA ∉ toCharsInt z := by
  have hdigits (n : ℕ) : COMMA ∉ toChars n := fun h => absurd ((toChars_digits n).2 _ h) (by decide)
  unfold toCharsInt
  split_ifs
  · exact List.not_mem_cons_of_ne_of_not_mem (by decide) (hdigits _)
  · exact hdigits _

theorem quotedTag_makeEtag (size mtime : ℤ) : QuotedTag (makeEtag size mtime) := by
  refine ⟨?_, toCharsInt size ++ bytes "-" ++ toCharsInt mtime, ?_⟩
  · have hquote : COMMA ∉ bytes "\"" := by decide
    have hdash : COMMA ∉ bytes "-" := by decide
    simp only [makeEtag, List.mem_append, not_or]
    exact ⟨⟨⟨⟨hquote, comma_not_mem_toCharsInt size⟩, hdash⟩, comma_not_mem_toCharsInt mtime⟩,
      hquote⟩
  · have hquote : bytes "\"" = [QUOTE] := rfl
    simp [makeEtag, hquote]

theorem QuotedTag.quote_mem {etag : Bytes} (h : QuotedTag etag) : QUOTE ∈ etag := by
  obtain ⟨-, body, rfl⟩ := h
  exact List.mem_cons_self

theorem isItemBlank_etagc {c : UInt8} (h : isEtagc c = true) : isItemBlank c = false := by
  by_contra hblank
  simp only [isItemBlank, Bool.not_eq_false, Bool.or_eq_true, beq_iff_eq] at hblank
  cases hblank with
  | inl hsp =>
    rw [hsp] at h
    exact Bool.false_ne_true h
  | inr htab =>
    rw [htab] at h
    exact Bool.false_ne_true h

theorem comma_not_mem_blanks {s : Bytes} (h : ∀ c ∈ s, isItemBlank c = true) : COMMA ∉ s :=
  fun hmem => Bool.false_ne_true (h COMMA hmem)

theorem comma_not_mem_weak (weak : Bool) : COMMA ∉ (if weak then bytes "W/" else []) := by
  cases weak <;> decide

theorem quote_not_mem {s : Bytes} (h : ∀ c ∈ s, isEtagc c = true) : QUOTE ∉ s :=
  fun hmem => Bool.false_ne_true (h QUOTE hmem)

theorem stripWeak_subset (s : Bytes) : stripWeak s ⊆ s := by
  unfold stripWeak
  split_ifs
  · exact List.drop_subset 2 s
  · exact List.Subset.refl s

/-- A closing quote is never part of the prefix. -/
theorem stripWeak_concat (s : Bytes) : stripWeak (s ++ [QUOTE]) = stripWeak s ++ [QUOTE] := by
  cases s with
  | nil => rfl
  | cons a s =>
    cases s with
    | nil => simp [stripWeak, bytes, List.isPrefixOf, QUOTE]
    | cons b s =>
      unfold stripWeak
      rw [apply_ite (· ++ [QUOTE])]
      simp [bytes, List.isPrefixOf]

section
variable {etag : Bytes}

/-- A piece that begins a tag, with its whole rest or cut off. -/
theorem itemMatches_opened {before after u : Bytes} (hbefore : ∀ c ∈ before, isItemBlank c = true)
    (hafter : ∀ c ∈ after, isItemBlank c = true) (weak : Bool)
    (hlast : ∀ c, (QUOTE :: u).getLast? = some c → isItemBlank c = false) :
    itemMatches etag (before ++ ((if weak then bytes "W/" else []) ++ QUOTE :: u) ++ after) =
      (QUOTE :: u == etag) := by
  have htrim : trimItem (before ++ ((if weak then bytes "W/" else []) ++ QUOTE :: u) ++ after) =
      (if weak then bytes "W/" else []) ++ QUOTE :: u := by
    apply trim_around hbefore hafter
    · intro c hc
      cases weak <;> cases hc <;> rfl
    · intro c hc
      rw [List.getLast?_append_of_ne_nil _ (List.cons_ne_nil _ _)] at hc
      exact hlast c hc
  unfold itemMatches
  rw [htrim]
  cases weak <;> rfl

/-- A tag without a comma is one piece. -/
theorem itemMatches_whole {before after : Bytes} (hbefore : ∀ c ∈ before, isItemBlank c = true)
    (hafter : ∀ c ∈ after, isItemBlank c = true) (t : EntityTag) :
    itemMatches etag (before ++ t.write ++ after) = (t.quoted == etag) := by
  apply itemMatches_opened hbefore hafter
  intro c hc
  rw [← List.cons_append, List.getLast?_concat] at hc
  cases hc
  rfl

theorem last_etagc {u : Bytes} (hu : ∀ c ∈ u, isEtagc c = true) (c : UInt8)
    (hc : (QUOTE :: u).getLast? = some c) : isItemBlank c = false := by
  cases List.mem_cons.mp (List.mem_of_getLast? hc) with
  | inl hquote => exact hquote ▸ rfl
  | inr hin => exact isItemBlank_etagc (hu c hin)

variable (hetag : QuotedTag etag)
include hetag

/-- A tag that is cut off at a comma misses its closing quote. -/
theorem itemMatches_first {before u : Bytes} (hbefore : ∀ c ∈ before, isItemBlank c = true)
    (weak : Bool) (hu : ∀ c ∈ u, isEtagc c = true) :
    itemMatches etag (before ++ ((if weak then bytes "W/" else []) ++ QUOTE :: u)) = false := by
  have hopened : itemMatches etag
      (before ++ ((if weak then bytes "W/" else []) ++ QUOTE :: u) ++ []) = (QUOTE :: u == etag) :=
    itemMatches_opened hbefore (List.forall_mem_nil _) weak (last_etagc hu)
  rw [List.append_nil] at hopened
  rw [hopened, beq_eq_false_iff_ne]
  obtain ⟨-, body, rfl⟩ := hetag
  intro heq
  have hclosing : u = body ++ [QUOTE] := (List.cons.inj heq).2
  exact quote_not_mem hu (hclosing ▸ List.mem_append_right body (List.mem_singleton_self QUOTE))

/-- A piece between two commas of a tag. -/
theorem itemMatches_inner {u : Bytes} (hu : ∀ c ∈ u, isEtagc c = true) :
    itemMatches etag u = (u == [STAR]) := by
  have htrim : trimItem u = u := by
    apply trim_self
    · exact fun c hc => isItemBlank_etagc (hu c (List.mem_of_mem_head? hc))
    · exact fun c hc => isItemBlank_etagc (hu c (List.mem_of_getLast? hc))
  have hne : stripWeak u ≠ etag := fun h =>
    quote_not_mem hu (stripWeak_subset u (h ▸ hetag.quote_mem))
  unfold itemMatches
  rw [htrim, beq_eq_false_iff_ne.mpr hne, Bool.or_false]

/-- The piece behind the last comma of a tag. -/
theorem itemMatches_last {u after : Bytes} (hu : ∀ c ∈ u, isEtagc c = true)
    (hafter : ∀ c ∈ after, isItemBlank c = true) :
    itemMatches etag (u ++ QUOTE :: after) = false := by
  have htrim : trimItem ([] ++ (u ++ [QUOTE]) ++ after) = u ++ [QUOTE] := by
    apply trim_around (List.forall_mem_nil _) hafter
    · intro c hc
      cases u with
      | nil =>
        cases hc
        rfl
      | cons d u =>
        cases hc
        exact isItemBlank_etagc (hu _ List.mem_cons_self)
    · intro c hc
      rw [List.getLast?_concat] at hc
      cases hc
      rfl
  have hsplit : u ++ QUOTE :: after = [] ++ (u ++ [QUOTE]) ++ after := by simp
  have hquote : QUOTE ∈ u ++ [QUOTE] := List.mem_append_right u (List.mem_singleton_self QUOTE)
  have hstar : u ++ [QUOTE] ≠ [STAR] := fun h => absurd (h ▸ hquote) (by decide : QUOTE ∉ [STAR])
  have hne : stripWeak (u ++ [QUOTE]) ≠ etag := by
    obtain ⟨-, body, rfl⟩ := hetag
    rw [stripWeak_concat, ← List.cons_append]
    intro heq
    have hopening : stripWeak u = QUOTE :: body := List.append_cancel_right heq
    exact quote_not_mem hu (stripWeak_subset u (hopening ▸ List.mem_cons_self))
  unfold itemMatches
  rw [hsplit, htrim, beq_eq_false_iff_ne.mpr hstar, beq_eq_false_iff_ne.mpr hne]
  rfl

/-- The pieces behind the first comma of a tag. -/
theorem any_pieces_behind {s after : Bytes} (hs : ∀ c ∈ s, isEtagc c = true)
    (hafter : ∀ c ∈ after, isItemBlank c = true) :
    ((s ++ QUOTE :: after).splitOn COMMA).any (itemMatches etag) = true ↔
      [STAR] ∈ (s.splitOn COMMA).dropLast := by
  induction s using splitOn_induction COMMA with
  | last p hp =>
    have hpiece : COMMA ∉ p ++ QUOTE :: after := by
      rw [List.mem_append, List.mem_cons, not_or, not_or]
      exact ⟨hp, by decide, comma_not_mem_blanks hafter⟩
    rw [List.splitOn_eq_singleton hpiece, List.splitOn_eq_singleton hp]
    simp [itemMatches_last hetag hs hafter]
  | line p s hp ih =>
    obtain ⟨hpre, hrest⟩ := List.forall_mem_append.mp hs
    rw [List.append_assoc, List.cons_append, splitOn_cons_line hp, splitOn_cons_line hp,
      List.dropLast_cons_of_ne_nil (List.splitOn_ne_nil COMMA s), List.any_cons,
      itemMatches_inner hetag hpre, Bool.or_eq_true, List.mem_cons,
      ih (List.forall_mem_cons.mp hrest).2, beq_iff_eq, @eq_comm _ p]

/-- A place without a tag. -/
theorem itemMatches_blank {s : Bytes} (hs : ∀ c ∈ s, isItemBlank c = true) :
    itemMatches etag s = false := by
  have htrim : trimItem s = [] := by
    unfold trimItem
    rw [List.dropWhile_eq_nil_iff.mpr hs]
    rfl
  have hne : [] ≠ etag := fun h => List.not_mem_nil (h ▸ hetag.quote_mem)
  unfold itemMatches
  rw [htrim]
  exact beq_eq_false_iff_ne.mpr hne

/-- The pieces of a tag with a comma. None of them is the file's tag. -/
theorem any_pieces_cut {before after : Bytes} (hbefore : ∀ c ∈ before, isItemBlank c = true)
    (hafter : ∀ c ∈ after, isItemBlank c = true) {t : EntityTag} (hcomma : COMMA ∈ t.text) :
    ((before ++ t.write ++ after).splitOn COMMA).any (itemMatches etag) = true ↔
      [COMMA, STAR, COMMA] <:+: t.text := by
  have hhidden : [COMMA, STAR, COMMA] <:+: t.text ↔
      [STAR] ∈ (t.text.splitOn COMMA).tail.dropLast := by
    rw [mem_inner_splitOn]
    exact (and_iff_right (by decide : COMMA ∉ [STAR])).symm
  obtain ⟨p, s, htext, hp⟩ := List.eq_append_cons_of_mem hcomma
  have hchars := t.chars
  rw [htext, List.forall_mem_append, List.forall_mem_cons] at hchars
  have hwrite : before ++ t.write ++ after =
      (before ++ ((if t.weak then bytes "W/" else []) ++ QUOTE :: p)) ++
        COMMA :: (s ++ QUOTE :: after) := by
    simp [EntityTag.write, EntityTag.quoted, htext]
  have hfirst : COMMA ∉ before ++ ((if t.weak then bytes "W/" else []) ++ QUOTE :: p) := by
    simp only [List.mem_append, List.mem_cons, not_or]
    exact ⟨comma_not_mem_blanks hbefore, comma_not_mem_weak t.weak, by decide, hp⟩
  rw [hwrite, splitOn_cons_line hfirst, List.any_cons,
    itemMatches_first hetag hbefore t.weak hchars.1, Bool.false_or,
    any_pieces_behind hetag hchars.2.2 hafter, hhidden, htext, splitOn_cons_line hp,
    List.tail_cons]

/-- The pieces of one place of the list. -/
theorem any_pieces (e : ListElement) :
    (e.write.splitOn COMMA).any (itemMatches etag) = true ↔
      ∃ t, e.tag = some t ∧ (t.quoted = etag ∨ [COMMA, STAR, COMMA] <:+: t.text) := by
  obtain ⟨before, tag, after, hbefore, hafter⟩ := e
  cases tag with
  | none =>
    have hblank : ∀ c ∈ before ++ [] ++ after, isItemBlank c = true := by
      rw [List.append_nil]
      exact List.forall_mem_append.mpr ⟨hbefore, hafter⟩
    change ((before ++ [] ++ after).splitOn COMMA).any (itemMatches etag) = true ↔ _
    rw [List.splitOn_eq_singleton (comma_not_mem_blanks hblank), List.any_cons,
      itemMatches_blank hetag hblank]
    simp
  | some t =>
    change ((before ++ t.write ++ after).splitOn COMMA).any (itemMatches etag) = true ↔ _
    simp only [Option.some.injEq, exists_eq_left']
    by_cases hcomma : COMMA ∈ t.text
    · have hother : t.quoted ≠ etag := fun h =>
        hetag.1 (h ▸ List.mem_cons_of_mem _ (List.mem_append_left _ hcomma))
      rw [any_pieces_cut hetag hbefore hafter hcomma, or_iff_right hother]
    · have hpiece : COMMA ∉ before ++ t.write ++ after := by
        simp only [EntityTag.write, EntityTag.quoted, List.mem_append, List.mem_cons, not_or]
        exact ⟨⟨comma_not_mem_blanks hbefore, comma_not_mem_weak t.weak, by decide, hcomma,
          by decide, by simp⟩, comma_not_mem_blanks hafter⟩
      have hnone : ¬[COMMA, STAR, COMMA] <:+: t.text := fun h => hcomma (h.subset (by simp))
      rw [List.splitOn_eq_singleton hpiece, List.any_cons, itemMatches_whole hbefore hafter,
        or_iff_left hnone]
      simp

theorem etagMatches_eq_any (header : Bytes) :
    etagMatches header etag = (header.splitOn COMMA).any (itemMatches etag) := by
  have hne : etag.isEmpty = false := by
    obtain ⟨-, body, rfl⟩ := hetag
    rfl
  rw [etagMatches_eq, hne]
  cases header with
  | nil =>
    rw [List.splitOn_nil, List.any_cons, itemMatches_blank hetag (List.forall_mem_nil _)]
    rfl
  | cons c s => rfl

/-- What `etag_matches` answers: a tag of the list is the file's, or a comma in quotes lets a star
out. -/
theorem etagMatches_write (v : IfNoneMatch) :
    etagMatches v.write etag = true ↔ v.Names etag ∨ v.HidesStar := by
  rw [etagMatches_eq_any hetag]
  cases v with
  | any => exact iff_of_true rfl (.inl trivial)
  | list elements =>
    cases elements with
    | nil =>
      have hnone := itemMatches_blank hetag (List.forall_mem_nil (isItemBlank · = true))
      simp [IfNoneMatch.write, IfNoneMatch.Names, IfNoneMatch.HidesStar, hnone]
    | cons e rest =>
      have hparts : (e :: rest).map ListElement.write ≠ [] := by simp
      rw [IfNoneMatch.write, splitOn_intercalate_flatMap hparts, List.any_flatMap, List.any_map,
        List.any_eq_true]
      simp only [Function.comp_apply, any_pieces hetag, and_or_left, exists_or,
        IfNoneMatch.Names, IfNoneMatch.HidesStar]

end

/-- `etag_matches` follows the list exactly where no tag hides a star between commas, or one of its
tags is the file's anyway. -/
theorem etagMatches_makeEtag (v : IfNoneMatch) (size mtime : ℤ) :
    (etagMatches v.write (makeEtag size mtime) = true ↔ v.Names (makeEtag size mtime)) ↔
      v.Names (makeEtag size mtime) ∨ ¬v.HidesStar := by
  rw [etagMatches_write (quotedTag_makeEtag size mtime)]
  tauto

/-- One tag, whose text is `a,*,b`. -/
def starTag : IfNoneMatch :=
  .list [⟨[], some ⟨false, bytes "a,*,b", List.all_eq_true.mp (by decide)⟩, [], by simp, by simp⟩]

theorem etagMatches_starTag :
    starTag.write = bytes "\"a,*,b\"" ∧ ¬starTag.Names (makeEtag 5 7) ∧
      etagMatches starTag.write (makeEtag 5 7) = true := by
  refine ⟨by decide, ?_, by decide⟩
  rintro ⟨e, he, t, ht, hquoted⟩
  rw [List.mem_singleton.mp he] at ht
  cases ht
  revert hquoted
  decide

end Vermell.Router
