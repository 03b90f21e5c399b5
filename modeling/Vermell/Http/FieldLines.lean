import Vermell.Http.Inspect
import Vermell.Text.Lines

/-! The field lines of a head. `parse` and `scan_head` walk the same lines with loops of their own;
on an accepted request both see the same fields, one for each non-empty line. -/
namespace Vermell.Http
open Text

/-- The lines behind the request line, without their CR, that are not empty. -/
def fieldLines (head : Bytes) : List Bytes := ((headerLines head).map stripCr).filter (· ≠ [])

/-- What the loop of `parse` makes of one non-empty line. -/
def parseField (line : Bytes) : Option (Bytes × Bytes) :=
  if isFold line then none else (cutField line).filter fun field => isToken field.1

theorem cutField_eq_some_iff (line : Bytes) (field : Bytes × Bytes) :
    cutField line = some field ↔ ∃ pre post, line = pre ++ COLON :: post ∧ COLON ∉ pre ∧
      pre ≠ [] ∧ field = (trim pre, trim post) := by
  unfold cutField
  cases hc : line.idxOf? COLON with
  | none =>
    have hno := List.idxOf?_eq_none_iff.mp hc
    simp only [reduceCtorEq, false_iff]
    rintro ⟨pre, post, rfl, -⟩
    simp at hno
  | some colon =>
    obtain ⟨hlt, hat, hmin⟩ := List.idxOf?_eq_some_iff.mp hc
    have hcut := eq_append_of_idxOf? hc
    have hfirst : COLON ∉ line.take colon := by
      intro hmem
      obtain ⟨j, hj, hjc⟩ := List.getElem_of_mem hmem
      rw [List.length_take] at hj
      rw [List.getElem_take] at hjc
      exact hmin j (by omega) hjc
    simp only
    constructor
    · intro h
      split_ifs at h with hz
      refine ⟨_, _, hcut, hfirst, ?_, (Option.some.inj h).symm⟩
      rw [Ne, List.take_eq_nil_iff, not_or]
      exact ⟨hz, fun hnil => by simp [hnil] at hlt⟩
    · rintro ⟨pre, post, rfl, hpre, hne, rfl⟩
      obtain rfl : colon = pre.length := by
        rcases lt_trichotomy colon pre.length with h | h | h
        · rw [List.getElem_append_left h] at hat
          exact absurd (hat ▸ List.getElem_mem h) hpre
        · exact h
        · exact absurd (by simp) (hmin pre.length h)
      have hpos := List.length_pos_iff.mpr hne
      rw [if_neg (by omega)]
      simp

theorem parseField_eq_some_iff (line : Bytes) (field : Bytes × Bytes) :
    parseField line = some field ↔
      isFold line = false ∧ cutField line = some field ∧ isToken field.1 = true := by
  unfold parseField
  cases isFold line <;> simp [Option.filter_eq_some_iff]

/-- The loop of `parse` reads one field from each non-empty line, in order. -/
theorem parseFields_eq_some_iff (lines : List Bytes) (headers : List (Bytes × Bytes)) :
    parseFields lines = some headers ↔ List.Forall₂ (fun line field => parseField line = some field)
      ((lines.map stripCr).filter (· ≠ [])) headers := by
  induction lines generalizing headers with
  | nil => simp [parseFields, eq_comm]
  | cons piece rest ih =>
    unfold parseFields
    by_cases hempty : stripCr piece = []
    · simpa [hempty] using ih headers
    · have hline (field : Bytes × Bytes) := parseField_eq_some_iff (stripCr piece) field
      simp only [hempty, if_false, List.map_cons, List.filter_cons, ne_eq, not_false_eq_true,
        decide_true, if_true]
      cases headers with
      | nil =>
        rw [List.forall₂_nil_right_iff, eq_false (List.cons_ne_nil _ _), iff_false]
        intro h
        split_ifs at h
        split at h
        · cases h
        · split_ifs at h
          simp at h
      | cons field headers =>
        rw [List.forall₂_cons, ← ih headers, hline]
        cases hfold : isFold (stripCr piece) with
        | true => simp
        | false =>
          cases hcut : cutField (stripCr piece) with
          | none => simp
          | some nv =>
            obtain ⟨name, value⟩ := nv
            simp only [Bool.false_eq_true, if_false, true_and, Option.some.injEq]
            constructor
            · intro h
              split_ifs at h with htok
              obtain ⟨headers', hrest, hcons⟩ := Option.map_eq_some_iff.mp h
              obtain ⟨rfl, rfl⟩ := List.cons.inj hcons
              exact ⟨⟨rfl, by simpa using htok⟩, hrest⟩
            · rintro ⟨⟨rfl, htok⟩, hrest⟩
              simp [htok, hrest]

theorem exists_parseField_of_mem {lines : List Bytes} {headers : List (Bytes × Bytes)}
    {field : Bytes × Bytes} (h : parseFields lines = some headers) (hf : field ∈ headers) :
    ∃ line, parseField line = some field := by
  have hall := (parseFields_eq_some_iff _ _).mp h
  generalize (lines.map stripCr).filter (· ≠ []) = kept at hall
  clear h
  induction hall with
  | nil => simp at hf
  | cons hline _ ih =>
    rcases List.mem_cons.mp hf with rfl | hf
    · exact ⟨_, hline⟩
    · exact ih hf

/-- The scan of an accepted head is the fold of `scanField` over the fields of the message. -/
theorem scanLines_eq_foldl {lines : List Bytes} {headers : List (Bytes × Bytes)} {scan : HeadScan}
    {count : ℕ} (hp : parseFields lines = some headers)
    (hbad : (scanLines scan count lines).bad = false)
    (hmany : (scanLines scan count lines).tooMany = false) :
    scanLines scan count lines = headers.foldl (fun s h => scanField s h.1 h.2) scan := by
  induction lines generalizing headers scan count with
  | nil =>
    obtain rfl : headers = [] := by simpa [parseFields, eq_comm] using hp
    rfl
  | cons piece rest ih =>
    unfold scanLines at hbad hmany ⊢
    unfold parseFields at hp
    by_cases hlen : piece.length > MAX_HEADER_LINE
    · simp [hlen] at hbad
    simp only [hlen, if_false] at hbad hmany ⊢
    by_cases hempty : stripCr piece = []
    · simp only [hempty, if_true] at hp hbad hmany ⊢
      exact ih hp hbad hmany
    simp only [hempty, if_false] at hp hbad hmany ⊢
    by_cases hcount : count + 1 > MAX_HEADERS
    · simp [hcount] at hmany
    simp only [hcount, if_false] at hbad hmany ⊢
    cases hfold : isFold (stripCr piece) with
    | true => simp [hfold] at hp
    | false =>
      simp only [hfold, Bool.false_eq_true, if_false] at hp hbad hmany ⊢
      cases hcut : cutField (stripCr piece) with
      | none => simp [hcut] at hp
      | some nv =>
        obtain ⟨name, value⟩ := nv
        simp only [hcut] at hp hbad hmany ⊢
        split_ifs at hp with htok
        obtain ⟨headers', hp', rfl⟩ := Option.map_eq_some_iff.mp hp
        by_cases hfield : (scanField scan name value).bad = true
        · simp [hfield] at hbad
        simp only [hfield] at hbad hmany ⊢
        exact ih hp' hbad hmany

theorem scanHead_eq_foldl {head : Bytes} {headers : List (Bytes × Bytes)}
    (hp : parseFields (headerLines head) = some headers) (hbad : (scanHead head).bad = false)
    (hmany : (scanHead head).tooMany = false) :
    scanHead head = headers.foldl (fun s h => scanField s h.1 h.2) {} := by
  unfold scanHead at hbad hmany ⊢
  have hsplit := splitOn_eq_cons head
  rw [hsplit] at hbad hmany ⊢
  cases hl : headerLines head with
  | nil =>
    rw [hl] at hp
    obtain rfl : headers = [] := by simpa [parseFields, eq_comm] using hp
    rfl
  | cons line lines =>
    rw [hl] at hp
    simp only [hl] at hbad hmany ⊢
    by_cases hlen : (requestLine head).length > MAX_HEADER_LINE
    · simp [hlen] at hbad
    simp only [hlen, if_false] at hbad hmany ⊢
    exact scanLines_eq_foldl hp hbad hmany

end Vermell.Http
