import Vermell.Http.ResponseHead
import Vermell.Text.Lines

/-! Reading the header lines back from the bytes of a head. -/
namespace Vermell.Http
open Text

/-- A header line `name: value` stands in the head, behind the end of another line. -/
def HasHeader (head : Bytes) (f : Bytes × Bytes) : Prop :=
  COLON ∉ f.1 ∧ CR ∉ f.1 ∧ CR ∉ f.2 ∧ CRLF ++ Response.headerLine f <:+: head

theorem fieldText_inj {f g : Bytes × Bytes} (hf : COLON ∉ f.1) (hg : COLON ∉ g.1)
    (h : fieldText f = fieldText g) : f = g := by
  have hsplit (e : Bytes × Bytes) : fieldText e = e.1 ++ COLON :: SP :: e.2 := by
    rw [fieldText, List.append_assoc]
    rfl
  rw [hsplit, hsplit] at h
  obtain ⟨hname, hval⟩ := append_cons_inj hf hg h
  exact Prod.ext hname (List.cons.inj hval).2

theorem fieldText_ne_nil (f : Bytes × Bytes) : fieldText f ≠ [] := by
  simp [fieldText, show bytes ": " ≠ [] by decide]

/-- The header lines of a text are its lines behind the first. -/
theorem hasHeader_joinLines {lines : List Bytes} (hfree : ∀ line ∈ lines, CR ∉ line)
    (f : Bytes × Bytes) : HasHeader (joinLines CR LF lines) f ↔
      COLON ∉ f.1 ∧ CR ∉ f.1 ∧ CR ∉ f.2 ∧ fieldText f ∈ lines.tail := by
  unfold HasHeader
  refine and_congr_right fun _ => and_congr_right fun hcr => and_congr_right fun hcr' => ?_
  have hcrlf : CRLF ++ Response.headerLine f = CR :: LF :: (fieldText f ++ [CR, LF]) := rfl
  rw [hcrlf]
  constructor
  · rintro ⟨p, s, hinfix⟩
    have hline : CR ∉ fieldText f := by
      simp only [fieldText, List.mem_append, not_or]
      exact ⟨⟨hcr, by decide⟩, hcr'⟩
    obtain ⟨before, line, after, rfl, -⟩ :=
      joinLines_line (p := p) (s := s) (show CR ≠ LF by decide) hfree hline (by
        rw [← hinfix]
        simp)
    cases before <;> simp
  · intro hmem
    obtain ⟨before, after, htail⟩ := List.append_of_mem hmem
    cases lines with
    | nil => simp at htail
    | cons first rest =>
      obtain rfl : rest = before ++ fieldText f :: after := htail
      obtain ⟨p, hp⟩ := joinLines_ends (a := CR) (b := LF) (List.cons_ne_nil first before)
      have hjoin := joinLines_append CR LF (first :: before) (fieldText f :: after)
      rw [List.cons_append, hp] at hjoin
      exact ⟨p, joinLines CR LF after, by rw [hjoin]; simp⟩

theorem HeadShape.lines_free {head status : Bytes} {fields : List (Bytes × Bytes)}
    (h : HeadShape head status fields) {c : UInt8} (hc : isDirty c = true) :
    ∀ line ∈ status :: fields.map fieldText ++ [[]], c ∉ line := by
  intro line hmem
  cases List.mem_append.mp hmem with
  | inl hmem =>
    exact (h.lines_clean line hmem).2.not_mem hc
  | inr hmem =>
    simp [List.mem_singleton.mp hmem]

/-- The header lines of a head are its fields. -/
theorem HeadShape.hasHeader_iff {head status : Bytes} {fields : List (Bytes × Bytes)}
    (h : HeadShape head status fields) (hcolon : ∀ f ∈ fields, COLON ∉ f.1) (f : Bytes × Bytes) :
    HasHeader head f ↔ f ∈ fields := by
  rw [h.text, headText_eq, hasHeader_joinLines (h.lines_free (by decide))]
  constructor
  · rintro ⟨hname, -, -, hmem⟩
    cases List.mem_append.mp hmem with
    | inl hmem =>
      obtain ⟨g, hg, heq⟩ := List.mem_map.mp hmem
      exact fieldText_inj (hcolon g hg) hname heq ▸ hg
    | inr hmem =>
      exact absurd (List.mem_singleton.mp hmem) (fieldText_ne_nil f)
  · intro hf
    obtain ⟨-, hname, hval⟩ := h.fields_clean f hf
    exact ⟨hcolon f hf, hname.cr, hval.cr, List.mem_append_left _ (List.mem_map_of_mem hf)⟩

/-- A response whose head is well formed and whose header lines can be read back. -/
structure Response.Legible (r : Response) : Prop where
  sound : r.Sound
  colon : ∀ f ∈ r.headers, COLON ∉ f.1

theorem Response.Legible.hasHeader_iff {r : Response} (h : r.Legible) (f : Bytes × Bytes) :
    HasHeader r.head f ↔ f ∈ r.fields := by
  refine h.sound.headShape.hasHeader_iff ?_ f
  intro g hg
  cases mem_fields hg with
  | inl hg =>
    exact h.colon g hg
  | inr hg =>
    exact (mem_defaults hg).2.1

end Vermell.Http
