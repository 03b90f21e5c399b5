import Vermell.Http.Disposition
import Vermell.Http.Message

/-! `Content-Type` as a client writes it, and what `parse_content_type` reads back. -/
namespace Vermell.Http
open Text

/-- A parameter with the blanks around it: a token, or in quotes any value without a semicolon. -/
structure TypeParam where
  key : Bytes
  value : Bytes
  quoted : Bool
  before : Bytes := []
  after : Bytes := []
  token : isToken key = true
  unhidden : SEMICOLON ∉ value
  plain : quoted = false → isToken value = true
  blanks : ∀ c ∈ before ++ after, isBlank c = true
  one_piece : SEMICOLON ∉ before ++ after

/-- A media type, with its blanks and its parameters. -/
structure MediaType where
  type : Bytes
  after : Bytes := []
  params : List TypeParam := []
  full : type ≠ []
  trimmed : trim type = type
  blanks : ∀ c ∈ after, isBlank c = true
  one_piece : SEMICOLON ∉ type ++ after

namespace TypeParam

def valueText (p : TypeParam) : Bytes := if p.quoted then QUOTE :: (p.value ++ [QUOTE]) else p.value

def text (p : TypeParam) : Bytes := p.before ++ p.key ++ EQUALS :: (p.valueText ++ p.after)

theorem text_free (p : TypeParam) : SEMICOLON ∉ p.text := by
  have hkey := not_mem_of_isToken p.token (c := SEMICOLON) (by decide)
  have hpieces := p.one_piece
  have hvalue : SEMICOLON ∉ p.valueText := by
    have hhidden := p.unhidden
    unfold valueText
    split_ifs
    · simpa [hhidden] using show SEMICOLON ≠ QUOTE by decide
    · exact hhidden
  rw [List.mem_append, not_or] at hpieces
  simp only [text, List.mem_append, List.mem_cons, not_or]
  exact ⟨⟨hpieces.1, hkey⟩, by decide, hvalue, hpieces.2⟩

theorem equals_not_mem (p : TypeParam) : EQUALS ∉ p.before ++ p.key := by
  have hkey := not_mem_of_isToken p.token (c := EQUALS) (by decide)
  refine List.not_mem_append (fun hmem => ?_) hkey
  have hblank := p.blanks EQUALS (List.mem_append_left _ hmem)
  cases hblank

theorem isBlank_of_token {s : Bytes} (h : isToken s = true) {c : UInt8} (hc : c ∈ s) :
    isBlank c = false := by
  by_contra hblank
  simp only [isBlank, Bool.not_eq_false, Bool.or_eq_true, beq_iff_eq] at hblank
  refine not_mem_of_isToken h ?_ hc
  simp only [List.mem_cons, List.not_mem_nil, or_false]
  tauto

theorem trim_key (p : TypeParam) : trim (p.before ++ p.key) = p.key := by
  have hblanks := (List.forall_mem_append.mp p.blanks).1
  have hends (c : UInt8) (hc : c ∈ p.key) : isBlank c = false := isBlank_of_token p.token hc
  have haround := trim_around (s := p.key) hblanks (List.forall_mem_nil (isBlank · = true))
    (fun c hc => hends c (List.mem_of_mem_head? hc))
    fun c hc => hends c (List.mem_of_mem_getLast? hc)
  rwa [List.append_nil] at haround

theorem trim_valueText (p : TypeParam) : trim (p.valueText ++ p.after) = p.valueText := by
  have hblanks := (List.forall_mem_append.mp p.blanks).2
  have haround := trim_around (s := p.valueText) (List.forall_mem_nil (isBlank · = true)) hblanks
  have hquote : isBlank QUOTE = false := by decide
  apply haround
  · intro c hc
    unfold valueText at hc
    split_ifs at hc with hquoted
    · rwa [← Option.some.inj hc]
    · exact isBlank_of_token (p.plain (by simpa using hquoted)) (List.mem_of_mem_head? hc)
  · intro c hc
    unfold valueText at hc
    split_ifs at hc with hquoted
    · rw [← List.cons_append, List.getLast?_concat] at hc
      rwa [← Option.some.inj hc]
    · exact isBlank_of_token (p.plain (by simpa using hquoted)) (List.mem_of_mem_getLast? hc)

/-- The quotes go, and nothing else of the value. -/
theorem unquoted (p : TypeParam) :
    (if p.valueText.length ≥ 2 ∧ p.valueText.head? = some QUOTE ∧
        p.valueText.getLast? = some QUOTE then (p.valueText.drop 1).dropLast else p.valueText) =
      p.value := by
  unfold valueText
  by_cases hquoted : p.quoted = true
  · rw [if_pos hquoted, ← List.cons_append, List.getLast?_concat]
    simp
  · rw [if_neg hquoted]
    refine if_neg fun h => ?_
    have hplain := p.plain (by simpa using hquoted)
    exact not_mem_of_isToken hplain (by decide) (List.mem_of_mem_head? h.2.1)

theorem contentTypeParam_text (p : TypeParam) :
    contentTypeParam p.text = some (lower p.key, p.value) := by
  have hdrop : p.text.drop ((p.before ++ p.key).length + 1) = p.valueText ++ p.after := by
    have hsucc (l t : Bytes) : (l ++ EQUALS :: t).drop (l.length + 1) = t := by simp
    exact hsucc _ _
  have htake : p.text.take (p.before ++ p.key).length = p.before ++ p.key := by
    rw [text, List.take_left]
  have hequals : p.text.idxOf? EQUALS = some (p.before ++ p.key).length :=
    idxOf?_append_cons p.equals_not_mem _
  simp only [contentTypeParam, hequals, hdrop, htake, trim_valueText, trim_key, unquoted]

end TypeParam

namespace MediaType

def text (t : MediaType) : Bytes :=
  t.type ++ t.after ++ t.params.flatMap fun p => SEMICOLON :: p.text

theorem splitOn_text (t : MediaType) :
    t.text.splitOn SEMICOLON = (t.type ++ t.after) :: t.params.map TypeParam.text := by
  unfold text
  generalize hfront : t.type ++ t.after = front
  have hfree : SEMICOLON ∉ front := hfront ▸ t.one_piece
  clear hfront
  induction t.params generalizing front with
  | nil => simpa using List.splitOn_eq_singleton hfree
  | cons p params ih =>
    rw [List.flatMap_cons, List.cons_append, splitOn_cons_line hfree, ih p.text p.text_free,
      List.map_cons]

theorem trim_front (t : MediaType) : trim (t.type ++ t.after) = t.type := by
  obtain ⟨hhead, hlast⟩ := trim_ends t.type
  rw [t.trimmed] at hhead hlast
  exact trim_around (List.forall_mem_nil (isBlank · = true)) t.blanks hhead hlast

theorem text_full (t : MediaType) : t.text ≠ [] := by
  have hfull := t.full
  simp [text, hfull]

end MediaType

def Message.contentTypeParam (m : Message) (key : Bytes) : Option Bytes :=
  (m.contentTypeParams.find? (·.1 = key)).map (·.2)

theorem parseContentType_text {m : Message} {t : MediaType}
    (h : m.header (bytes "Content-Type") = t.text) :
    m.parseContentType = { m with
      contentType := lower t.type,
      contentTypeParams := t.params.map fun p => (lower p.key, p.value) } := by
  have hparams : (t.params.map TypeParam.text).filterMap contentTypeParam =
      t.params.map fun p => (lower p.key, p.value) := by
    rw [List.filterMap_map]
    conv_rhs => rw [← List.filterMap_eq_map]
    congr 1
    funext p
    exact p.contentTypeParam_text
  unfold Message.parseContentType
  simp only [h, t.text_full, if_false, t.splitOn_text, t.trim_front, hparams]

theorem parseContentType_untyped {m : Message} (h : m.header (bytes "Content-Type") = []) :
    m.parseContentType = m := by
  unfold Message.parseContentType
  simp only [h, if_true]

end Vermell.Http
