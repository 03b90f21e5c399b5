import Vermell.Http.FieldGrammar
import Vermell.Http.BodyLength

/-! Bytes that break a line inside the parsed header text. Method, target, version and field names
pass a character check; a field value is only cut at LF and trimmed at its ends. -/
namespace Vermell.Http
open Text

def NUL : UInt8 := 0

/-- The text holds none of CR, LF and NUL. -/
def Unbroken (s : Bytes) : Prop := CR ∉ s ∧ LF ∉ s ∧ NUL ∉ s

instance (s : Bytes) : Decidable (Unbroken s) := inferInstanceAs (Decidable (_ ∧ _))

/-- Every text of the head that a handler can read is a single line. -/
def SingleLineHead (m : Message) : Prop :=
  Unbroken m.method ∧ Unbroken m.target ∧ Unbroken m.version ∧
    ∀ header ∈ m.headers, Unbroken header.1 ∧ Unbroken header.2

/-- A CR stands between two bytes that `trim` keeps. -/
def InnerCr (s : Bytes) : Prop :=
  ∃ front back, s = front ++ CR :: back ∧ (∃ c ∈ front, isBlank c = false) ∧
    ∃ c ∈ back, isBlank c = false

/-- Behind its first colon the line holds no NUL, and CRs only at the two ends. -/
def CleanFieldValue (line : Bytes) : Prop :=
  ∀ name rest, line = name ++ COLON :: rest → COLON ∉ name → NUL ∉ rest ∧ ¬ InnerCr rest

/-- A check on every byte that refuses the three makes the text a single line. -/
theorem unbroken_of_forall {p : UInt8 → Prop} {s : Bytes} (h : ∀ c ∈ s, p c) (hcr : ¬ p CR)
    (hlf : ¬ p LF) (hnul : ¬ p NUL) : Unbroken s :=
  ⟨fun hc => hcr (h _ hc), fun hc => hlf (h _ hc), fun hc => hnul (h _ hc)⟩

theorem unbroken_of_isToken {s : Bytes} (h : isToken s = true) : Unbroken s :=
  unbroken_of_forall ((isToken_iff s).mp h).2 (by decide) (by decide) (by decide)

theorem unbroken_of_isValidTarget {s : Bytes} (h : isValidTarget s = true) : Unbroken s := by
  unfold isValidTarget at h
  rw [Bool.and_eq_true, List.all_eq_true] at h
  exact unbroken_of_forall h.2 (by decide) (by decide) (by decide)

theorem unbroken_of_isValidVersion {s : Bytes} (h : isValidVersion s = true) : Unbroken s := by
  simp only [isValidVersion, Bool.and_eq_true, beq_iff_eq, List.isPrefixOf_iff_prefix] at h
  obtain ⟨⟨⟨⟨hlen, t, rfl⟩, hmajor⟩, hdot⟩, hminor⟩ := h
  obtain ⟨a, b, c, rfl⟩ := List.length_eq_three.mp (by simpa [bytes] using hlen)
  change isDigit a = true at hmajor
  change b = DOT at hdot
  change isDigit c = true at hminor
  have hall : ∀ x ∈ bytes "HTTP/" ++ [a, b, c], x ∈ bytes "HTTP/." ∨ isDigit x = true := by
    rw [List.forall_mem_append]
    refine ⟨fun x hx => Or.inl ?_, ?_⟩
    · exact (by decide : bytes "HTTP/" ⊆ bytes "HTTP/.") hx
    · simp [hmajor, hminor, hdot, (by decide : DOT ∈ bytes "HTTP/.")]
  exact unbroken_of_forall hall (by decide) (by decide) (by decide)

/-- `trim` takes blanks from both ends and nothing else. -/
theorem exists_eq_append_trim (s : Bytes) : ∃ pre post, s = pre ++ trim s ++ post ∧
    (∀ c ∈ pre, isBlank c = true) ∧ ∀ c ∈ post, isBlank c = true := exists_trimmed isBlank s

theorem mem_trim_of_not_blank {s : Bytes} {c : UInt8} (hc : isBlank c = false) :
    c ∈ trim s ↔ c ∈ s := by
  obtain ⟨pre, post, hs, hpre, hpost⟩ := exists_eq_append_trim s
  have hout (t : Bytes) (ht : ∀ x ∈ t, isBlank x = true) : c ∉ t := by
    intro hmem
    rw [ht c hmem] at hc
    cases hc
  conv_rhs => rw [hs]
  simp [hout pre hpre, hout post hpost]

/-- A CR that `trim` leaves in a text stands between two bytes that it keeps. -/
theorem cr_mem_trim_iff (s : Bytes) : CR ∈ trim s ↔ InnerCr s := by
  obtain ⟨pre, post, hs, hpre, hpost⟩ := exists_eq_append_trim s
  obtain ⟨hhead, hlast⟩ := trim_ends s
  constructor
  · intro hcr
    obtain ⟨front, back, hsplit⟩ := List.append_of_mem hcr
    rw [hsplit] at hs hhead hlast
    refine ⟨pre ++ front, back ++ post, by simp [hs], ?_, ?_⟩
    · cases front with
      | nil => exact absurd (hhead CR rfl) (by decide)
      | cons c front => exact ⟨c, by simp, hhead c rfl⟩
    · cases back using List.reverseRecOn with
      | nil => exact absurd (hlast CR (by simp)) (by decide)
      | append_singleton back c =>
        rw [← List.cons_append, ← List.append_assoc] at hlast
        exact ⟨c, by simp, hlast c List.getLast?_concat⟩
  · rintro ⟨front, back, hsplit, ⟨x, hx, hxkeep⟩, y, hy, hykeep⟩
    have hx' : x ∉ pre := fun h => by simp [hpre x h] at hxkeep
    have hy' : y ∉ post := fun h => by simp [hpost y h] at hykeep
    generalize trim s = kept at hs ⊢
    rw [hsplit, List.append_assoc] at hs
    -- a kept byte stands on either side of the CR, so the CR is in neither blank end
    rcases List.append_eq_append_iff.mp hs with ⟨t, rfl, -⟩ | ⟨t, rfl, ht⟩
    · exact absurd (List.mem_append_left t hx) hx'
    rcases List.append_eq_append_iff.mp ht with ⟨u, -, rfl⟩ | ⟨u, rfl, hu⟩
    · exact absurd (by simp [hy]) hy'
    cases u with
    | nil =>
      rw [List.nil_append] at hu
      exact absurd (hu ▸ List.mem_cons_of_mem CR hy) hy'
    | cons c u =>
      obtain ⟨rfl, -⟩ := List.cons.inj hu
      simp

theorem unbroken_trim_iff {s : Bytes} (hlf : LF ∉ s) :
    Unbroken (trim s) ↔ NUL ∉ s ∧ ¬ InnerCr s := by
  obtain ⟨pre, post, hs, -⟩ := exists_eq_append_trim s
  have hlf' : LF ∉ trim s := by
    intro hmem
    rw [hs] at hlf
    simp [hmem] at hlf
  unfold Unbroken
  rw [cr_mem_trim_iff, mem_trim_of_not_blank (c := NUL) (by decide)]
  tauto

/-- The name of a field is a token, so a field is unbroken exactly when its value is. -/
theorem parseField_unbroken_iff {line : Bytes} {header : Bytes × Bytes} (hlf : LF ∉ line)
    (h : parseField line = some header) :
    (Unbroken header.1 ∧ Unbroken header.2) ↔ CleanFieldValue line := by
  obtain ⟨-, hcut, htok⟩ := (parseField_eq_some_iff _ _).mp h
  obtain ⟨name, rest, rfl, hname, -, rfl⟩ := (cutField_eq_some_iff _ _).mp hcut
  have hrest : LF ∉ rest := fun hmem => hlf (by simp [hmem])
  rw [and_iff_right (unbroken_of_isToken htok), unbroken_trim_iff hrest]
  constructor
  · intro hclean name' rest' heq hname'
    obtain ⟨-, rfl⟩ := append_cons_inj hname hname' heq
    exact hclean
  · intro hclean
    exact hclean name rest rfl hname

/-- A property of headers that each line decides holds of all headers when all lines have it. -/
theorem forall_header_iff {raw : Bytes} {m : Message} {headEnd separator : ℕ}
    {P : Bytes → Prop} {Q : Bytes × Bytes → Prop} (h : parse raw = some m)
    (hb : headBounds raw = some (headEnd, separator))
    (hline : ∀ line header, LF ∉ line → parseField line = some header → (Q header ↔ P line)) :
    (∀ header ∈ m.headers, Q header) ↔ ∀ line ∈ fieldLines (raw.take headEnd), P line := by
  obtain ⟨_, _, _, _, _, headers, _, _, hb', -, -, -, -, -, hf, -, -, rfl⟩ :=
    (parse_eq_some_iff raw m).mp h
  obtain ⟨rfl, rfl⟩ := Prod.mk.inj (Option.some.inj (hb.symm.trans hb'))
  have hall := (parseFields_eq_some_iff _ _).mp hf
  change List.Forall₂ _ (fieldLines (raw.take headEnd)) headers at hall
  have hlf (line : Bytes) (hl : line ∈ fieldLines (raw.take headEnd)) := not_mem_fieldLines hl
  rw [Message.parseContentType_headers]
  change (∀ header ∈ headers, Q header) ↔ _
  generalize fieldLines (raw.take headEnd) = lines at hlf hall ⊢
  clear hf h
  induction hall with
  | nil => simp
  | cons hfield _ ih =>
    rw [List.forall_mem_cons, List.forall_mem_cons,
      hline _ _ (hlf _ List.mem_cons_self) hfield,
      ih fun line hl => hlf line (List.mem_cons_of_mem _ hl)]

/-- Request line and field names are always single lines. -/
theorem parse_request_line_unbroken {raw : Bytes} {m : Message} (h : parse raw = some m) :
    Unbroken m.method ∧ Unbroken m.target ∧ Unbroken m.version := by
  obtain ⟨_, _, method, target, version, headers, body, contentLength, -, -, -, -, -, hrl, -, -, -,
    rfl⟩ := (parse_eq_some_iff raw m).mp h
  obtain ⟨hmethod, htarget, hversion⟩ := parseRequestLine_valid hrl
  obtain ⟨type, params, heq⟩ := Message.parseContentType_eq
    { method, target, path := (splitTarget target).1, query := (splitTarget target).2, version,
      body, headers, contentLength }
  rw [heq]
  exact ⟨unbroken_of_isToken hmethod, unbroken_of_isValidTarget htarget,
    unbroken_of_isValidVersion hversion⟩

/-- The texts of an accepted request are single lines exactly when no header line holds a NUL
behind its colon, nor a CR with bytes other than blanks on both sides of it there. -/
theorem parse_single_line_iff (raw : Bytes) (m : Message) (headEnd separator : ℕ)
    (h : parse raw = some m) (hb : headBounds raw = some (headEnd, separator)) :
    SingleLineHead m ↔ ∀ line ∈ fieldLines (raw.take headEnd), CleanFieldValue line := by
  obtain ⟨hmethod, htarget, hversion⟩ := parse_request_line_unbroken h
  rw [← forall_header_iff h hb fun line header => parseField_unbroken_iff]
  unfold SingleLineHead
  simp only [hmethod, htarget, hversion, true_and]

theorem parse_single_line_plain :
    ∃ m, parse (bytes "GET / HTTP/1.1\r\nHost: x\r\n\r\n") = some m ∧ SingleLineHead m := by
  have hm : (parse (bytes "GET / HTTP/1.1\r\nHost: x\r\n\r\n")).isSome = true := by decide
  obtain ⟨m, hm⟩ := Option.isSome_iff_exists.mp hm
  refine ⟨m, hm, (parse_single_line_iff _ m 23 4 hm (by decide)).mpr ?_⟩
  have hlines : fieldLines ((bytes "GET / HTTP/1.1\r\nHost: x\r\n\r\n").take 23) =
      [bytes "Host" ++ COLON :: bytes " x"] := by decide
  rw [hlines, List.forall_mem_singleton]
  intro name rest hline hcolon
  obtain ⟨-, rfl⟩ := append_cons_inj (by decide) hcolon hline
  rw [← cr_mem_trim_iff]
  decide

/-- A bare CR inside the value of `X` reaches the handler. -/
theorem bare_cr_accepted : ¬ ∀ m,
    parse (bytes "GET / HTTP/1.1\r\nHost: x\r\nX: a\rb: c\r\n\r\n") = some m →
      SingleLineHead m := by
  intro hall
  have hm : (parse (bytes "GET / HTTP/1.1\r\nHost: x\r\nX: a\rb: c\r\n\r\n")).any
      (fun m => m.headers.contains (bytes "X", bytes "a\rb: c")) = true := by decide
  obtain ⟨m, hm, hheader⟩ := (Option.any_eq_true _ _).mp hm
  have hunbroken := ((hall m hm).2.2.2 _ (List.contains_iff_mem.mp hheader)).2
  exact absurd hunbroken (by decide)

end Vermell.Http
