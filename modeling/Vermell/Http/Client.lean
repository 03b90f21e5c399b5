import Vermell.Http.FieldGrammar
import Vermell.Http.HeadFields

/-! A client that reads responses off a connection: a head up to its blank line, the status code and
the fields in it, and the body by its length. -/
namespace Vermell.Http
open Text

/-- A response as a client reads it. -/
structure Reply where
  code : ℕ
  fields : List (Bytes × Bytes)
  body : Bytes
  deriving DecidableEq, Repr

namespace Reply

/-- Three digits between the version and the phrase. -/
def readCode (line : Bytes) : Option ℕ :=
  let digits := (line.drop 9).take 3
  if bytes "HTTP/1.1 " <+: line ∧ digits.length = 3 ∧ digits.all isDigit ∧ line.getD 12 0 = SP then
    some (decimal digits)
  else none

/-- A token up to the colon, and the value without the blanks around it. -/
def readField (line : Bytes) : Option (Bytes × Bytes) :=
  match line.idxOf? COLON with
  | none => none
  | some colon =>
    if isToken (line.take colon) then some (line.take colon, trim (line.drop (colon + 1)))
    else none

def readHead : List Bytes → Option (ℕ × List (Bytes × Bytes))
  | [] => none
  | status :: lines => do
    let code ← readCode status
    let fields ← lines.mapM readField
    return (code, fields)

/-- The values of the fields of one name. -/
def values (name : Bytes) (fields : List (Bytes × Bytes)) : List Bytes :=
  (Assoc.under lower (lower name) fields).map Prod.snd

/-- How many bytes of body follow the head. A body in a transfer coding, and one that only the close
of the connection would end, are not read. -/
def bodyLength (headOnly : Bool) (code : ℕ) (fields : List (Bytes × Bytes)) : Option ℕ :=
  if headOnly ∨ code < 200 ∨ code = 204 ∨ code = 304 then some 0
  else if values (bytes "Transfer-Encoding") fields ≠ [] then none
  else
    match values (bytes "Content-Length") fields with
    | [v] => if v ≠ [] ∧ v.all isDigit then some (decimal v) else none
    | _ => none

/-- One response off the front of the stream. -/
def read (headOnly : Bool) (s : Bytes) : Option (Reply × Bytes) := do
  let pos ← find CRLFCRLF s
  let (code, fields) ← readHead (splitLines CR LF (s.take pos))
  let n ← bodyLength headOnly code fields
  let rest := s.drop (pos + 4)
  if n ≤ rest.length then return (⟨code, fields, rest.take n⟩, rest.drop n) else none

/-- One response for each request sent, of which the client knows whether it asked for the head
only. -/
def readAll : List Bool → Bytes → Option (List Reply × Bytes)
  | [], s => some ([], s)
  | headOnly :: more, s => do
    let (reply, s) ← read headOnly s
    let (replies, s) ← readAll more s
    return (reply :: replies, s)

/-- Texts that are read one by one are read behind each other. -/
theorem readAll_flatMap {α : Type*} {headOnly : α → Bool} {text : α → Bytes}
    {P : α → Reply → Prop} {items : List α} (h : ∀ x ∈ items, ∀ s, ∃ reply,
      read (headOnly x) (text x ++ s) = some (reply, s) ∧ P x reply) (s : Bytes) :
    ∃ replies, readAll (items.map headOnly) (items.flatMap text ++ s) = some (replies, s) ∧
      List.Forall₂ P items replies := by
  induction items with
  | nil => exact ⟨[], rfl, .nil⟩
  | cons x rest ih =>
    obtain ⟨hx, hrest⟩ := List.forall_mem_cons.mp h
    obtain ⟨replies, hall, hforall⟩ := ih hrest
    obtain ⟨reply, hread, hreply⟩ := hx (rest.flatMap text ++ s)
    refine ⟨reply :: replies, ?_, .cons hreply hforall⟩
    rw [List.map_cons, List.flatMap_cons, List.append_assoc, readAll, hread]
    simp [hall]

end Reply

/-- A field as a client reads it. -/
def trimmedField (f : Bytes × Bytes) : Bytes × Bytes := (f.1, trim f.2)

theorem toChars_three {n : ℕ} (hlow : 100 ≤ n) (hhigh : n ≤ 999) : (toChars n).length = 3 := by
  have hone := congrArg List.length (toChars_step (n := n) (by omega))
  have htwo := congrArg List.length (toChars_step (n := n / 10) (by omega))
  have hthree := congrArg List.length (toChars_digit (d := n / 10 / 10) (by omega))
  simp only [List.length_append, List.length_singleton] at hone htwo hthree
  omega

theorem isDirty_of_isTchar {c : UInt8} (h : isTchar c = true) : isDirty c = false := by
  have hall : ∀ n : Fin 256, isTchar (.ofNat n) = true → isDirty (.ofNat n) = false := by
    decide +kernel
  have hc := hall ⟨c.toNat, c.toNat_lt⟩
  rw [UInt8.ofNat_toNat] at hc
  exact hc h

theorem clean_of_isToken {s : Bytes} (h : isToken s = true) : Clean s :=
  fun c hc => isDirty_of_isTchar (((isToken_iff s).mp h).2 c hc)

namespace Reply

theorem readCode_statusLine {code : ℕ} (hlow : 100 ≤ code) (hhigh : code ≤ 999) :
    readCode (Response.statusLine code) = some code := by
  have hthree := toChars_three hlow hhigh
  have hchars : toCharsInt code = toChars code := if_neg (Int.not_lt.mpr (Int.natCast_nonneg code))
  have hline : Response.statusLine code =
      bytes "HTTP/1.1 " ++ (toChars code ++ SP :: reason code) := by
    rw [Response.statusLine, hchars, List.append_assoc]
  have hnine : (bytes "HTTP/1.1 ").length = 9 := by decide
  have hdigits : ((Response.statusLine code).drop 9).take 3 = toChars code := by
    rw [hline, List.drop_left' hnine, List.take_left' hthree]
  have hspace : (Response.statusLine code).getD 12 0 = SP := by
    rw [hline, List.getD_eq_getElem?_getD, List.getElem?_append_right (by omega), hnine,
      List.getElem?_append_right (by omega), hthree]
    rfl
  have hprefix : bytes "HTTP/1.1 " <+: Response.statusLine code :=
    ⟨toChars code ++ SP :: reason code, hline.symm⟩
  unfold readCode
  simp only [hdigits, hthree, hspace, hprefix, decimal_toChars, true_and, and_true]
  rw [if_pos (List.all_eq_true.mpr (toChars_digits code).2)]

theorem readField_fieldText {f : Bytes × Bytes} (h : isToken f.1 = true) :
    readField (fieldText f) = some (trimmedField f) := by
  have hsplit : fieldText f = f.1 ++ COLON :: SP :: f.2 := by
    rw [fieldText, List.append_assoc]
    rfl
  have hdrop : (f.1 ++ COLON :: SP :: f.2).drop (f.1.length + 1) = SP :: f.2 := by simp
  have htrim : trim (SP :: f.2) = trim f.2 := rfl
  simp only [readField, hsplit, idxOf?_append_cons (isToken_no_colon h), List.take_left, h, hdrop,
    htrim, if_true]
  rfl

theorem mapM_readField {fields : List (Bytes × Bytes)} (h : ∀ f ∈ fields, isToken f.1 = true) :
    (fields.map fieldText).mapM readField = some (fields.map trimmedField) := by
  induction fields with
  | nil => rfl
  | cons f rest ih =>
    obtain ⟨hf, hrest⟩ := List.forall_mem_cons.mp h
    simp [readField_fieldText hf, ih hrest]

variable {code : ℕ} {fields : List (Bytes × Bytes)}

/-- A client takes a head and a body of the length that it works out, and leaves what follows. -/
theorem read_headText {headOnly : Bool} (hcode : 100 ≤ code ∧ code ≤ 999)
    (hfields : ∀ f ∈ fields, isToken f.1 = true ∧ Clean f.2) {body : Bytes}
    (hbody : bodyLength headOnly code (fields.map trimmedField) = some body.length) (s : Bytes) :
    read headOnly (headText (Response.statusLine code) fields ++ body ++ s) =
      some (⟨code, fields.map trimmedField, body⟩, s) := by
  set lines := Response.statusLine code :: fields.map fieldText
  have hlines : ∀ line ∈ lines, line ≠ [] ∧ Clean line := by
    refine List.forall_mem_cons.mpr ⟨⟨by simp [Response.statusLine], clean_statusLine _⟩, ?_⟩
    intro line hline
    obtain ⟨f, hf, rfl⟩ := List.mem_map.mp hline
    obtain ⟨htoken, hclean⟩ := hfields f hf
    exact ⟨fieldText_ne_nil f, clean_fieldText ⟨clean_of_isToken htoken, hclean⟩⟩
  have hfree : ∀ line ∈ lines, CR ∉ line := fun line hline => (hlines line hline).2.cr
  have htext : headText (Response.statusLine code) fields ++ body ++ s =
      List.intercalate [CR, LF] lines ++ (CRLFCRLF ++ (body ++ s)) := by
    rw [headText_eq, joinLines_append, joinLines_eq_intercalate (List.cons_ne_nil _ _)]
    simp [CRLFCRLF, lines]
  have hfind : find CRLFCRLF (List.intercalate [CR, LF] lines ++ (CRLFCRLF ++ (body ++ s))) =
      some (List.intercalate [CR, LF] lines).length :=
    find_blank_line (by decide) (List.cons_ne_nil _ _) hfree
      (fun line hline => (hlines line hline).1) (body ++ s)
  have hrest : (List.intercalate [CR, LF] lines ++ (CRLFCRLF ++ (body ++ s))).drop
      ((List.intercalate [CR, LF] lines).length + 4) = body ++ s := by
    rw [← List.append_assoc]
    exact List.drop_left' (by simp [CRLFCRLF])
  have hhead : readHead lines = some (code, fields.map trimmedField) := by
    simp [lines, readHead, readCode_statusLine hcode.1 hcode.2,
      mapM_readField fun f hf => (hfields f hf).1]
  have hsplit : splitLines CR LF (List.intercalate [CR, LF] lines) = lines :=
    splitLines_intercalate (List.cons_ne_nil _ _) hfree
  rw [htext]
  simp only [read, hfind, Option.bind_eq_bind, Option.bind_some, List.take_left, hsplit, hhead,
    hbody, hrest]
  simp

end Reply
end Vermell.Http
