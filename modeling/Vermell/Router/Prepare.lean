import Vermell.Http.HeadFields
import Vermell.Json.Value

/-! `utility_t`: the wire response for a body, a type and the header block of a handler. -/
namespace Vermell.Router
open Http Text

/-- `http::WireResponse` -/
structure WireResponse where
  head : Bytes := []
  body : Bytes := []
  deriving DecidableEq, Repr

/-- What the callers of `Response` hand to the socket. -/
def wire (r : Response) : WireResponse := ⟨r.head, r.body⟩

/-- One line of the block, `Name: value` with one space and a CR at the end dropped. -/
def applyHeaderLine (response : Response) (line : Bytes) : Response :=
  match line.idxOf? COLON with
  | none => response
  | some colon =>
    if colon > 0 then
      let value := line.drop (colon + 1)
      let value := if value.head? = some SP then value.tail else value
      response.set (line.take colon) (stripCr value)
    else response

/-- `apply_headers`. Behind the last LF the loop may stop short of an empty line, which would have
no colon and so change nothing. -/
def applyHeaders (response : Response) (headers : Bytes) : Response :=
  (headers.splitOn LF).foldl applyHeaderLine response

/-- The response that `prepare` sends. -/
def prepared (body type headers : Bytes) (status : ℤ) : Response :=
  (applyHeaders ((({} : Response).status status).type type) headers).setBody body

def prepare (body type headers : Bytes) (status : ℤ) : WireResponse :=
  wire (prepared body type headers status)

/-- One turn of the loop of `json_escape`, which switches on a signed `char`. -/
def jsonEscapeChar (ch : Int8) : Bytes :=
  if ch = 34 then bytes "\\\""
  else if ch = 92 then bytes "\\\\"
  else if ch = 8 then bytes "\\b"
  else if ch = 12 then bytes "\\f"
  else if ch = 10 then bytes "\\n"
  else if ch = 13 then bytes "\\r"
  else if ch = 9 then bytes "\\t"
  else
    let c := ch.toUInt8
    if c < 0x20 then
      bytes "\\u00" ++ [Json.HEX.getD (c >>> 4).toNat 0, Json.HEX.getD (c &&& 0x0F).toNat 0]
    else [c]

/-- `json_escape` -/
def jsonEscape (text : Bytes) : Bytes := text.flatMap fun c => jsonEscapeChar c.toInt8

/-- `static_cast<int>` of the seconds, a `double` there. Outside the range of `int` the language
leaves the cast undefined, and x86-64 gives the least `int`. -/
def castInt (seconds : ℤ) : ℤ := if -2^31 ≤ seconds ∧ seconds < 2^31 then seconds else -2^31

/-- `guard_route` -/
def guardRoute (seconds : ℤ) (msg : Bytes) : WireResponse :=
  let text := if msg ≠ [] then jsonEscape msg
    else bytes "wait, this route has a " ++ toCharsInt (castInt seconds) ++ bytes " second cooldown"
  prepare (bytes "\x7b\"message\":\"" ++ text ++ bytes "\"\x7d") (bytes "application/json") [] 401

/-- The header that a line sets: its sanitized name and value. -/
def entryOf (line : Bytes) : Option (Bytes × Bytes) :=
  match line.idxOf? COLON with
  | none => none
  | some colon =>
    if sanitize (line.take colon) = [] then none
    else
      let value := line.drop (colon + 1)
      let value := if value.head? = some SP then value.tail else value
      some (sanitize (line.take colon), sanitize (stripCr value))

/-- The headers that a block sets, in order. -/
def blockEntries (headers : Bytes) : List (Bytes × Bytes) := (headers.splitOn LF).filterMap entryOf

theorem applyHeaderLine_eq (r : Response) (line : Bytes) : applyHeaderLine r line =
    { r with headers := Assoc.putAll lower (entryOf line).toList r.headers } := by
  unfold applyHeaderLine entryOf
  cases line.idxOf? COLON with
  | none => rfl
  | some colon =>
    by_cases hcolon : colon > 0
    · by_cases hname : sanitize (line.take colon) = []
      · simp [hcolon, Response.set, hname, Assoc.putAll]
      · simp [hcolon, Response.set, hname, Assoc.putAll, setHeader_eq]
    · have hzero : colon = 0 := by omega
      simp [hzero, sanitize, Assoc.putAll]

/-- Applying a block files its entries one after the other. -/
theorem applyHeaders_eq (r : Response) (headers : Bytes) : applyHeaders r headers =
    { r with headers := Assoc.putAll lower (blockEntries headers) r.headers } := by
  unfold applyHeaders blockEntries
  induction headers.splitOn LF generalizing r with
  | nil => rfl
  | cons line rest ih =>
    rw [List.foldl_cons, ih, applyHeaderLine_eq]
    cases h : entryOf line <;> simp [Assoc.putAll, h]

theorem prepared_headers (body type headers : Bytes) (status : ℤ) :
    (prepared body type headers status).headers = Assoc.putAll lower (blockEntries headers)
      [(bytes "Content-Type", sanitize type)] := by
  have htype : ((({} : Response).status status).type type).headers =
      [(bytes "Content-Type", sanitize type)] := by
    have hname : sanitize (bytes "Content-Type") = bytes "Content-Type" := by decide
    have hne : bytes "Content-Type" ≠ [] := by decide
    simp [Response.type, Response.set, Response.status, hname, hne, setHeader]
  simp only [prepared, Response.setBody, applyHeaders_eq, htype]

theorem entryOf_clean {line name value : Bytes} (h : entryOf line = some (name, value)) :
    name ≠ [] ∧ Clean name ∧ COLON ∉ name := by
  unfold entryOf at h
  cases hcolon : line.idxOf? COLON with
  | none => simp [hcolon] at h
  | some colon =>
    simp only [hcolon] at h
    split_ifs at h with hname
    all_goals
      obtain ⟨rfl, -⟩ := Prod.mk.inj (Option.some.inj h)
      exact ⟨hname, clean_sanitize _, Response.not_mem_sanitize (not_mem_take_of_idxOf? hcolon)⟩

/-- A line that is written as a header sets that header. -/
theorem entryOf_header {name value : Bytes} (hne : name ≠ []) (hname : Clean name)
    (hcolon : COLON ∉ name) (hvalue : Clean value) (hsp : value.head? ≠ some SP) :
    entryOf (name ++ COLON :: value) = some (name, value) := by
  have hdrop : (name ++ COLON :: value).drop (name.length + 1) = value := by simp
  have hcr : stripCr value = value := if_neg fun hlast => hvalue.cr (List.mem_of_getLast? hlast)
  simp only [entryOf, idxOf?_append_cons hcolon, List.take_left, hname.sanitize, if_neg hne, hdrop,
    if_neg hsp, hcr, hvalue.sanitize]

/-- A header line is left alone, or sets a header whose name has no colon. -/
theorem applyHeaderLine_cases (r : Response) (line : Bytes) :
    applyHeaderLine r line = r ∨
      ∃ name value, COLON ∉ name ∧ applyHeaderLine r line = r.set name value := by
  unfold applyHeaderLine
  cases h : line.idxOf? COLON with
  | none => exact Or.inl rfl
  | some colon =>
    by_cases hcolon : colon > 0
    · exact Or.inr ⟨_, _, not_mem_take_of_idxOf? h, if_pos hcolon⟩
    · exact Or.inl (if_neg hcolon)

theorem sound_applyHeaders {r : Response} (h : r.Sound) (headers : Bytes) :
    (applyHeaders r headers).Sound := by
  unfold applyHeaders
  induction headers.splitOn LF generalizing r with
  | nil => exact h
  | cons line rest ih =>
    refine ih ?_
    rcases applyHeaderLine_cases r line with heq | ⟨name, value, -, heq⟩
    · rwa [heq]
    · rw [heq]
      exact h.set name value

theorem names_applyHeaders {r : Response} (h : ∀ f ∈ r.headers, COLON ∉ f.1) (headers : Bytes) :
    ∀ f ∈ (applyHeaders r headers).headers, COLON ∉ f.1 := by
  unfold applyHeaders
  induction headers.splitOn LF generalizing r with
  | nil => exact h
  | cons line rest ih =>
    refine ih ?_
    rcases applyHeaderLine_cases r line with heq | ⟨name, value, hname, heq⟩
    · rwa [heq]
    · rw [heq]
      exact Response.names_set (P := fun n => COLON ∉ n) h
        (fun _ => Response.not_mem_sanitize hname) value

theorem legible_prepared (body type headers : Bytes) (status : ℤ) :
    (prepared body type headers status).Legible where
  sound := by
    have hfresh : ((({} : Response).status status).type type).Sound :=
      (Response.Sound.apply Response.sound_fresh (.status status)).apply (.type type)
    exact (sound_applyHeaders hfresh headers).apply (.body body)
  colon := by
    have hfresh : ∀ f ∈ ((({} : Response).status status).type type).headers, COLON ∉ f.1 :=
      Response.names_set (P := fun n => COLON ∉ n) (by simp [Response.status]) (fun _ => by decide)
        type
    exact names_applyHeaders hfresh headers

end Vermell.Router
