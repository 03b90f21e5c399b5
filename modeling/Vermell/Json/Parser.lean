import Vermell.Json.Value
import Vermell.Text.Reader

/-! `detail::JsonParser`. The cursor is what is left of `src_` at `pos_`; each function returns the
cursor behind what it read, and `none` where the source returns `std::nullopt`. -/
namespace Vermell.Json
open Http Text

def MAX_DEPTH : ℕ := 256

def PLUS : UInt8 := 43
/-- The letter behind the backslash of a `\uXXXX` escape. -/
def LETTER_U : UInt8 := 117

def isWs (c : UInt8) : Bool := c == SP || c == HTAB || c == LF || c == CR

/-- The next byte, NUL at the end. -/
def peek (s : Bytes) : UInt8 := s.headD 0

def atDigit (s : Bytes) : Bool := isDigit (peek s)

def skipWs (s : Bytes) : Bytes := s.dropWhile isWs

/-- The loops `while (at_digit()) ++pos_`. -/
def skipDigits (s : Bytes) : Bytes := s.dropWhile isDigit

def consume (c : UInt8) (s : Bytes) : Option Bytes := if peek s = c then some s.tail else none

def consumeLit (lit s : Bytes) : Option Bytes :=
  if s.take lit.length = lit then some (s.drop lit.length) else none

def parseHex4 (s : Bytes) : Option (ℕ × Bytes) :=
  if s.length < 4 then none else (hexNumeral (s.take 4)).map fun v => (v, s.drop 4)

/-- `\uXXXX` behind its `u`, joined with a low surrogate where it is a high one. -/
def parseCodepoint (s : Bytes) : Option (ℕ × Bytes) :=
  match parseHex4 s with
  | none => none
  | some (cp, s) =>
    if 0xD800 ≤ cp ∧ cp ≤ 0xDBFF then
      if s.take 2 ≠ [BACKSLASH, LETTER_U] then none
      else
        match parseHex4 (s.drop 2) with
        | none => none
        | some (low, s) =>
          if low < 0xDC00 ∨ low > 0xDFFF then none
          else some (0x10000 + ((cp - 0xD800) <<< 10) + (low - 0xDC00), s)
    else if 0xDC00 ≤ cp ∧ cp ≤ 0xDFFF then none
    else some (cp, s)

def encodeUtf8 (cp : ℕ) : Bytes :=
  if cp < 0x80 then [cp.toUInt8]
  else if cp < 0x800 then [(0xC0 ||| (cp >>> 6)).toUInt8, (0x80 ||| (cp &&& 0x3F)).toUInt8]
  else if cp < 0x10000 then
    [(0xE0 ||| (cp >>> 12)).toUInt8, (0x80 ||| ((cp >>> 6) &&& 0x3F)).toUInt8,
      (0x80 ||| (cp &&& 0x3F)).toUInt8]
  else
    [(0xF0 ||| (cp >>> 18)).toUInt8, (0x80 ||| ((cp >>> 12) &&& 0x3F)).toUInt8,
      (0x80 ||| ((cp >>> 6) &&& 0x3F)).toUInt8, (0x80 ||| (cp &&& 0x3F)).toUInt8]

/-- What stands behind a backslash. -/
def parseEscape : Reader UInt8 Bytes
  | [] => none
  | c :: s =>
    if c = QUOTE then some ([QUOTE], s)
    else if c = BACKSLASH then some ([BACKSLASH], s)
    else if c = SLASH then some ([SLASH], s)
    else if c = 98 then some ([8], s)
    else if c = 102 then some ([12], s)
    else if c = 110 then some ([10], s)
    else if c = 114 then some ([13], s)
    else if c = 116 then some ([9], s)
    else if c = LETTER_U then (parseCodepoint s).map fun x => (encodeUtf8 x.1, x.2)
    else none

/-- One turn of the loop of `parse_string`, away from the closing quote. -/
def parseChar : Reader UInt8 Bytes
  | [] => none
  | c :: s =>
    if c = BACKSLASH then parseEscape s
    else if c < 0x20 then none
    else some ([c], s)

def parseString (s : Bytes) : Option (Bytes × Bytes) :=
  match consume QUOTE s with
  | none => none
  | some s => (readUntil QUOTE parseChar (s.length + 1) s).map fun x => (x.1.flatten, x.2)

/-- The sign and the integer part of a number. -/
def parseInteger (s : Bytes) : Option Bytes :=
  let s := (consume MINUS s).getD s
  match consume ZERO s with
  | some s => if atDigit s then none else some s
  | none => if atDigit s then some (skipDigits s) else none

/-- The fraction, if there is one, and whether there is. -/
def parseFraction (s : Bytes) : Option (Bool × Bytes) :=
  match consume DOT s with
  | none => some (false, s)
  | some s => if atDigit s then some (true, skipDigits s) else none

def skipSign (s : Bytes) : Bytes := if peek s = PLUS ∨ peek s = MINUS then s.tail else s

/-- The exponent, if there is one, and whether there is. -/
def parseExponent (s : Bytes) : Option (Bool × Bytes) :=
  if peek s = 101 ∨ peek s = 69 then
    if atDigit (skipSign s.tail) then some (true, skipDigits (skipSign s.tail)) else none
  else some (false, s)

/-- `std::from_chars` into an `int64_t`, whose end the parser does not look at. -/
def int64FromChars (token : Bytes) : Option Int64 :=
  let negative := peek token = MINUS
  let digits := (if negative then token.tail else token).takeWhile isDigit
  let v : ℤ := if negative then -(decimal digits : ℤ) else decimal digits
  if digits = [] then none
  else if -2^63 ≤ v ∧ v < 2^63 then some (Int64.ofInt v)
  else none

section
variable {δ : Type} (lib : Doubles δ)

/-- An integer that fits is one; any other number has to be a finite double. -/
def convertNumber (real : Bool) (token : Bytes) : Option (Json δ) :=
  match if real then none else int64FromChars token with
  | some v => some (.int v)
  | none =>
    match lib.fromChars token with
    | none => none
    | some (d, rest) => if rest ≠ [] ∨ !lib.isFinite d then none else some (.double d)

def parseNumber (s : Bytes) : Option (Json δ × Bytes) := do
  let t ← parseInteger s
  let (fraction, t) ← parseFraction t
  let (exponent, t) ← parseExponent t
  let v ← convertNumber lib (fraction || exponent) (s.take (s.length - t.length))
  return (v, t)

/-- `parse_array`, with the reader of its items. -/
def parseArray (value : Reader UInt8 (Json δ)) (s : Bytes) : Option (Json δ × Bytes) :=
  (readDelimited isWs COMMA RBRACKET value s.tail).map fun x => (.array x.1, x.2)

/-- One turn of the loop of `parse_object`: a key, a colon and a value. -/
def parseMember (value : Reader UInt8 (Json δ)) (s : Bytes) :
    Option ((Bytes × Json δ) × Bytes) := do
  guard (peek s = QUOTE)
  let (key, s) ← parseString s
  let s ← consume COLON (skipWs s)
  let (v, s) ← value (skipWs s)
  return ((key, v), s)

/-- `parse_object`, with the reader of its values. -/
def parseObject (value : Reader UInt8 (Json δ)) (s : Bytes) : Option (Json δ × Bytes) :=
  (readDelimited isWs COMMA RBRACE (parseMember value) s.tail).map fun x => (.object x.1, x.2)

/-- The `switch` of `parse_value`, with the reader of the values one level down. -/
def parseSwitch (value : Reader UInt8 (Json δ)) (s : Bytes) : Option (Json δ × Bytes) :=
  if peek s = 110 then (consumeLit (bytes "null") s).map fun s => (.null, s)
  else if peek s = 116 then (consumeLit (bytes "true") s).map fun s => (.bool true, s)
  else if peek s = 102 then (consumeLit (bytes "false") s).map fun s => (.bool false, s)
  else if peek s = QUOTE then (parseString s).map fun x => (.string x.1, x.2)
  else if peek s = LBRACKET then parseArray value s
  else if peek s = LBRACE then parseObject value s
  else parseNumber lib s

/-- A value that may hold this many levels of values, itself included. -/
def parseLevels : ℕ → Reader UInt8 (Json δ)
  | 0, _ => none
  | levels + 1, s => parseSwitch lib (parseLevels levels) s

/-- `parse_value` at a depth. -/
def parseValue (depth : ℕ) : Reader UInt8 (Json δ) := parseLevels lib (MAX_DEPTH + 1 - depth)

theorem parseValue_eq (depth : ℕ) (s : Bytes) : parseValue lib depth s =
    if depth > MAX_DEPTH then none else parseSwitch lib (parseValue lib (depth + 1)) s := by
  unfold parseValue
  split_ifs with h
  · rw [show MAX_DEPTH + 1 - depth = 0 by omega]
    rfl
  · rw [show MAX_DEPTH + 1 - depth = (MAX_DEPTH + 1 - (depth + 1)) + 1 by omega]
    rfl

/-- `run`: one value with whitespace around it, and nothing else. -/
def parse (text : Bytes) : Option (Json δ) :=
  match parseValue lib 0 (skipWs text) with
  | none => none
  | some (v, s) => if skipWs s ≠ [] then none else some v

end
end Vermell.Json
