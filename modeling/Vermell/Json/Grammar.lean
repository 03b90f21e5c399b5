import Vermell.Json.Parser

/-! The RFC 8259 grammar, production by production, and the tree that a JSON text denotes. It is
stated without the parser; only the conversion of numbers to doubles is the library's. -/
namespace Vermell.Json
open Http Text

/-- `ws` -/
def Blanks (w : Bytes) : Prop := ∀ c ∈ w, isWs c = true

/-- One digit or more. -/
def Digits (w : Bytes) : Prop := w ≠ [] ∧ ∀ c ∈ w, isDigit c = true

/-- `[ minus ]` -/
def Sign (w : Bytes) : Prop := w = [] ∨ w = [MINUS]

/-- `[ frac ]` -/
def Fraction (w : Bytes) : Prop := w = [] ∨ ∃ ds, w = DOT :: ds ∧ Digits ds

/-- `[ exp ]` -/
def Exponent (w : Bytes) : Prop :=
  w = [] ∨ ∃ e sign ds, w = e :: sign ++ ds ∧ (e = 101 ∨ e = 69) ∧
    (sign = [] ∨ sign = [PLUS] ∨ sign = [MINUS]) ∧ Digits ds

/-- `number = [ minus ] int [ frac ] [ exp ]` -/
inductive NumberToken : Bytes → Prop
  | mk {sign int frac exp} : Sign sign → IntPart int → Fraction frac → Exponent exp →
      NumberToken (sign ++ int ++ frac ++ exp)

/-- A number without fraction and exponent, and the integer it denotes. -/
inductive IntegerToken : Bytes → ℤ → Prop
  | positive {int} : IntPart int → IntegerToken int (decimal int)
  | negative {int} : IntPart int → IntegerToken (MINUS :: int) (-decimal int)

/-- The integers that an `int64_t` holds. -/
def InInt64 (z : ℤ) : Prop := -2^63 ≤ z ∧ z < 2^63

/-- `%x75 4HEXDIG` without its `u`: the four digits and their value. -/
def Hex4 (w : Bytes) (n : ℕ) : Prop := w.length = 4 ∧ hexNumeral w = some n

def IsHighSurrogate (n : ℕ) : Prop := 0xD800 ≤ n ∧ n ≤ 0xDBFF
def IsLowSurrogate (n : ℕ) : Prop := 0xDC00 ≤ n ∧ n ≤ 0xDFFF

/-- The bytes that the two-character escapes denote. -/
def escapes : List (UInt8 × UInt8) :=
  [(QUOTE, QUOTE), (BACKSLASH, BACKSLASH), (SLASH, SLASH), (98, 8), (102, 12), (110, 10),
    (114, 13), (116, 9)]

/-- `char`, and the bytes it denotes. -/
inductive Character : Bytes → Bytes → Prop
  | plain {c} : 0x20 ≤ c → c ≠ QUOTE → c ≠ BACKSLASH → Character [c] [c]
  | escape {e c} : (e, c) ∈ escapes → Character [BACKSLASH, e] [c]
  | unicode {h n} : Hex4 h n → ¬IsHighSurrogate n → ¬IsLowSurrogate n →
      Character (BACKSLASH :: LETTER_U :: h) (String.utf8EncodeChar (Char.ofNat n))
  | pair {h high l low} : Hex4 h high → IsHighSurrogate high → Hex4 l low → IsLowSurrogate low →
      Character (BACKSLASH :: LETTER_U :: h ++ BACKSLASH :: LETTER_U :: l)
        (String.utf8EncodeChar (Char.ofNat (0x10000 + (high - 0xD800)*0x400 + (low - 0xDC00))))

/-- `string = quotation-mark *char quotation-mark` -/
inductive StringToken : Bytes → Bytes → Prop
  | mk {w xs} : Repeated Character w xs → StringToken (QUOTE :: w ++ [QUOTE]) xs.flatten

/-- `member = string name-separator value` -/
inductive Member {α : Type} (L : Bytes → α → Prop) : Bytes → Bytes × α → Prop
  | mk {k key a b w x} : StringToken k key → Blanks a → Blanks b → L w x →
      Member L (k ++ a ++ COLON :: b ++ w) (key, x)

section
variable {δ : Type} (lib : Doubles δ)

/-- A number denotes an integer where it is one in range, else the double it converts to. -/
inductive Number : Bytes → Json δ → Prop
  | int {w} {v : Int64} : IntegerToken w v.toInt → Number w (.int v)
  | double {w d} : NumberToken w → (∀ z, IntegerToken w z → ¬InInt64 z) →
      lib.fromChars w = some (d, []) → lib.isFinite d = true → Number w (.double d)

/-- `value = false / null / true / object / array / number / string`, over the language of the
values inside it. -/
inductive Production (L : Bytes → Json δ → Prop) : Bytes → Json δ → Prop
  | null : Production L (bytes "null") .null
  | true : Production L (bytes "true") (.bool true)
  | false : Production L (bytes "false") (.bool false)
  | number {w j} : Number lib w j → Production L w j
  | string {w text} : StringToken w text → Production L w (.string text)
  | array {w items} : Delimited isWs COMMA RBRACKET L w items →
      Production L (LBRACKET :: w) (.array items)
  | object {w members} : Delimited isWs COMMA RBRACE (Member L) w members →
      Production L (LBRACE :: w) (.object members)

/-- `value`, and the tree it denotes. -/
inductive Value : Bytes → Json δ → Prop
  | mk {w j} : Production lib Value w j → Value w j

/-- `JSON-text = ws value ws` -/
inductive JsonText : Bytes → Json δ → Prop
  | mk {a w b j} : Blanks a → Value lib w j → Blanks b → JsonText (a ++ w ++ b) j

end
end Vermell.Json
