import Vermell.Http.Numerals

/-! `vermell::Json`: the tree and its serialization. Doubles and their conversions to and from text
are the standard library's, and a parameter here. -/
namespace Vermell
open Http

/-- A `vermell::Json` value. Members keep their order, and a key may occur again. -/
inductive Json (δ : Type)
  | null
  | bool (b : Bool)
  | int (v : Int64)
  | double (d : δ)
  | string (text : Bytes)
  | array (items : List (Json δ))
  | object (members : List (Bytes × Json δ))

/-- What `<charconv>` and `<cmath>` do with doubles: `to_chars` into the buffer of 32 bytes,
`from_chars` with the text behind the number, and `isfinite`. -/
structure Doubles (δ : Type) where
  toChars : δ → Option Bytes
  fromChars : Bytes → Option (δ × Bytes)
  isFinite : δ → Bool

namespace Json

def BACKSLASH : UInt8 := 92
def COMMA : UInt8 := 44
def ZERO : UInt8 := 48
def LBRACKET : UInt8 := 91
def RBRACKET : UInt8 := 93
def LBRACE : UInt8 := 123
def RBRACE : UInt8 := 125

def HEX : Bytes := bytes "0123456789abcdef"

/-- The bytes that one byte of a string becomes. -/
def escapeChar (c : UInt8) : Bytes :=
  if c = QUOTE then [BACKSLASH, QUOTE]
  else if c = BACKSLASH then [BACKSLASH, BACKSLASH]
  else if c = 8 then bytes "\\b"
  else if c = 12 then bytes "\\f"
  else if c = 10 then bytes "\\n"
  else if c = 13 then bytes "\\r"
  else if c = 9 then bytes "\\t"
  else if c < 0x20 then
    bytes "\\u00" ++ [HEX.getD (c >>> 4).toNat 0, HEX.getD (c &&& 0x0F).toNat 0]
  else [c]

def escapeString (text : Bytes) : Bytes := QUOTE :: text.flatMap escapeChar ++ [QUOTE]

variable {δ : Type} (lib : Doubles δ)

mutual

/-- `dump_to` on an empty buffer, which is `dump`. -/
def dump : Json δ → Bytes
  | .null => bytes "null"
  | .bool b => if b then bytes "true" else bytes "false"
  | .int v => toCharsInt v.toInt
  | .double d => if lib.isFinite d then (lib.toChars d).getD (bytes "null") else bytes "null"
  | .string text => escapeString text
  | .array items => LBRACKET :: dumpItems true items ++ [RBRACKET]
  | .object members => LBRACE :: dumpMembers true members ++ [RBRACE]

def dumpItems : Bool → List (Json δ) → Bytes
  | _, [] => []
  | first, item :: rest =>
    (if first then [] else [COMMA]) ++ dump item ++ dumpItems false rest

def dumpMembers : Bool → List (Bytes × Json δ) → Bytes
  | _, [] => []
  | first, (key, item) :: rest =>
    (if first then [] else [COMMA]) ++ escapeString key ++ COLON :: dump item
      ++ dumpMembers false rest

end

mutual

/-- The number of containers around the value in the tree that has most of them. -/
def enclosure : Json δ → ℕ
  | .null => 0
  | .bool _ => 0
  | .int _ => 0
  | .double _ => 0
  | .string _ => 0
  | .array items => itemsEnclosure items
  | .object members => membersEnclosure members

def itemsEnclosure : List (Json δ) → ℕ
  | [] => 0
  | item :: rest => max (enclosure item + 1) (itemsEnclosure rest)

def membersEnclosure : List (Bytes × Json δ) → ℕ
  | [] => 0
  | (_, item) :: rest => max (enclosure item + 1) (membersEnclosure rest)

end

mutual

/-- No double occurs in the tree. -/
def doubleFree : Json δ → Bool
  | .null => true
  | .bool _ => true
  | .int _ => true
  | .double _ => false
  | .string _ => true
  | .array items => itemsDoubleFree items
  | .object members => membersDoubleFree members

def itemsDoubleFree : List (Json δ) → Bool
  | [] => true
  | item :: rest => doubleFree item && itemsDoubleFree rest

def membersDoubleFree : List (Bytes × Json δ) → Bool
  | [] => true
  | (_, item) :: rest => doubleFree item && membersDoubleFree rest

end

theorem itemsEnclosure_le_iff (items : List (Json δ)) (n : ℕ) :
    itemsEnclosure items ≤ n ↔ ∀ j ∈ items, enclosure j < n := by
  induction items with
  | nil => simp [itemsEnclosure]
  | cons item rest ih =>
    rw [itemsEnclosure, max_le_iff, ih, List.forall_mem_cons]
    rfl

theorem membersEnclosure_le_iff (members : List (Bytes × Json δ)) (n : ℕ) :
    membersEnclosure members ≤ n ↔ ∀ m ∈ members, enclosure m.2 < n := by
  induction members with
  | nil => simp [membersEnclosure]
  | cons m rest ih =>
    rw [membersEnclosure, max_le_iff, ih, List.forall_mem_cons]
    rfl

end Json
end Vermell
