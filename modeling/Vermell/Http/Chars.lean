import Vermell.Text.Trim

/-! Bytes and the character-level helpers of the HTTP parser. A `char` is a byte, the C locale's
character classes are the ASCII ones, and `size_t` arithmetic is done in ℕ with its bound `npos`
wherever the source compares against it. -/
namespace Vermell.Http
open Text

abbrev Bytes := List UInt8

/-- The bytes of a string literal. -/
def bytes (s : String) : Bytes := s.toList.map fun c => c.toNat.toUInt8

def CR : UInt8 := 13
def LF : UInt8 := 10
def SP : UInt8 := 32
def HTAB : UInt8 := 9
def COLON : UInt8 := 58
def SEMICOLON : UInt8 := 59
def EQUALS : UInt8 := 61
def QUESTION : UInt8 := 63
def SLASH : UInt8 := 47
def DOT : UInt8 := 46
def QUOTE : UInt8 := 34

/-- `std::string_view::npos`, which is also the largest `size_t`. -/
def npos : ℕ := 2^64 - 1

theorem npos_pos : 0 < npos := by decide

def isDigit (c : UInt8) : Bool := 48 ≤ c && c ≤ 57
def isUpper (c : UInt8) : Bool := 65 ≤ c && c ≤ 90
def isLower (c : UInt8) : Bool := 97 ≤ c && c ≤ 122
def isAlnum (c : UInt8) : Bool := isDigit c || isUpper c || isLower c

def asciiLower (c : UInt8) : UInt8 := if isUpper c then c + 32 else c

def lower (s : Bytes) : Bytes := s.map asciiLower

def iequals (a b : Bytes) : Bool :=
  a.length == b.length && (a.zip b).all fun p => asciiLower p.1 == asciiLower p.2

/-- The set `" \t\r\n"` that `trim` removes at both ends. -/
def isBlank (c : UInt8) : Bool := c == SP || c == HTAB || c == CR || c == LF

def trim (s : Bytes) : Bytes := (s.dropWhile isBlank).rdropWhile isBlank

/-- `hex_value`, with `none` for its -1. -/
def hexValue (c : UInt8) : Option ℕ :=
  if isDigit c then some (c.toNat - 48)
  else if 97 ≤ c && c ≤ 102 then some (c.toNat - 97 + 10)
  else if 65 ≤ c && c ≤ 70 then some (c.toNat - 65 + 10)
  else none

/-- The number a run of decimal digits denotes. -/
def decimal (digits : Bytes) : ℕ := digits.foldl (fun n c => n*10 + (c.toNat - 48)) 0

/-- `std::from_chars` into a `size_t`: the number of the longest digit prefix with the text behind
it; `none` stands for its two errors, no digit at all and a value beyond `size_t`. -/
def fromChars (s : Bytes) : Option (ℕ × Bytes) :=
  let digits := s.takeWhile isDigit
  if digits = [] then none
  else if decimal digits > npos then none
  else some (decimal digits, s.dropWhile isDigit)

/-- RFC 9110 tchar. -/
def isTchar (c : UInt8) : Bool := isAlnum c || (bytes "!#$%&'*+-.^_`|~").contains c

def isToken (s : Bytes) : Bool := !s.isEmpty && s.all isTchar

def isValidTarget (target : Bytes) : Bool :=
  !target.isEmpty && target.all fun u => !(u ≤ 0x20 || u == 0x7f)

def isValidVersion (v : Bytes) : Bool :=
  v.length == 8 && (bytes "HTTP/").isPrefixOf v && isDigit (v.getD 5 0) && v.getD 6 0 == DOT
    && isDigit (v.getD 7 0)

/-- Removes one trailing CR, as every line of a head is treated once it is cut at LF. -/
def stripCr (line : Bytes) : Bytes := if line.getLast? = some CR then line.dropLast else line

theorem iequals_iff (a b : Bytes) : iequals a b = true ↔ lower a = lower b := by
  induction a generalizing b with
  | nil => cases b <;> simp [iequals, lower]
  | cons x a ih =>
    cases b with
    | nil => simp [iequals, lower]
    | cons y b =>
      have h := ih b
      simp only [iequals, lower, Bool.and_eq_true, beq_iff_eq] at h
      simp only [iequals, lower, List.length_cons, List.zip_cons_cons, List.all_cons,
        Bool.and_eq_true, beq_iff_eq, List.map_cons, List.cons.injEq, Nat.add_right_cancel_iff]
      tauto

theorem trim_eq_self {s : Bytes} (hhead : ∀ c, s.head? = some c → isBlank c = false)
    (hlast : ∀ c, s.getLast? = some c → isBlank c = false) : trim s = s := trim_self hhead hlast

theorem trim_ends (s : Bytes) : (∀ c, (trim s).head? = some c → isBlank c = false) ∧
    ∀ c, (trim s).getLast? = some c → isBlank c = false := trimmed_ends isBlank s

theorem trim_trim (s : Bytes) : trim (trim s) = trim s :=
  trim_eq_self (trim_ends s).1 (trim_ends s).2

theorem stripCr_append (l : Bytes) {t : Bytes} (ht : t ≠ []) :
    stripCr (l ++ t) = l ++ stripCr t := by
  unfold stripCr
  rw [List.getLast?_append_of_ne_nil _ ht, List.dropLast_append_of_ne_nil ht]
  split_ifs <;> rfl

theorem stripCr_stop {c : UInt8} (hc : c ≠ CR) (l s : Bytes) :
    stripCr (l ++ c :: s) = l ++ c :: stripCr s := by
  rw [stripCr_append l (List.cons_ne_nil c s)]
  cases s with
  | nil => simp [stripCr, hc]
  | cons d s =>
    rw [← List.singleton_append, stripCr_append [c] (List.cons_ne_nil d s), List.singleton_append]

end Vermell.Http
