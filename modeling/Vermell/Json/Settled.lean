import Vermell.Json.RoundTrip

/-! Trees with doubles on their way through `dump` and `parse`. A double whose text is that of an
integer comes back as one, a double that is not finite as `null`, and from then on nothing changes:
the tree has settled. Its text has too, but for negative zeros, which lose their sign. -/
namespace Vermell
open Http Text

/-- What `<charconv>` promises of a finite double: its shortest text fits the buffer, is a number
and reads back as that double. -/
structure Doubles.Lawful {δ : Type} (lib : Doubles δ) : Prop where
  exact_text : ∀ d, lib.isFinite d = true →
    ∃ w, lib.toChars d = some w ∧ Json.NumberToken w ∧ lib.fromChars w = some (d, [])

namespace Json

/-- The `int64_t` that a text without fraction and exponent stands for. -/
def integerOf (w : Bytes) : Option Int64 :=
  if w.all fun c => isDigit c || c == MINUS then int64FromChars w else none

def NEGATIVE_ZERO : Bytes := bytes "-0"

section
variable {δ : Type} (lib : Doubles δ)

/-- What a double comes back as. -/
def settleDouble (d : δ) : Json δ :=
  if lib.isFinite d then
    match (lib.toChars d).bind integerOf with
    | some v => .int v
    | none => .double d
  else .null

mutual

/-- What a tree comes back as. -/
def settle : Json δ → Json δ
  | .null => .null
  | .bool b => .bool b
  | .int v => .int v
  | .double d => settleDouble lib d
  | .string text => .string text
  | .array items => .array (settleItems items)
  | .object members => .object (settleMembers members)

def settleItems : List (Json δ) → List (Json δ)
  | [] => []
  | item :: rest => settle item :: settleItems rest

def settleMembers : List (Bytes × Json δ) → List (Bytes × Json δ)
  | [] => []
  | (key, item) :: rest => (key, settle item) :: settleMembers rest

end

mutual

/-- How many doubles of the tree are written as a negative zero. -/
def negativeZeros : Json δ → ℕ
  | .null => 0
  | .bool _ => 0
  | .int _ => 0
  | .double d => if lib.isFinite d ∧ lib.toChars d = some NEGATIVE_ZERO then 1 else 0
  | .string _ => 0
  | .array items => itemsNegativeZeros items
  | .object members => membersNegativeZeros members

def itemsNegativeZeros : List (Json δ) → ℕ
  | [] => 0
  | item :: rest => negativeZeros item + itemsNegativeZeros rest

def membersNegativeZeros : List (Bytes × Json δ) → ℕ
  | [] => 0
  | (_, item) :: rest => negativeZeros item + membersNegativeZeros rest

end

end

/-! The text of one double. -/

theorem NumberToken.integer_iff {w : Bytes} (h : NumberToken w) :
    (∃ z, IntegerToken w z) ↔ ∀ c ∈ w, isDigit c = true ∨ c = MINUS := by
  constructor
  · rintro ⟨z, hz⟩ c hc
    exact hz.mem hc
  · intro hall
    obtain ⟨real, htoken⟩ := (numberToken_iff w).mp h
    apply htoken.integer_iff.mpr
    cases htoken with
    | @mk sign int frac exp _ _ hfrac hexp =>
      rcases hfrac with rfl | ⟨ds, rfl, -⟩
      · rcases hexp with rfl | ⟨e, s, ds, rfl, he, -⟩
        · rfl
        · have hletter := hall e (by simp)
          rcases he with rfl | rfl <;> exact absurd hletter (by decide)
      · exact absurd (hall DOT (by simp)) (by decide)

/-- The text of an integer is the one that `dump` writes, but for the sign of a zero. -/
theorem IntegerToken.text_iff {w : Bytes} {z : ℤ} (h : IntegerToken w z) :
    (w = NEGATIVE_ZERO → toCharsInt z = [48]) ∧ (w ≠ NEGATIVE_ZERO → toCharsInt z = w) := by
  cases h with
  | positive hint =>
    have htext : toCharsInt (decimal w : ℤ) = w := by
      have hnonneg : ¬((decimal w : ℤ) < 0) := by omega
      rw [toCharsInt, if_neg hnonneg, Int.natAbs_natCast, toChars_decimal hint]
    refine ⟨?_, fun _ => htext⟩
    rintro rfl
    exact absurd (hint.digits.2 MINUS (by decide)) (by decide)
  | @negative int hint =>
    have hvalue := toChars_decimal hint
    by_cases hz : decimal int = 0
    · rw [hz] at hvalue
      obtain rfl : [48] = int := hvalue
      exact ⟨fun _ => rfl, fun hne => absurd rfl hne⟩
    · have htext : toCharsInt (-(decimal int : ℤ)) = MINUS :: int := by
        have hneg : -(decimal int : ℤ) < 0 := by omega
        rw [toCharsInt, if_pos hneg, Int.natAbs_neg, Int.natAbs_natCast, hvalue]
      refine ⟨?_, fun _ => htext⟩
      intro hw
      obtain rfl : int = [48] := (List.cons.inj hw).2
      exact absurd rfl hz

theorem integerOf_eq_some_iff {w : Bytes} (h : NumberToken w) (v : Int64) :
    integerOf w = some v ↔ IntegerToken w v.toInt := by
  have hall : (w.all fun c => isDigit c || c == MINUS) = true ↔ ∃ z, IntegerToken w z := by
    rw [h.integer_iff, List.all_eq_true]
    simp only [Bool.or_eq_true, beq_iff_eq]
  unfold integerOf
  constructor
  · intro hv
    split_ifs at hv with hchars
    obtain ⟨z, hz⟩ := hall.mp hchars
    rw [int64FromChars_token hz] at hv
    split_ifs at hv with hrange
    cases hv
    rwa [Int64.toInt_ofInt_of_le hrange.1 hrange.2]
  · intro hv
    rw [if_pos (hall.mpr ⟨_, hv⟩), int64FromChars_token hv, if_pos ⟨v.le_toInt, v.toInt_lt⟩,
      Int64.ofInt_toInt]

/-- The second text is the first one without this many bytes. -/
structure Shortens (a b : Bytes) (n : ℕ) : Prop where
  length : a.length = b.length + n
  same : n = 0 → b = a

theorem Shortens.refl (a : Bytes) : Shortens a a 0 := ⟨rfl, fun _ => rfl⟩

theorem Shortens.append {a b a' b' : Bytes} {n n' : ℕ} (h : Shortens a b n)
    (h' : Shortens a' b' n') : Shortens (a ++ a') (b ++ b') (n + n') := by
  constructor
  · rw [List.length_append, List.length_append, h.length, h'.length]
    omega
  · intro hsum
    rw [h.same (by omega), h'.same (by omega)]

theorem Shortens.same_iff {a b : Bytes} {n : ℕ} (h : Shortens a b n) : b = a ↔ n = 0 := by
  refine ⟨?_, h.same⟩
  intro heq
  have hlength := h.length
  rw [heq] at hlength
  omega

section
variable {δ : Type} {lib : Doubles δ} (hlib : lib.Lawful)
include hlib

/-- The text of a double denotes what the double comes back as. -/
theorem value_dump_double (d : δ) : Value lib (dump lib (.double d)) (settleDouble lib d) := by
  unfold dump settleDouble
  by_cases hfinite : lib.isFinite d = true
  · obtain ⟨w, hw, htoken, hback⟩ := hlib.exact_text d hfinite
    rw [if_pos hfinite, if_pos hfinite, hw, Option.getD_some, Option.bind_some]
    cases hinteger : integerOf w with
    | some v => exact ⟨.number (.int ((integerOf_eq_some_iff htoken v).mp hinteger))⟩
    | none =>
      refine ⟨.number (.double htoken ?_ hback hfinite)⟩
      intro z hz hrange
      have hv : (Int64.ofInt z).toInt = z := Int64.toInt_ofInt_of_le hrange.1 hrange.2
      rw [(integerOf_eq_some_iff htoken (Int64.ofInt z)).mpr (hv.symm ▸ hz)] at hinteger
      cases hinteger
  · rw [if_neg hfinite, if_neg hfinite]
    exact ⟨.null⟩

theorem shortens_double (d : δ) : Shortens (dump lib (.double d))
    (dump lib (settleDouble lib d)) (negativeZeros lib (.double d)) := by
  by_cases hfinite : lib.isFinite d = true
  · obtain ⟨w, hw, htoken, -⟩ := hlib.exact_text d hfinite
    have hdump : dump lib (.double d) = w := by simp [dump, hfinite, hw]
    cases hinteger : integerOf w with
    | some v =>
      have hsettle : settleDouble lib d = .int v := by simp [settleDouble, hfinite, hw, hinteger]
      obtain ⟨hzero, hother⟩ := ((integerOf_eq_some_iff htoken v).mp hinteger).text_iff
      rw [hdump, hsettle, dump]
      by_cases hsign : w = NEGATIVE_ZERO
      · have hone : negativeZeros lib (.double d) = 1 := by
          simp [negativeZeros, hfinite, hw, hsign]
        rw [hone, hzero hsign, hsign]
        exact ⟨rfl, fun h => absurd h (by decide)⟩
      · have hnone : negativeZeros lib (.double d) = 0 := by
          simp [negativeZeros, hw, hsign]
        rw [hnone, hother hsign]
        exact .refl w
    | none =>
      have hsettle : settleDouble lib d = .double d := by
        simp [settleDouble, hfinite, hw, hinteger]
      have hsign : w ≠ NEGATIVE_ZERO := by
        rintro rfl
        exact absurd hinteger (by decide)
      have hnone : negativeZeros lib (.double d) = 0 := by simp [negativeZeros, hw, hsign]
      rw [hsettle, hnone]
      exact .refl _
  · have hsettle : settleDouble lib d = .null := by simp [settleDouble, hfinite]
    have hnone : negativeZeros lib (.double d) = 0 := by simp [negativeZeros, hfinite]
    have hdump : dump lib (.double d) = bytes "null" := by simp [dump, hfinite]
    rw [hsettle, hnone, hdump, dump]
    exact .refl _

omit hlib in
theorem settle_settleDouble (d : δ) : settle lib (settleDouble lib d) = settleDouble lib d := by
  by_cases hfinite : lib.isFinite d = true
  · cases hinteger : (lib.toChars d).bind integerOf with
    | some v =>
      have hsettle : settleDouble lib d = .int v := by simp [settleDouble, hfinite, hinteger]
      rw [hsettle, settle]
    | none =>
      have hsettle : settleDouble lib d = .double d := by simp [settleDouble, hfinite, hinteger]
      rw [hsettle, settle, hsettle]
  · have hsettle : settleDouble lib d = .null := by simp [settleDouble, hfinite]
    rw [hsettle, settle]

omit hlib in
theorem enclosure_settleDouble (d : δ) : (settleDouble lib d).enclosure = 0 := by
  unfold settleDouble
  split_ifs
  · cases (lib.toChars d).bind integerOf <;> rfl
  · rfl

end

section
variable {δ : Type} (lib : Doubles δ)

theorem settleItems_eq (items : List (Json δ)) :
    settleItems lib items = items.map (settle lib) := by
  induction items with
  | nil => rfl
  | cons item rest ih => rw [settleItems, ih, List.map_cons]

theorem settleMembers_eq (members : List (Bytes × Json δ)) :
    settleMembers lib members = members.map fun m => (m.1, settle lib m.2) := by
  induction members with
  | nil => rfl
  | cons m rest ih => rw [settleMembers, ih, List.map_cons]

end

section
variable {δ : Type} {lib : Doubles δ}

mutual

/-- The serialization of any tree denotes the tree that it settles to. -/
theorem value_dump_settle (hlib : lib.Lawful) : ∀ j : Json δ, Value lib (dump lib j) (settle lib j)
  | .null => ⟨.null⟩
  | .bool true => ⟨.true⟩
  | .bool false => ⟨.false⟩
  | .int v => ⟨.number (.int (integerToken_toCharsInt v.toInt))⟩
  | .double d => value_dump_double hlib d
  | .string text => ⟨.string (stringToken_escapeString text)⟩
  | .array items => by
    have hitems := delimited_intercalate isWs COMMA RBRACKET (dump lib)
      (L := fun w j => Value lib w (settle lib j)) (values_settleItems hlib items)
    rw [settle, settleItems_eq, dump, dumpItems_eq]
    exact ⟨.array hitems.map⟩
  | .object members => by
    have hmembers := delimited_intercalate isWs COMMA RBRACE (dumpMember lib)
      (L := fun w m => Member (Value lib) w (m.1, settle lib m.2))
      (values_settleMembers hlib members)
    rw [settle, settleMembers_eq, dump, dumpMembers_eq]
    exact ⟨.object hmembers.map⟩

theorem values_settleItems (hlib : lib.Lawful) : ∀ items : List (Json δ),
    ∀ j ∈ items, Value lib (dump lib j) (settle lib j)
  | [] => by simp
  | item :: rest => by
    rw [List.forall_mem_cons]
    exact ⟨value_dump_settle hlib item, values_settleItems hlib rest⟩

theorem values_settleMembers (hlib : lib.Lawful) : ∀ members : List (Bytes × Json δ),
    ∀ m ∈ members, Member (Value lib) (dumpMember lib m) (m.1, settle lib m.2)
  | [] => by simp
  | (key, item) :: rest => by
    have hnone : Blanks [] := by simp [Blanks]
    have hmember :=
      Member.mk (stringToken_escapeString key) hnone hnone (value_dump_settle hlib item)
    rw [List.forall_mem_cons]
    exact ⟨by simpa [dumpMember] using hmember, values_settleMembers hlib rest⟩

end

mutual

theorem shortens_settle (hlib : lib.Lawful) : ∀ j : Json δ,
    Shortens (dump lib j) (dump lib (settle lib j)) (negativeZeros lib j)
  | .null => .refl _
  | .bool _ => .refl _
  | .int _ => .refl _
  | .double d => shortens_double hlib d
  | .string _ => .refl _
  | .array items => by
    have hopen := Shortens.refl [LBRACKET]
    have hitems := (hopen.append (shortens_settleItems hlib items true)).append (.refl [RBRACKET])
    simpa [settle, dump, negativeZeros] using hitems
  | .object members => by
    have hopen := Shortens.refl [LBRACE]
    have hmembers :=
      (hopen.append (shortens_settleMembers hlib members true)).append (.refl [RBRACE])
    simpa [settle, dump, negativeZeros] using hmembers

theorem shortens_settleItems (hlib : lib.Lawful) : ∀ (items : List (Json δ)) (first : Bool),
    Shortens (dumpItems lib first items) (dumpItems lib first (settleItems lib items))
      (itemsNegativeZeros lib items)
  | [], _ => by
    rw [settleItems, dumpItems]
    exact .refl _
  | item :: rest, first => by
    have hcomma := Shortens.refl (if first then [] else [COMMA])
    have hitems :=
      (hcomma.append (shortens_settle hlib item)).append (shortens_settleItems hlib rest false)
    rw [Nat.zero_add] at hitems
    simpa only [settleItems, dumpItems, itemsNegativeZeros] using hitems

theorem shortens_settleMembers (hlib : lib.Lawful) :
    ∀ (members : List (Bytes × Json δ)) (first : Bool), Shortens (dumpMembers lib first members)
      (dumpMembers lib first (settleMembers lib members)) (membersNegativeZeros lib members)
  | [], _ => by
    rw [settleMembers, dumpMembers]
    exact .refl _
  | (key, item) :: rest, first => by
    have hkey := Shortens.refl ((if first then [] else [COMMA]) ++ escapeString key ++ [COLON])
    have hmembers :=
      (hkey.append (shortens_settle hlib item)).append (shortens_settleMembers hlib rest false)
    rw [Nat.zero_add] at hmembers
    simpa [settleMembers, dumpMembers, membersNegativeZeros] using hmembers

end

end

section
variable {δ : Type} (lib : Doubles δ)

mutual

theorem settle_settle : ∀ j : Json δ, settle lib (settle lib j) = settle lib j
  | .null => rfl
  | .bool _ => rfl
  | .int _ => rfl
  | .double d => settle_settleDouble d
  | .string _ => rfl
  | .array items => congrArg Json.array (settleItems_settleItems items)
  | .object members => congrArg Json.object (settleMembers_settleMembers members)

theorem settleItems_settleItems : ∀ items : List (Json δ),
    settleItems lib (settleItems lib items) = settleItems lib items
  | [] => rfl
  | item :: rest => congrArg₂ List.cons (settle_settle item) (settleItems_settleItems rest)

theorem settleMembers_settleMembers : ∀ members : List (Bytes × Json δ),
    settleMembers lib (settleMembers lib members) = settleMembers lib members
  | [] => rfl
  | (key, item) :: rest => congrArg₂ (fun j l => (key, j) :: l) (settle_settle item)
      (settleMembers_settleMembers rest)

end

mutual

theorem enclosure_settle : ∀ j : Json δ, (settle lib j).enclosure = j.enclosure
  | .null => rfl
  | .bool _ => rfl
  | .int _ => rfl
  | .double d => enclosure_settleDouble d
  | .string _ => rfl
  | .array items => itemsEnclosure_settle items
  | .object members => membersEnclosure_settle members

theorem itemsEnclosure_settle : ∀ items : List (Json δ),
    itemsEnclosure (settleItems lib items) = itemsEnclosure items
  | [] => rfl
  | item :: rest => congrArg₂ (fun n m => max (n + 1) m) (enclosure_settle item)
      (itemsEnclosure_settle rest)

theorem membersEnclosure_settle : ∀ members : List (Bytes × Json δ),
    membersEnclosure (settleMembers lib members) = membersEnclosure members
  | [] => rfl
  | (_, item) :: rest => congrArg₂ (fun n m => max (n + 1) m) (enclosure_settle item)
      (membersEnclosure_settle rest)

end

/-- Any tree, doubles included, comes back settled from its own serialization, and a settled one
unchanged. The text is the same the second time if and only if no double in it is a negative
zero. -/
theorem parse_dump_settles (hlib : lib.Lawful) (j : Json δ) (hdepth : j.enclosure ≤ 256) :
    parse lib (dump lib j) = some (settle lib j) ∧
      parse lib (dump lib (settle lib j)) = some (settle lib j) ∧
      (dump lib (settle lib j) = dump lib j ↔ negativeZeros lib j = 0) := by
  have hsettled := enclosure_settle lib j
  have hagain := value_dump_settle hlib (settle lib j)
  rw [settle_settle] at hagain
  refine ⟨?_, ?_, (shortens_settle hlib j).same_iff⟩
  · exact parse_word lib (value_dump_settle hlib j) (by omega)
  · exact parse_word lib hagain (by omega)

end

/-- A NaN, a half, twenty and a negative zero. -/
theorem parse_dump_settles_doubles :
    let text : Fin 4 → Bytes := ![bytes "nan", bytes "0.5", bytes "20", bytes "-0"]
    let lib : Doubles (Fin 4) :=
      ⟨fun d => some (text d), fun w => ((List.finRange 4).find? (text · = w)).map (·, []), (· ≠ 0)⟩
    let j : Json (Fin 4) := .array [.double 0, .double 1, .double 2, .double 3]
    let settled : Json (Fin 4) := .array [.null, .double 1, .int 20, .int 0]
    dump lib j = bytes "[null,0.5,20,-0]" ∧ parse lib (dump lib j) = some settled ∧
      parse lib (dump lib settled) = some settled ∧ dump lib settled ≠ dump lib j := by
  intro text lib j settled
  have hlib : lib.Lawful := by
    refine ⟨fun d hd => ⟨text d, rfl, ?_, ?_⟩⟩
    · fin_cases d
      · cases hd
      · have hhalf : Digits [53] := ⟨by decide, List.forall_mem_singleton.mpr (by decide)⟩
        exact .mk (Or.inl rfl) (Or.inl rfl) (Or.inr ⟨_, rfl, hhalf⟩) (Or.inl rfl)
      · have htwenty : IntPart [50, 48] :=
          Or.inr ⟨50, [48], rfl, by decide, by decide, List.forall_mem_singleton.mpr (by decide)⟩
        exact .mk (Or.inl rfl) htwenty (Or.inl rfl) (Or.inl rfl)
      · exact .mk (Or.inr rfl) (Or.inl rfl) (Or.inl rfl) (Or.inl rfl)
    · fin_cases d
      · cases hd
      · decide
      · decide
      · decide
  obtain ⟨hfirst, hagain, hsame⟩ := parse_dump_settles lib hlib j (by decide)
  have hsettle : settle lib j = settled := by
    have hhalf : integerOf (bytes "0.5") = none := by decide
    have htwenty : integerOf (bytes "20") = some 20 := by decide
    have hzero : integerOf (bytes "-0") = some 0 := by decide
    simp [j, settled, settle, settleItems, settleDouble, lib, text, hhalf, htwenty, hzero]
  have hzeros : negativeZeros lib j = 1 := by decide +kernel
  rw [hsettle] at hfirst hagain hsame
  exact ⟨rfl, hfirst, hagain, fun heq => absurd (hsame.mp heq) (by omega)⟩

end Json
end Vermell
