import Vermell.Json.Accepts

/-! `dump` writes a JSON text that denotes the tree it was given, so `parse` reads that tree. -/
namespace Vermell.Json
open Http Text

theorem escapeChar_control {c : UInt8} (h : c < 0x20) :
    Hex4 [48, 48, HEX.getD (c >>> 4).toNat 0, HEX.getD (c &&& 0x0F).toNat 0] c.toNat ∧
      String.utf8EncodeChar (Char.ofNat c.toNat) = [c] := by
  obtain ⟨n, hn, rfl⟩ : ∃ n : ℕ, n < 32 ∧ c = UInt8.ofNat n :=
    ⟨c.toNat, h, (UInt8.ofNat_toNat).symm⟩
  unfold Hex4
  interval_cases n
  all_goals decide

/-- Every byte is escaped to a character that denotes it. -/
theorem character_escapeChar (c : UInt8) : Character (escapeChar c) [c] := by
  unfold escapeChar
  split_ifs with hquote hslash hb hf hn hr ht hcontrol
  · subst hquote
    exact .escape (by decide)
  · subst hslash
    exact .escape (by decide)
  · subst hb
    exact .escape (by decide)
  · subst hf
    exact .escape (by decide)
  · subst hn
    exact .escape (by decide)
  · subst hr
    exact .escape (by decide)
  · subst ht
    exact .escape (by decide)
  · obtain ⟨hhex, hutf8⟩ := escapeChar_control hcontrol
    have hlt : c.toNat < 32 := hcontrol
    rw [← hutf8]
    refine .unicode hhex ?_ ?_
    · unfold IsHighSurrogate
      omega
    · unfold IsLowSurrogate
      omega
  · exact .plain (UInt8.not_lt.mp hcontrol) hquote hslash

theorem stringToken_escapeString (text : Bytes) : StringToken (escapeString text) text := by
  have hbody : Repeated Character (text.flatMap escapeChar) (text.map fun c => [c]) := by
    induction text with
    | nil => exact .nil
    | cons c text ih => exact .cons (character_escapeChar c) ih
  have htoken := StringToken.mk hbody
  rwa [← List.flatMap_def, List.flatMap_singleton'] at htoken

theorem integerToken_toCharsInt (z : ℤ) : IntegerToken (toCharsInt z) z := by
  have hint := intPart_toChars z.natAbs
  have hval := decimal_toChars z.natAbs
  unfold toCharsInt
  split_ifs with hneg
  · have htoken := IntegerToken.negative hint
    rwa [hval, show -(z.natAbs : ℤ) = z by omega] at htoken
  · have htoken := IntegerToken.positive hint
    rwa [hval, show (z.natAbs : ℤ) = z by omega] at htoken

section
variable {δ : Type} (lib : Doubles δ)

theorem dumpItems_eq (items : List (Json δ)) :
    dumpItems lib true items = [COMMA].intercalate (items.map (dump lib)) := by
  cases items with
  | nil => rfl
  | cons item rest =>
    induction rest generalizing item with
    | nil => simp [dumpItems]
    | cons next rest ih =>
      have hrest := ih next
      simp only [dumpItems, List.map_cons, List.intercalate_cons_cons] at hrest ⊢
      simp [← hrest]

/-- `dump` of one member of an object. -/
def dumpMember (m : Bytes × Json δ) : Bytes := escapeString m.1 ++ COLON :: dump lib m.2

theorem dumpMembers_eq (members : List (Bytes × Json δ)) :
    dumpMembers lib true members = [COMMA].intercalate (members.map (dumpMember lib)) := by
  cases members with
  | nil => rfl
  | cons m rest =>
    induction rest generalizing m with
    | nil => simp [dumpMembers, dumpMember]
    | cons next rest ih =>
      have hrest := ih next
      simp only [dumpMembers, List.map_cons, List.intercalate_cons_cons] at hrest ⊢
      rw [← hrest]
      simp [dumpMember]

theorem member_dumpMember {m : Bytes × Json δ} (h : Value lib (dump lib m.2) m.2) :
    Member (Value lib) (dumpMember lib m) m := by
  have hnone : Blanks [] := by simp [Blanks]
  have hmember := Member.mk (stringToken_escapeString m.1) hnone hnone h
  simpa [dumpMember] using hmember

mutual

/-- The serialization of a tree without doubles denotes that tree. -/
theorem value_dump : ∀ j : Json δ, j.doubleFree = true → Value lib (dump lib j) j
  | .null, _ => ⟨.null⟩
  | .bool true, _ => ⟨.true⟩
  | .bool false, _ => ⟨.false⟩
  | .int v, _ => ⟨.number (.int (integerToken_toCharsInt v.toInt))⟩
  | .double _, h => by cases h
  | .string text, _ => ⟨.string (stringToken_escapeString text)⟩
  | .array items, h => by
    have hitems := delimited_intercalate isWs COMMA RBRACKET (dump lib) (values_dumpItems items h)
    rw [← dumpItems_eq] at hitems
    exact ⟨.array hitems⟩
  | .object members, h => by
    have hmembers := delimited_intercalate isWs COMMA RBRACE (dumpMember lib) fun m hm =>
      member_dumpMember lib (values_dumpMembers members h m hm)
    rw [← dumpMembers_eq] at hmembers
    exact ⟨.object hmembers⟩

theorem values_dumpItems : ∀ items : List (Json δ), itemsDoubleFree items = true →
    ∀ j ∈ items, Value lib (dump lib j) j
  | [], _ => by simp
  | item :: rest, h => by
    rw [itemsDoubleFree, Bool.and_eq_true] at h
    rw [List.forall_mem_cons]
    exact ⟨value_dump item h.1, values_dumpItems rest h.2⟩

theorem values_dumpMembers : ∀ members : List (Bytes × Json δ),
    membersDoubleFree members = true → ∀ m ∈ members, Value lib (dump lib m.2) m.2
  | [], _ => by simp
  | (_, item) :: rest, h => by
    rw [membersDoubleFree, Bool.and_eq_true] at h
    rw [List.forall_mem_cons]
    exact ⟨value_dump item h.1, values_dumpMembers rest h.2⟩

end

/-- Parsing undoes serializing, for every tree without doubles in which no value is enclosed by
more than 256 containers. -/
theorem parse_dump (j : Json δ) (hfree : j.doubleFree = true) (hdepth : j.enclosure ≤ 256) :
    parse lib (dump lib j) = some j := parse_word lib (value_dump lib j hfree) hdepth

end

theorem parse_dump_nested :
    let lib : Doubles Unit := ⟨fun _ => none, fun _ => none, fun _ => false⟩
    let j : Json Unit := .object [([34, 0, 92], .array [.int Int64.minValue, .string [255, 10]]),
      ([34, 0, 92], .object []), ([], .array [.null, .bool true])]
    parse lib (dump lib j) = some j :=
  parse_dump _ _ (by decide) (by decide)

end Vermell.Json
