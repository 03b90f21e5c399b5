import Vermell.Json.RoundTrip
import Vermell.Router.Prepare

/-! The body of a guard's answer: `json_escape`, a second copy of the escape of the serializer,
against the parser. -/
namespace Vermell.Router
open Http Json

theorem toInt8_eq_iff (c k : UInt8) : c.toInt8 = k.toInt8 ↔ c = k :=
  ⟨fun h => congrArg Int8.toUInt8 h, fun h => congrArg UInt8.toInt8 h⟩

/-- Both copies escape a byte alike, also above 0x7f, where the signed one is negative. -/
theorem jsonEscapeChar_toInt8 (c : UInt8) : jsonEscapeChar c.toInt8 = escapeChar c := by
  have hquote := toInt8_eq_iff c 34
  have hslash := toInt8_eq_iff c 92
  have hb := toInt8_eq_iff c 8
  have hf := toInt8_eq_iff c 12
  have hn := toInt8_eq_iff c 10
  have hr := toInt8_eq_iff c 13
  have ht := toInt8_eq_iff c 9
  simp only [UInt8.toInt8_ofNat] at hquote hslash hb hf hn hr ht
  simp only [jsonEscapeChar, hquote, hslash, hb, hf, hn, hr, ht]
  rfl

theorem jsonEscape_eq (text : Bytes) : jsonEscape text = text.flatMap escapeChar := by
  simp only [jsonEscape, jsonEscapeChar_toInt8]

/-- Between quotes the escaped text is the string that the serializer writes. -/
theorem escapeString_eq (text : Bytes) :
    escapeString text = QUOTE :: jsonEscape text ++ [QUOTE] := by
  rw [jsonEscape_eq]
  rfl

section
variable {δ : Type} (lib : Doubles δ)

/-- The body is the serialization of an object with one member. -/
theorem guardRoute_body (seconds : ℤ) {msg : Bytes} (hmsg : msg ≠ []) :
    (guardRoute seconds msg).body = dump lib (.object [(bytes "message", .string msg)]) := by
  have hname : escapeString (bytes "message") = bytes "\"message\"" := by decide
  have hopen : bytes "\x7b\"message\":\"" = LBRACE :: (bytes "\"message\"" ++ [COLON, QUOTE]) := by
    decide
  have hclose : bytes "\"\x7d" = [QUOTE, RBRACE] := by decide
  have hbody : (guardRoute seconds msg).body =
      bytes "\x7b\"message\":\"" ++ jsonEscape msg ++ bytes "\"\x7d" := by
    unfold guardRoute
    rw [if_pos hmsg]
    rfl
  rw [hbody, hopen, hclose]
  simp [dump, dumpMembers, hname, escapeString_eq msg]

/-- The parser reads a guard message back, byte for byte, and any other text that is escaped so. -/
theorem parse_guardRoute (seconds : ℤ) {msg : Bytes} (hmsg : msg ≠ []) :
    parse lib (guardRoute seconds msg).body = some (.object [(bytes "message", .string msg)]) ∧
      ∀ text, parse lib (QUOTE :: jsonEscape text ++ [QUOTE]) = some (.string text) := by
  constructor
  · have hdepth : (object (δ := δ) [(bytes "message", .string msg)]).enclosure = 1 := rfl
    rw [guardRoute_body lib seconds hmsg]
    exact parse_word lib (value_dump lib _ rfl) (by omega)
  · intro text
    rw [← escapeString_eq]
    exact parse_word lib (value_dump lib (.string text) rfl) (Nat.zero_le _)

end

/-- A message of a quote, a backslash, a NUL and a byte above 0x7f. -/
theorem parse_guardRoute_bytes :
    let lib : Doubles Unit := ⟨fun _ => none, fun _ => none, fun _ => false⟩
    parse lib (guardRoute 5 [34, 92, 0, 200]).body =
        some (.object [(bytes "message", .string [34, 92, 0, 200])]) ∧
      ∀ text, parse lib (QUOTE :: jsonEscape text ++ [QUOTE]) = some (.string text) :=
  parse_guardRoute _ 5 (by decide)

end Vermell.Router
