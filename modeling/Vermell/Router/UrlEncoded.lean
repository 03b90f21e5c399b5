import Vermell.Router.Captures

/-! `parse_query`, for query strings and url-encoded bodies, and every rendering of a list of pairs
that it reads back. -/
namespace Vermell.Router
open Http

def AMPERSAND : UInt8 := 38
def PLUS : UInt8 := 43

/-- A byte that is not part of an escape: a plus stands for a blank. -/
def plusDecode (c : UInt8) : UInt8 := if c = PLUS then SP else c

/-- `url_decode`: an escape that is cut off or malformed stays as it is. -/
def urlDecode : Bytes → Bytes
  | c :: h :: l :: tail =>
    match hexValue h, hexValue l with
    | some hi, some lo =>
      if c = PERCENT then (hi*16 + lo).toUInt8 :: urlDecode tail
      else plusDecode c :: urlDecode (h :: l :: tail)
    | _, _ => plusDecode c :: urlDecode (h :: l :: tail)
  | c :: rest => plusDecode c :: urlDecode rest
  | [] => []

/-- A pair is cut at its first equals sign. -/
def queryPair (segment : Bytes) : Bytes × Bytes :=
  match segment.idxOf? EQUALS with
  | some eq => (urlDecode (segment.take eq), urlDecode (segment.drop (eq + 1)))
  | none => (urlDecode segment, [])

/-- `parse_query` -/
def parseQuery (raw : Bytes) : List (Bytes × Bytes) :=
  ((raw.splitOn AMPERSAND).filter (· ≠ [])).map queryPair

/-- The renderings of one byte. -/
inductive EncodedByte (c : UInt8) : Bytes → Prop
  | literal (hplain : c ∉ [PERCENT, PLUS, AMPERSAND, EQUALS]) : EncodedByte c [c]
  | plus (hblank : c = SP) : EncodedByte c [PLUS]
  | escape {h l : UInt8} (high : hexValue h = some (c.toNat / 16))
    (low : hexValue l = some (c.toNat % 16)) : EncodedByte c [PERCENT, h, l]

/-- The renderings of a text, each byte in any of its own. -/
inductive Encoded : Bytes → Bytes → Prop
  | nil : Encoded [] []
  | cons {c : UInt8} {s e t : Bytes} (byte : EncodedByte c e) (rest : Encoded s t) :
    Encoded (c :: s) (e ++ t)

def EncodedPair (pair : Bytes × Bytes) (segment : Bytes) : Prop :=
  ∃ key value, Encoded pair.1 key ∧ Encoded pair.2 value ∧ segment = key ++ EQUALS :: value

/-- A rendering of a list of pairs, with any number of empty segments between them. -/
def Rendering (pairs : List (Bytes × Bytes)) (raw : Bytes) : Prop :=
  ∃ segments, raw = [AMPERSAND].intercalate segments ∧
    List.Forall₂ EncodedPair pairs (segments.filter (· ≠ []))

/-- The bytes with a meaning of their own in a query are no hex digits. -/
theorem hexValue_separator {c : UInt8} (h : c ∈ [PERCENT, PLUS, AMPERSAND, EQUALS]) :
    hexValue c = none := by
  simp only [List.mem_cons, List.not_mem_nil, or_false] at h
  rcases h with rfl | rfl | rfl | rfl <;> decide

/-- A rendering holds no separator. -/
theorem Encoded.not_mem {s t : Bytes} (h : Encoded s t) {c : UInt8}
    (hc : c ∈ [AMPERSAND, EQUALS]) : c ∉ t := by
  have hsep : c ∈ [PERCENT, PLUS, AMPERSAND, EQUALS] := by
    simp only [List.mem_cons, List.not_mem_nil, or_false] at hc ⊢
    tauto
  induction h with
  | nil => simp
  | cons byte rest ih =>
    rw [List.mem_append, not_or]
    refine ⟨?_, ih⟩
    cases byte with
    | literal hplain =>
      rw [List.mem_singleton]
      rintro rfl
      exact hplain hsep
    | plus hblank =>
      rw [List.mem_singleton]
      rintro rfl
      revert hc
      decide
    | @escape h l high low =>
      have hnone := hexValue_separator hsep
      simp only [List.mem_cons, List.not_mem_nil, or_false, not_or]
      refine ⟨?_, ?_, ?_⟩
      · rintro rfl
        revert hc
        decide
      · rintro rfl
        rw [hnone] at high
        cases high
      · rintro rfl
        rw [hnone] at low
        cases low

theorem hexValue_plusDecode (c : UInt8) : hexValue (plusDecode c) = hexValue c := by
  unfold plusDecode
  split_ifs with hplus
  · rw [hplus]
    rfl
  · rfl

theorem plusDecode_eq_percent_iff (c : UInt8) : plusDecode c = PERCENT ↔ c = PERCENT := by
  unfold plusDecode
  split_ifs with hplus
  · rw [hplus]
    decide
  · rfl

/-- `url_decode` is `percent_decode` of the text with blanks for its pluses. -/
theorem urlDecode_eq_percentDecode (s : Bytes) :
    urlDecode s = percentDecode (s.map plusDecode) := by
  fun_induction urlDecode s with
  | case1 h l tail hi lo hhi hlo ih =>
    have hpercent : plusDecode PERCENT = PERCENT := rfl
    simp only [List.map_cons]
    rw [percentDecode, hexValue_plusDecode, hexValue_plusDecode, hhi, hlo, hpercent]
    simp only [if_true, ih]
  | case2 c h l tail hi lo hhi hlo hc ih =>
    rw [List.map_cons, percentDecode_cons, ih]
    intro x y t _ heq
    exact absurd ((plusDecode_eq_percent_iff c).mp heq) hc
  | case3 c h l tail hnot ih =>
    rw [List.map_cons, percentDecode_cons, ih]
    intro x y t heq _
    cases heq
    rw [hexValue_plusDecode, hexValue_plusDecode]
    exact hexValue_none_or hnot
  | case4 c rest hrest ih =>
    rw [List.map_cons, percentDecode_cons, ih]
    -- the rest is too short for an escape
    intro x y t heq _
    cases rest with
    | nil => cases heq
    | cons d rest =>
      cases rest with
      | nil => cases heq
      | cons e rest => exact absurd rfl (hrest d e rest)
  | case5 => rfl

/-- A byte that starts no escape is decoded alone. -/
theorem urlDecode_cons {c : UInt8} (hc : c ≠ PERCENT) (t : Bytes) :
    urlDecode (c :: t) = plusDecode c :: urlDecode t := by
  rw [urlDecode_eq_percentDecode, urlDecode_eq_percentDecode, List.map_cons, percentDecode_cons]
  intro _ _ _ _ heq
  exact absurd ((plusDecode_eq_percent_iff c).mp heq) hc

theorem urlDecode_escape {h l c : UInt8} (high : hexValue h = some (c.toNat / 16))
    (low : hexValue l = some (c.toNat % 16)) (t : Bytes) :
    urlDecode (PERCENT :: h :: l :: t) = c :: urlDecode t := by
  have hpercent : plusDecode PERCENT = PERCENT := rfl
  rw [← hexValue_plusDecode] at high low
  rw [urlDecode_eq_percentDecode, urlDecode_eq_percentDecode, List.map_cons, List.map_cons,
    List.map_cons, hpercent, percentDecode_escape high low]

/-- Decoding inverts every rendering of a text. -/
theorem urlDecode_encoded {s t : Bytes} (h : Encoded s t) : urlDecode t = s := by
  induction h with
  | nil => rfl
  | cons byte rest ih =>
    cases byte with
    | literal hplain =>
      simp only [List.mem_cons, List.not_mem_nil, or_false, not_or] at hplain
      rw [List.singleton_append, urlDecode_cons hplain.1, ih, plusDecode, if_neg hplain.2.1]
    | plus hblank =>
      rw [List.singleton_append, urlDecode_cons (by decide), ih, hblank]
      rfl
    | escape high low =>
      rw [List.cons_append, List.cons_append, List.singleton_append, urlDecode_escape high low, ih]

theorem queryPair_encoded {pair : Bytes × Bytes} {segment : Bytes} (h : EncodedPair pair segment) :
    queryPair segment = pair := by
  obtain ⟨key, value, hkey, hvalue, rfl⟩ := h
  have hidx := Text.idxOf?_append_cons (hkey.not_mem (by decide : EQUALS ∈ _)) value
  have hdrop : (key ++ EQUALS :: value).drop (key.length + 1) = value := by
    rw [List.append_cons]
    exact List.drop_left' (by simp)
  unfold queryPair
  rw [hidx]
  simp only [List.take_left, hdrop, urlDecode_encoded hkey, urlDecode_encoded hvalue]

/-- A rendered pair holds no ampersand. -/
theorem EncodedPair.not_mem {pair : Bytes × Bytes} {segment : Bytes}
    (h : EncodedPair pair segment) :
    AMPERSAND ∉ segment := by
  obtain ⟨key, value, hkey, hvalue, rfl⟩ := h
  have hmem : AMPERSAND ∈ [AMPERSAND, EQUALS] := by decide
  rw [List.mem_append, List.mem_cons, not_or, not_or]
  exact ⟨hkey.not_mem hmem, by decide, hvalue.not_mem hmem⟩

theorem map_queryPair {pairs : List (Bytes × Bytes)} {segments : List Bytes}
    (h : List.Forall₂ EncodedPair pairs segments) : segments.map queryPair = pairs := by
  induction h with
  | nil => rfl
  | cons hpair _ ih => rw [List.map_cons, queryPair_encoded hpair, ih]

theorem ampersand_not_mem {pairs : List (Bytes × Bytes)} {segments : List Bytes}
    (h : List.Forall₂ EncodedPair pairs segments) :
    ∀ segment ∈ segments, AMPERSAND ∉ segment := by
  induction h with
  | nil => simp
  | cons hpair _ ih =>
    intro segment hmem
    cases List.mem_cons.mp hmem with
    | inl heq => exact heq ▸ hpair.not_mem
    | inr htail => exact ih segment htail

/-- `parse_query` inverts every rendering of a list of pairs. -/
theorem parseQuery_rendering {pairs : List (Bytes × Bytes)} {raw : Bytes}
    (h : Rendering pairs raw) : parseQuery raw = pairs := by
  obtain ⟨segments, rfl, hpairs⟩ := h
  cases segments with
  | nil =>
    cases hpairs
    rfl
  | cons segment rest =>
    have hfree : ∀ s ∈ segment :: rest, AMPERSAND ∉ s := by
      intro s hs
      by_cases hempty : s = []
      · simp [hempty]
      · exact ampersand_not_mem hpairs s (List.mem_filter.mpr ⟨hs, by simpa using hempty⟩)
    have hsplit := List.splitOn_intercalate AMPERSAND hfree (List.cons_ne_nil segment rest)
    unfold parseQuery
    rw [hsplit]
    exact map_queryPair hpairs

/-- `a%3D=1+%2b` between empty segments. -/
theorem parseQuery_rendering_escapes :
    parseQuery [38, 97, 37, 51, 68, 61, 49, 43, 37, 50, 98, 38, 38, 61] =
      [([97, 61], [49, 32, 43]), ([], [])] := by
  refine parseQuery_rendering ⟨[[], [97, 37, 51, 68, 61, 49, 43, 37, 50, 98], [], [61]], rfl, ?_⟩
  have hkey : Encoded [97, 61] ([97] ++ ([37, 51, 68] ++ [])) :=
    .cons (.literal (by decide)) (.cons (.escape rfl rfl) .nil)
  have hvalue : Encoded [49, 32, 43] ([49] ++ ([43] ++ ([37, 50, 98] ++ []))) :=
    .cons (.literal (by decide)) (.cons (.plus rfl) (.cons (.escape rfl rfl) .nil))
  exact .cons ⟨_, _, hkey, hvalue, rfl⟩ (.cons ⟨_, _, .nil, .nil, rfl⟩ .nil)

end Vermell.Router
