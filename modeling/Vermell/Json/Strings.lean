import Vermell.Json.Grammar

/-! Strings of the parser against strings of the grammar: hex digits, surrogate pairs, the UTF-8 of
a scalar value, characters, and the string around them. -/
namespace Vermell.Json
open Http Text

theorem hexValue_lt {c : UInt8} {d : ℕ} (h : hexValue c = some d) : d < 16 := by
  unfold hexValue at h
  split_ifs at h with h1 h2 h3
  all_goals
    cases h
    simp only [isDigit, Bool.and_eq_true, decide_eq_true_eq, UInt8.le_iff_toNat_le] at *
    simp at *
    omega

theorem hexNumeral_concat (w : Bytes) (c : UInt8) : hexNumeral (w ++ [c]) =
    (hexNumeral w).bind fun n => (hexValue c).map fun d => n*16 + d := by
  simp [hexNumeral, hexNumeralFrom, List.foldlM_append]

theorem hexNumeral_lt {w : Bytes} {n : ℕ} (h : hexNumeral w = some n) : n < 16^w.length := by
  induction w using List.reverseRecOn generalizing n with
  | nil =>
    cases h
    decide
  | append_singleton w c ih =>
    rw [hexNumeral_concat] at h
    obtain ⟨m, hm, hn⟩ := Option.bind_eq_some_iff.mp h
    obtain ⟨d, hd, rfl⟩ := Option.map_eq_some_iff.mp hn
    have hm' := ih hm
    have hd' := hexValue_lt hd
    rw [List.length_append, List.length_singleton, pow_succ]
    omega

theorem Hex4.lt {w : Bytes} {n : ℕ} (h : Hex4 w n) : n < 0x10000 := by
  have hlt := hexNumeral_lt h.2
  rwa [h.1] at hlt

theorem reads_hex4 : Reads parseHex4 Hex4 fun _ => True := by
  constructor
  · intro s n r h
    unfold parseHex4 at h
    split_ifs at h with hlen
    obtain ⟨v, hv, heq⟩ := Option.map_eq_some_iff.mp h
    cases heq
    exact ⟨s.take 4, (List.take_append_drop 4 s).symm, by rw [List.length_take]; omega, hv⟩
  · rintro w n r ⟨hlen, hn⟩ -
    have htake : (w ++ r).take 4 = w := by rw [← hlen, List.take_left]
    have hdrop : (w ++ r).drop 4 = r := by rw [← hlen, List.drop_left]
    unfold parseHex4
    rw [if_neg (by rw [List.length_append]; omega), htake, hdrop, hn]
    rfl

/-- What stands behind the `u` of an escape, and the scalar value it denotes. -/
inductive Codepoint : Bytes → ℕ → Prop
  | single {h n} : Hex4 h n → ¬IsHighSurrogate n → ¬IsLowSurrogate n → Codepoint h n
  | pair {h high l low} : Hex4 h high → IsHighSurrogate high → Hex4 l low → IsLowSurrogate low →
      Codepoint (h ++ BACKSLASH :: LETTER_U :: l)
        (0x10000 + (high - 0xD800)*0x400 + (low - 0xDC00))

theorem Codepoint.isValidChar {w : Bytes} {n : ℕ} (h : Codepoint w n) : n.isValidChar := by
  cases h with
  | single hex hhigh hlow =>
    have hlt := hex.lt
    unfold IsHighSurrogate at hhigh
    unfold IsLowSurrogate at hlow
    unfold Nat.isValidChar
    omega
  | pair _ hhigh _ hlow =>
    unfold IsHighSurrogate at hhigh
    unfold IsLowSurrogate at hlow
    unfold Nat.isValidChar
    omega

theorem shift_ten (n : ℕ) : n <<< 10 = n*0x400 := Nat.shiftLeft_eq n 10

theorem reads_codepoint : Reads parseCodepoint Codepoint fun _ => True := by
  constructor
  · intro s n r h
    unfold parseCodepoint at h
    cases hs : parseHex4 s with
    | none => simp [hs] at h
    | some x =>
      obtain ⟨cp, t⟩ := x
      obtain ⟨w, rfl, hw⟩ := reads_hex4.sound _ _ _ hs
      simp only [hs] at h
      split_ifs at h with hhigh hslash hlow
      · rw [not_not] at hslash
        cases ht : parseHex4 (t.drop 2) with
        | none => simp [ht] at h
        | some y =>
          obtain ⟨low, u⟩ := y
          obtain ⟨l, hl, hlw⟩ := reads_hex4.sound _ _ _ ht
          simp only [ht] at h
          split_ifs at h with hrange
          have hlow : IsLowSurrogate low := ⟨by omega, by omega⟩
          rw [shift_ten, Option.some.injEq, Prod.mk.injEq] at h
          obtain ⟨rfl, rfl⟩ := h
          refine ⟨w ++ BACKSLASH :: LETTER_U :: l, ?_, .pair hw hhigh hlw hlow⟩
          calc w ++ t = w ++ (t.take 2 ++ t.drop 2) := by rw [List.take_append_drop]
            _ = (w ++ BACKSLASH :: LETTER_U :: l) ++ u := by rw [hslash, hl]; simp
      · cases h
        exact ⟨w, rfl, .single hw hhigh hlow⟩
  · intro w n r h _
    cases h with
    | single hex hhigh hlow =>
      unfold parseCodepoint
      rw [reads_hex4.complete _ _ r hex trivial]
      exact (if_neg hhigh).trans (if_neg hlow)
    | @pair h high l low hex hhigh hexl hlow =>
      unfold parseCodepoint
      rw [List.append_assoc, reads_hex4.complete _ _ _ hex trivial]
      have hlow' : ¬(low < 0xDC00 ∨ low > 0xDFFF) := by
        unfold IsLowSurrogate at hlow
        omega
      simp only [List.cons_append, List.take_succ_cons, List.take_zero, List.drop_succ_cons,
        List.drop_zero, reads_hex4.complete l low r hexl trivial]
      rw [if_pos (by exact hhigh), if_neg (by simp), if_neg hlow', shift_ten]

theorem or_lead {k a x : ℕ} (h : x < 2^k) : 2^k*a ||| x = x + 2^k*a := by
  rw [← Nat.two_pow_add_eq_or_of_lt h, Nat.add_comm]

theorem or_tail (n : ℕ) : 0x80 ||| (n &&& 0x3F) = n%64 + 0x80 := by
  rw [show (0x3F : ℕ) = 2^6 - 1 from rfl, Nat.and_two_pow_sub_one_eq_mod]
  exact or_lead (k := 6) (a := 2) (Nat.mod_lt _ (by decide))

/-- The source encodes a scalar value as UTF-8 does. -/
theorem encodeUtf8_eq {n : ℕ} (h : n.isValidChar) :
    encodeUtf8 n = String.utf8EncodeChar (Char.ofNat n) := by
  have hval : (Char.ofNat n).val.toNat = n := by
    unfold Char.ofNat
    rw [dif_pos h]
    rfl
  have hmax : n < 0x110000 := by
    unfold Nat.isValidChar at h
    omega
  unfold encodeUtf8 String.utf8EncodeChar
  simp only [hval, or_tail, Nat.shiftRight_eq_div_pow]
  split_ifs
  all_goals first | omega | skip
  · rfl
  · rw [show (0xC0 : ℕ) = 2^6*3 from rfl, or_lead (by omega)]
    congr 4
    all_goals omega
  · rw [show (0xE0 : ℕ) = 2^5*7 from rfl, or_lead (by omega)]
    congr 4
    all_goals omega
  · rw [show (0xF0 : ℕ) = 2^4*15 from rfl, or_lead (by omega)]
    congr 4
    all_goals omega

theorem Codepoint.character {w : Bytes} {n : ℕ} (h : Codepoint w n) :
    Character (BACKSLASH :: LETTER_U :: w) (encodeUtf8 n) := by
  rw [encodeUtf8_eq h.isValidChar]
  cases h with
  | single hex hhigh hlow => exact .unicode hex hhigh hlow
  | pair hex hhigh hexl hlow => exact .pair hex hhigh hexl hlow

theorem parseEscape_sound {s r x : Bytes} (h : parseEscape s = some (x, r)) :
    ∃ w, s = w ++ r ∧ Character (BACKSLASH :: w) x := by
  cases s with
  | nil => cases h
  | cons e s =>
    have hescape {c : UInt8} (hmem : (e, c) ∈ escapes) (heq : some ([c], s) = some (x, r)) :
        ∃ w, e :: s = w ++ r ∧ Character (BACKSLASH :: w) x := by
      cases heq
      exact ⟨[e], rfl, .escape hmem⟩
    simp only [parseEscape] at h
    by_cases hu : e = LETTER_U
    · subst hu
      obtain ⟨⟨n, t⟩, hn, heq⟩ := Option.map_eq_some_iff.mp h
      cases heq
      obtain ⟨w, rfl, hw⟩ := reads_codepoint.sound _ _ _ hn
      exact ⟨LETTER_U :: w, rfl, hw.character⟩
    · rw [if_neg hu] at h
      split_ifs at h with h1 h2 h3 h4 h5 h6 h7 h8
      · exact hescape (by simp [escapes, h1]) h
      · exact hescape (by simp [escapes, h2]) h
      · exact hescape (by simp [escapes, h3]) h
      · exact hescape (by simp [escapes, h4]) h
      · exact hescape (by simp [escapes, h5]) h
      · exact hescape (by simp [escapes, h6]) h
      · exact hescape (by simp [escapes, h7]) h
      · exact hescape (by simp [escapes, h8]) h

theorem parseEscape_codepoint {w : Bytes} {n : ℕ} (h : Codepoint w n) (r : Bytes) :
    parseEscape (LETTER_U :: w ++ r) =
      some (String.utf8EncodeChar (Char.ofNat n), r) := by
  rw [← encodeUtf8_eq h.isValidChar]
  change (parseCodepoint (w ++ r)).map (fun x => (encodeUtf8 x.1, x.2)) = _
  rw [reads_codepoint.complete w n r h trivial]
  rfl

theorem parseChar_sound {c : UInt8} {s r x : Bytes} (hc : c ≠ QUOTE)
    (h : parseChar (c :: s) = some (x, r)) : ∃ w, c :: s = w ++ r ∧ Character w x := by
  simp only [parseChar] at h
  split_ifs at h with hslash hcontrol
  · subst hslash
    obtain ⟨w, rfl, hw⟩ := parseEscape_sound h
    exact ⟨BACKSLASH :: w, rfl, hw⟩
  · cases h
    exact ⟨[c], rfl, .plain (UInt8.not_lt.mp hcontrol) hc hslash⟩

theorem parseChar_complete {w x : Bytes} (h : Character w x) (r : Bytes) :
    parseChar (w ++ r) = some (x, r) := by
  cases h with
  | @plain c hc _ hslash =>
    change (if c = BACKSLASH then _ else if c < 0x20 then none else some ([c], r)) = _
    rw [if_neg hslash, if_neg (UInt8.not_lt.mpr hc)]
  | escape hmem =>
    simp only [escapes, List.mem_cons, Prod.mk.injEq, List.not_mem_nil, or_false] at hmem
    rcases hmem with ⟨rfl, rfl⟩ | ⟨rfl, rfl⟩ | ⟨rfl, rfl⟩ | ⟨rfl, rfl⟩ | ⟨rfl, rfl⟩ | ⟨rfl, rfl⟩ |
      ⟨rfl, rfl⟩ | ⟨rfl, rfl⟩
    all_goals rfl
  | unicode hex hhigh hlow => exact parseEscape_codepoint (.single hex hhigh hlow) r
  | pair hex hhigh hexl hlow => exact parseEscape_codepoint (.pair hex hhigh hexl hlow) r

theorem Character.start {w x : Bytes} (h : Character w x) : ∃ c t, w = c :: t ∧ c ≠ QUOTE := by
  cases h with
  | plain _ hquote _ => exact ⟨_, _, rfl, hquote⟩
  | escape _ => exact ⟨_, _, rfl, by decide⟩
  | unicode _ _ _ => exact ⟨_, _, rfl, by decide⟩
  | pair _ _ _ _ => exact ⟨_, _, rfl, by decide⟩

theorem consume_eq_some_iff {c : UInt8} (hc : c ≠ 0) (s t : Bytes) :
    consume c s = some t ↔ s = c :: t := by
  unfold consume peek
  cases s with
  | nil => simp [hc.symm]
  | cons d s =>
    by_cases hd : d = c
    · simp [hd]
    · simp [hd]

theorem reads_string : Reads parseString StringToken fun _ => True := by
  have hbody := reads_until (fun _ _ _ _ => parseChar_sound)
    (fun _ _ r hw => parseChar_complete hw r)
    fun _ _ => Character.start
  constructor
  · intro s text r h
    unfold parseString at h
    cases hs : consume QUOTE s with
    | none => simp [hs] at h
    | some t =>
      rw [consume_eq_some_iff (by decide)] at hs
      simp only [hs] at h
      obtain ⟨⟨xs, u⟩, hread, heq⟩ := Option.map_eq_some_iff.mp h
      cases heq
      obtain ⟨_, rfl, w, rfl, hw⟩ := hbody.sound _ _ _ hread
      exact ⟨_, by rw [hs]; rfl, .mk hw⟩
  · intro _ text r h _
    cases h with
    | @mk w xs hw =>
      have hs : consume QUOTE (QUOTE :: w ++ [QUOTE] ++ r) = some (w ++ [QUOTE] ++ r) :=
        (consume_eq_some_iff (by decide) _ _).mpr rfl
      unfold parseString
      rw [hs]
      simp only
      rw [hbody.complete _ xs r ⟨w, rfl, hw⟩ trivial]
      rfl

end Vermell.Json
