import Vermell.Json.Strings

/-! Numbers of the parser against numbers of the grammar: the token, part by part, and what it is
converted to. -/
namespace Vermell.Json
open Http Text

theorem atDigit_iff (s : Bytes) : atDigit s = true ↔ ∃ c t, s = c :: t ∧ isDigit c = true := by
  cases s with
  | nil =>
    simp only [reduceCtorEq, false_and, exists_false, iff_false]
    decide
  | cons c t => simp [atDigit, peek]

/-- The digits that the loop passes over. -/
theorem skipDigits_sound {s : Bytes} (h : atDigit s = true) :
    ∃ ds, s = ds ++ skipDigits s ∧ Digits ds := by
  obtain ⟨c, t, rfl, hc⟩ := (atDigit_iff s).mp h
  obtain ⟨ds, hs, hds⟩ := exists_blanks isDigit (c :: t)
  refine ⟨ds, hs, ?_, hds⟩
  rintro rfl
  have hrest := unblank_dropWhile isDigit (c :: t)
  rw [List.nil_append] at hs
  rw [← hs] at hrest
  exact absurd hc (by simp [hrest c t rfl])

theorem skipDigits_complete {ds t : Bytes} (h : Digits ds) (ht : Unblank isDigit t) :
    atDigit (ds ++ t) = true ∧ skipDigits (ds ++ t) = t := by
  obtain ⟨hne, hds⟩ := h
  refine ⟨?_, dropWhile_append hds ht⟩
  obtain ⟨c, ds, rfl⟩ := List.exists_cons_of_ne_nil hne
  exact (atDigit_iff _).mpr ⟨c, ds ++ t, rfl, hds c (by simp)⟩

/-- Nothing that would go on with a number. -/
def EndsNumber (r : Bytes) : Prop :=
  ∀ c t, r = c :: t → isDigit c = false ∧ c ≠ DOT ∧ c ≠ 101 ∧ c ≠ 69

theorem parseInteger_sound {s t : Bytes} (h : parseInteger s = some t) :
    ∃ sign int, s = sign ++ int ++ t ∧ Sign sign ∧ IntPart int := by
  obtain ⟨sign, hs, hsign⟩ : ∃ sign, s = sign ++ (consume MINUS s).getD s ∧ Sign sign := by
    cases hm : consume MINUS s with
    | none => exact ⟨[], rfl, Or.inl rfl⟩
    | some u => exact ⟨[MINUS], (consume_eq_some_iff (by decide) _ _).mp hm, Or.inr rfl⟩
  unfold parseInteger at h
  simp only at h
  generalize (consume MINUS s).getD s = u at h hs
  cases hz : consume ZERO u with
  | some v =>
    simp only [hz] at h
    split_ifs at h
    cases h
    have hu := (consume_eq_some_iff (by decide) _ _).mp hz
    exact ⟨sign, [48], by rw [hs, hu, List.append_assoc]; rfl, hsign, Or.inl rfl⟩
  | none =>
    simp only [hz] at h
    split_ifs at h with hdigit
    cases h
    obtain ⟨ds, hu, hds⟩ := skipDigits_sound hdigit
    refine ⟨sign, ds, by rw [List.append_assoc, ← hu, ← hs], hsign, Or.inr ?_⟩
    obtain ⟨c, ds, rfl⟩ := List.exists_cons_of_ne_nil hds.1
    refine ⟨c, ds, rfl, hds.2 c (by simp), ?_, fun d hd => hds.2 d (by simp [hd])⟩
    rintro rfl
    rw [hu] at hz
    cases hz

theorem parseInteger_complete {sign int t : Bytes} (hsign : Sign sign) (hint : IntPart int)
    (ht : Unblank isDigit t) : parseInteger (sign ++ int ++ t) = some t := by
  obtain ⟨hne, hdigits⟩ := hint.digits
  have hu : (consume MINUS (sign ++ int ++ t)).getD (sign ++ int ++ t) = int ++ t := by
    rcases hsign with rfl | rfl
    · obtain ⟨c, ds, rfl⟩ := List.exists_cons_of_ne_nil hne
      have hc : c ≠ MINUS := by
        rintro rfl
        exact absurd (hdigits MINUS (by simp)) (by decide)
      have hnone : consume MINUS (c :: ds ++ t) = none := if_neg hc
      rw [List.nil_append, hnone]
      rfl
    · rfl
  unfold parseInteger
  simp only [hu]
  rcases hint with rfl | ⟨c, ds, rfl, hc, hzero, hds⟩
  · have hz : consume ZERO ([48] ++ t) = some t := rfl
    have hstop : atDigit t ≠ true := by
      rw [Ne, atDigit_iff]
      rintro ⟨c, u, rfl, hc⟩
      exact absurd hc (by simp [ht c u rfl])
    simp only [hz, if_neg hstop]
  · have hz : consume ZERO (c :: ds ++ t) = none := if_neg hzero
    obtain ⟨hat, hskip⟩ := skipDigits_complete ⟨hne, hdigits⟩ ht
    simp only [hz, if_pos hat, hskip]

theorem parseFraction_sound {s t : Bytes} {real : Bool} (h : parseFraction s = some (real, t)) :
    ∃ frac, s = frac ++ t ∧ Fraction frac ∧ real = !frac.isEmpty := by
  unfold parseFraction at h
  cases hd : consume DOT s with
  | none =>
    simp only [hd, Option.some.injEq, Prod.mk.injEq] at h
    obtain ⟨rfl, rfl⟩ := h
    exact ⟨[], rfl, Or.inl rfl, rfl⟩
  | some u =>
    simp only [hd] at h
    split_ifs at h with hdigit
    cases h
    obtain ⟨ds, hu, hds⟩ := skipDigits_sound hdigit
    refine ⟨DOT :: ds, ?_, Or.inr ⟨ds, rfl, hds⟩, rfl⟩
    rw [(consume_eq_some_iff (by decide) _ _).mp hd, List.cons_append, ← hu]

theorem parseFraction_complete {frac t : Bytes} (hfrac : Fraction frac)
    (ht : ∀ c u, t = c :: u → isDigit c = false ∧ c ≠ DOT) :
    parseFraction (frac ++ t) = some (!frac.isEmpty, t) := by
  unfold parseFraction
  rcases hfrac with rfl | ⟨ds, rfl, hds⟩
  · have hnone : consume DOT t = none := by
      cases t with
      | nil => rfl
      | cons c u => exact if_neg (ht c u rfl).2
    rw [List.nil_append, hnone]
    rfl
  · have hsome : consume DOT (DOT :: ds ++ t) = some (ds ++ t) := rfl
    obtain ⟨hat, hskip⟩ := skipDigits_complete hds fun c u h => (ht c u h).1
    simp only [hsome, if_pos hat, hskip]
    rfl

theorem skipSign_sound (s : Bytes) :
    ∃ sign, s = sign ++ skipSign s ∧ (sign = [] ∨ sign = [PLUS] ∨ sign = [MINUS]) := by
  unfold skipSign
  split_ifs with h
  · cases s with
    | nil => exact absurd h (by decide)
    | cons c s =>
      refine ⟨[c], rfl, Or.inr ?_⟩
      exact h.imp (congrArg fun c => [c]) (congrArg fun c => [c])
  · exact ⟨[], rfl, Or.inl rfl⟩

theorem skipSign_complete {sign ds : Bytes} (hsign : sign = [] ∨ sign = [PLUS] ∨ sign = [MINUS])
    (hds : Digits ds) (t : Bytes) : skipSign (sign ++ (ds ++ t)) = ds ++ t := by
  rcases hsign with rfl | rfl | rfl
  · obtain ⟨c, ds, rfl⟩ := List.exists_cons_of_ne_nil hds.1
    have hc := hds.2 c (by simp)
    apply if_neg
    rintro (rfl | rfl)
    · exact absurd hc (by decide)
    · exact absurd hc (by decide)
  · rfl
  · rfl

theorem parseExponent_sound {s t : Bytes} {real : Bool} (h : parseExponent s = some (real, t)) :
    ∃ exp, s = exp ++ t ∧ Exponent exp ∧ real = !exp.isEmpty := by
  unfold parseExponent at h
  split_ifs at h with he hdigit
  · cases h
    cases s with
    | nil => exact absurd he (by decide)
    | cons e u =>
      obtain ⟨sign, hu, hsign⟩ := skipSign_sound u
      obtain ⟨ds, hv, hds⟩ := skipDigits_sound hdigit
      rw [List.tail_cons] at hv ⊢
      refine ⟨e :: sign ++ ds, ?_, Or.inr ⟨e, sign, ds, rfl, he, hsign, hds⟩, rfl⟩
      rw [List.append_assoc, ← hv, List.cons_append, ← hu]
  · cases h
    exact ⟨[], rfl, Or.inl rfl, rfl⟩

theorem parseExponent_complete {exp t : Bytes} (hexp : Exponent exp) (ht : EndsNumber t) :
    parseExponent (exp ++ t) = some (!exp.isEmpty, t) := by
  unfold parseExponent
  rcases hexp with rfl | ⟨e, sign, ds, rfl, he, hsign, hds⟩
  · apply if_neg
    rw [List.nil_append]
    cases t with
    | nil => decide
    | cons c u =>
      obtain ⟨-, -, h1, h2⟩ := ht c u rfl
      exact not_or.mpr ⟨h1, h2⟩
  · obtain ⟨hat, hskip⟩ := skipDigits_complete hds fun c u h => (ht c u h).1
    have hpeek : peek (e :: (sign ++ (ds ++ t))) = e := rfl
    simp only [List.cons_append, List.append_assoc, hpeek, if_pos he, List.tail_cons,
      skipSign_complete hsign hds t, if_pos hat, hskip]
    rfl

/-- A token as the parser cuts it, and whether it has a fraction or an exponent. -/
inductive Token : Bytes → Bool → Prop
  | mk {sign int frac exp} : Sign sign → IntPart int → Fraction frac → Exponent exp →
      Token (sign ++ int ++ frac ++ exp) (!frac.isEmpty || !exp.isEmpty)

theorem numberToken_iff (w : Bytes) : NumberToken w ↔ ∃ real, Token w real := by
  constructor
  · rintro ⟨hsign, hint, hfrac, hexp⟩
    exact ⟨_, .mk hsign hint hfrac hexp⟩
  · rintro ⟨_, ⟨hsign, hint, hfrac, hexp⟩⟩
    exact .mk hsign hint hfrac hexp

theorem IntegerToken.mem {w : Bytes} {z : ℤ} (h : IntegerToken w z) {c : UInt8} (hc : c ∈ w) :
    isDigit c = true ∨ c = MINUS := by
  cases h with
  | positive hint => exact Or.inl (hint.digits.2 c hc)
  | negative hint =>
    rcases List.mem_cons.mp hc with rfl | hc
    · exact Or.inr rfl
    · exact Or.inl (hint.digits.2 c hc)

/-- A token is an integer where it has neither fraction nor exponent. -/
theorem Token.integer_iff {w : Bytes} {real : Bool} (h : Token w real) :
    (∃ z, IntegerToken w z) ↔ real = false := by
  cases h with
  | @mk sign int frac exp hsign hint hfrac hexp =>
    constructor
    · rintro ⟨z, hz⟩
      rcases hfrac with rfl | ⟨ds, rfl, -⟩
      · rcases hexp with rfl | ⟨e, s, ds, rfl, he, -⟩
        · rfl
        · have hmem := hz.mem (c := e) (by simp)
          rcases he with rfl | rfl
          · exact absurd hmem (by decide)
          · exact absurd hmem (by decide)
      · exact absurd (hz.mem (c := DOT) (by simp)) (by decide)
    · intro hreal
      simp only [Bool.or_eq_false_iff, Bool.not_eq_false', List.isEmpty_iff] at hreal
      obtain ⟨rfl, rfl⟩ := hreal
      rw [List.append_nil, List.append_nil]
      rcases hsign with rfl | rfl
      · exact ⟨_, .positive hint⟩
      · exact ⟨_, .negative hint⟩

theorem IntegerToken.token {w : Bytes} {z : ℤ} (h : IntegerToken w z) : Token w false := by
  cases h with
  | @positive int hint =>
    have htoken := Token.mk (Or.inl rfl) hint (Or.inl rfl) (Or.inl rfl)
    rwa [List.append_nil, List.append_nil] at htoken
  | @negative int hint =>
    have htoken := Token.mk (Or.inr rfl) hint (Or.inl rfl) (Or.inl rfl)
    rwa [List.append_nil, List.append_nil] at htoken

theorem takeWhile_digits {w : Bytes} (h : ∀ c ∈ w, isDigit c = true) : w.takeWhile isDigit = w :=
  List.takeWhile_eq_self_iff.mpr fun c hc => h c hc

/-- `std::from_chars` on an integer token: its value, where it fits. -/
theorem int64FromChars_token {w : Bytes} {z : ℤ} (h : IntegerToken w z) :
    int64FromChars w = if -2^63 ≤ z ∧ z < 2^63 then some (Int64.ofInt z) else none := by
  cases h with
  | @positive _ hint =>
    obtain ⟨hne, hdigits⟩ := hint.digits
    have hpeek : peek w ≠ MINUS := by
      obtain ⟨c, ds, rfl⟩ := List.exists_cons_of_ne_nil hne
      rintro rfl
      exact absurd (hdigits MINUS (by simp)) (by decide)
    unfold int64FromChars
    simp only [if_neg hpeek, takeWhile_digits hdigits, if_neg hne]
  | @negative int hint =>
    obtain ⟨hne, hdigits⟩ := hint.digits
    have hpeek : peek (MINUS :: int) = MINUS := rfl
    unfold int64FromChars
    simp only [if_pos hpeek, List.tail_cons, takeWhile_digits hdigits, if_neg hne]

theorem IntegerToken.unique {w : Bytes} {z z' : ℤ} (h : IntegerToken w z)
    (h' : IntegerToken w z') : z = z' := by
  cases h with
  | positive hint =>
    cases h' with
    | positive _ => rfl
    | negative _ => exact absurd (hint.digits.2 MINUS (by simp)) (by decide)
  | negative hint =>
    cases h' with
    | positive hint' => exact absurd (hint'.digits.2 MINUS (by simp)) (by decide)
    | negative _ => rfl

section
variable {δ : Type} (lib : Doubles δ)

/-- What a token is converted to is the number it denotes. -/
theorem convertNumber_iff {w : Bytes} {real : Bool} (h : Token w real) (j : Json δ) :
    convertNumber lib real w = some j ↔ Number lib w j := by
  by_cases hint : ∃ z, IntegerToken w z ∧ InInt64 z
  · obtain ⟨z, hz, hrange⟩ := hint
    obtain rfl : real = false := h.integer_iff.mp ⟨z, hz⟩
    have hv : (Int64.ofInt z).toInt = z := Int64.toInt_ofInt_of_le hrange.1 hrange.2
    have hconvert : convertNumber lib false w = some (.int (Int64.ofInt z)) := by
      have hchars := (int64FromChars_token hz).trans (if_pos hrange)
      simp [convertNumber, hchars]
    rw [hconvert, Option.some.injEq]
    constructor
    · rintro rfl
      exact .int (hv.symm ▸ hz)
    · intro hj
      cases hj with
      | @int v hv' => rw [hz.unique hv', Int64.ofInt_toInt]
      | double _ hout => exact absurd hrange (hout z hz)
  · have hout : ∀ z, IntegerToken w z → ¬InInt64 z := fun z hz hrange => hint ⟨z, hz, hrange⟩
    have hnone : (if real then none else int64FromChars w) = none := by
      cases real with
      | true => rfl
      | false =>
        obtain ⟨z, hz⟩ := h.integer_iff.mpr rfl
        rw [if_neg (by simp), int64FromChars_token hz]
        exact if_neg (hout z hz)
    have hconvert : convertNumber lib real w = some j ↔
        ∃ d, j = .double d ∧ lib.fromChars w = some (d, []) ∧ lib.isFinite d = true := by
      unfold convertNumber
      rw [hnone]
      cases lib.fromChars w with
      | none => simp
      | some x =>
        obtain ⟨d, rest⟩ := x
        simp only [ne_eq, Bool.not_eq_true', ite_eq_iff, reduceCtorEq, and_false, false_or, not_or,
          not_not, Bool.not_eq_false, Option.some.injEq, Prod.mk.injEq]
        constructor
        · rintro ⟨⟨rfl, hfinite⟩, rfl⟩
          exact ⟨d, rfl, ⟨rfl, rfl⟩, hfinite⟩
        · rintro ⟨d', rfl, ⟨rfl, rfl⟩, hfinite⟩
          exact ⟨⟨rfl, hfinite⟩, rfl⟩
    rw [hconvert]
    constructor
    · rintro ⟨d, rfl, hd, hfinite⟩
      exact .double ((numberToken_iff w).mpr ⟨real, h⟩) hout hd hfinite
    · intro hj
      cases hj with
      | @int v hv => exact absurd ⟨v.le_toInt, v.toInt_lt⟩ (hout _ hv)
      | @double d _ _ hd hfinite => exact ⟨d, rfl, hd, hfinite⟩

theorem Number.token {w : Bytes} {j : Json δ} (h : Number lib w j) : ∃ real, Token w real := by
  cases h with
  | int hv => exact ⟨false, hv.token⟩
  | double htoken _ _ _ => exact (numberToken_iff w).mp htoken

theorem parseNumber_eq_some_iff (s : Bytes) (j : Json δ) (r : Bytes) :
    parseNumber lib s = some (j, r) ↔ ∃ t frac u exp, parseInteger s = some t ∧
      parseFraction t = some (frac, u) ∧ parseExponent u = some (exp, r) ∧
      convertNumber lib (frac || exp) (s.take (s.length - r.length)) = some j := by
  simp only [parseNumber, Option.bind_eq_bind, Option.bind_eq_some_iff, Prod.exists,
    Option.pure_def, Option.some.injEq, Prod.mk.injEq]
  constructor
  · rintro ⟨t, ht, frac, u, hu, exp, r', hr, v, hv, rfl, rfl⟩
    exact ⟨t, frac, u, exp, ht, hu, hr, hv⟩
  · rintro ⟨t, frac, u, exp, ht, hu, hr, hv⟩
    exact ⟨t, ht, frac, u, hu, exp, r, hr, j, hv, rfl, rfl⟩

theorem reads_number : Reads (parseNumber lib) (Number lib) EndsNumber := by
  constructor
  · intro s j r h
    obtain ⟨t, frac, u, exp, ht, hu, hr, hv⟩ := (parseNumber_eq_some_iff lib s j r).mp h
    obtain ⟨sign, int, rfl, hsign, hint⟩ := parseInteger_sound ht
    obtain ⟨f, rfl, hf, rfl⟩ := parseFraction_sound hu
    obtain ⟨e, rfl, he, rfl⟩ := parseExponent_sound hr
    have htoken := Token.mk hsign hint hf he
    have hsplit : sign ++ int ++ (f ++ (e ++ r)) = sign ++ int ++ f ++ e ++ r := by simp
    rw [hsplit] at hv ⊢
    rw [List.length_append, Nat.add_sub_cancel, List.take_left] at hv
    exact ⟨_, rfl, (convertNumber_iff lib htoken j).mp hv⟩
  · intro w j r h hr
    obtain ⟨real, htoken⟩ := h.token
    have hv := (convertNumber_iff lib htoken j).mpr h
    cases htoken with
    | @mk sign int f e hsign hint hf he =>
      have hafter : ∀ c u, e ++ r = c :: u → isDigit c = false ∧ c ≠ DOT := by
        intro c u hcu
        rcases he with rfl | ⟨e, sign, ds, rfl, he, -⟩
        · exact ⟨(hr c u hcu).1, (hr c u hcu).2.1⟩
        · cases hcu
          rcases he with rfl | rfl
          · decide
          · decide
      have hunblank : Unblank isDigit (f ++ (e ++ r)) := by
        intro c u hcu
        rcases hf with rfl | ⟨ds, rfl, -⟩
        · exact (hafter c u hcu).1
        · cases hcu
          decide
      refine (parseNumber_eq_some_iff lib _ j r).mpr ⟨f ++ (e ++ r), _, e ++ r, _, ?_,
        parseFraction_complete hf hafter, parseExponent_complete he hr, ?_⟩
      · rw [List.append_assoc _ e r, List.append_assoc _ f]
        exact parseInteger_complete hsign hint hunblank
      · rw [List.length_append, Nat.add_sub_cancel, List.take_left]
        exact hv

/-- A number starts with a digit or a minus. -/
theorem Number.start {w : Bytes} {j : Json δ} (h : Number lib w j) :
    ∃ c t, w = c :: t ∧ (isDigit c = true ∨ c = MINUS) := by
  obtain ⟨real, htoken⟩ := h.token
  cases htoken with
  | @mk sign int f e hsign hint hf he =>
    rcases hsign with rfl | rfl
    · obtain ⟨hne, hdigits⟩ := hint.digits
      obtain ⟨c, ds, rfl⟩ := List.exists_cons_of_ne_nil hne
      exact ⟨c, _, rfl, Or.inl (hdigits c (by simp))⟩
    · exact ⟨MINUS, _, rfl, Or.inr rfl⟩

end

end Vermell.Json
