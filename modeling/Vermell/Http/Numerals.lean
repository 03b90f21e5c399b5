import Vermell.Http.Chars

/-! Decimal numerals: what `std::to_chars` writes for an integer, and that reading it back gives the
integer again. -/
namespace Vermell.Http

def MINUS : UInt8 := 45

/-- `std::to_chars` of an unsigned value. -/
def toChars (n : ℕ) : Bytes := (Nat.toDigits 10 n).map fun c => c.toNat.toUInt8

/-- `std::to_chars` of a signed value. -/
def toCharsInt (v : ℤ) : Bytes := if v < 0 then MINUS :: toChars v.natAbs else toChars v.natAbs

/-- The number a run of hexadecimal digits denotes behind digits of value `n`. -/
def hexNumeralFrom (n : ℕ) (w : Bytes) : Option ℕ :=
  w.foldlM (fun n c => (hexValue c).map fun d => n*16 + d) n

/-- The number a run of hexadecimal digits denotes. -/
def hexNumeral (w : Bytes) : Option ℕ := hexNumeralFrom 0 w

/-- The integer part of a numeral without leading zeros. -/
def IntPart (w : Bytes) : Prop :=
  w = [48] ∨ ∃ c ds, w = c :: ds ∧ isDigit c = true ∧ c ≠ 48 ∧ ∀ d ∈ ds, isDigit d = true

theorem toChars_digit {d : ℕ} (h : d < 10) : toChars d = [48 + d.toUInt8] := by
  unfold toChars
  rw [Nat.toDigits_of_lt_base h]
  interval_cases d <;> rfl

theorem toChars_step {n : ℕ} (h : 10 ≤ n) :
    toChars n = toChars (n/10) ++ [48 + (n%10).toUInt8] := by
  have hlast := toChars_digit (show n%10 < 10 by omega)
  unfold toChars at hlast ⊢
  rw [Nat.toDigits_of_lt_base (by omega)] at hlast
  rw [Nat.toDigits_of_base_le (by omega) h, List.map_append, hlast]

theorem isDigit_digit {d : ℕ} (h : d < 10) :
    isDigit (48 + d.toUInt8) = true ∧ (48 + d.toUInt8).toNat - 48 = d := by
  interval_cases d <;> decide

theorem decimal_concat (ds : Bytes) (c : UInt8) :
    decimal (ds ++ [c]) = decimal ds*10 + (c.toNat - 48) := by
  simp [decimal, List.foldl_append]

theorem decimal_toChars (n : ℕ) : decimal (toChars n) = n := by
  induction n using Nat.strong_induction_on with
  | _ n ih =>
    by_cases h : n < 10
    · rw [toChars_digit h]
      simpa [decimal] using (isDigit_digit h).2
    · rw [toChars_step (by omega), decimal_concat, ih (n/10) (by omega),
        (isDigit_digit (show n%10 < 10 by omega)).2]
      omega

theorem intPart_toChars (n : ℕ) : IntPart (toChars n) := by
  induction n using Nat.strong_induction_on with
  | _ n ih =>
    by_cases h : n < 10
    · rw [toChars_digit h]
      by_cases hz : n = 0
      · subst hz
        exact Or.inl rfl
      · refine Or.inr ⟨_, [], rfl, (isDigit_digit h).1, ?_, by simp⟩
        interval_cases n <;> first | omega | decide
    · have hlast := (isDigit_digit (show n%10 < 10 by omega)).1
      rw [toChars_step (by omega)]
      rcases ih (n/10) (by omega) with hz | ⟨c, ds, hc, hdigit, hne, hds⟩
      · -- the numeral of a positive quotient is not the zero
        have hval := decimal_toChars (n/10)
        rw [hz] at hval
        have : decimal [48] = 0 := rfl
        omega
      · refine Or.inr ⟨c, ds ++ [48 + (n%10).toUInt8], by rw [hc]; rfl, hdigit, hne, ?_⟩
        intro d hd
        cases List.mem_append.mp hd with
        | inl hd =>
          exact hds d hd
        | inr hd =>
          rw [List.mem_singleton.mp hd]
          exact hlast

theorem IntPart.digits {w : Bytes} (h : IntPart w) : w ≠ [] ∧ ∀ c ∈ w, isDigit c = true := by
  rcases h with rfl | ⟨c, ds, rfl, hc, -, hds⟩
  · exact ⟨by decide, List.forall_mem_singleton.mpr (by decide)⟩
  · refine ⟨by simp, ?_⟩
    intro d hd
    rcases List.mem_cons.mp hd with rfl | hd
    · exact hc
    · exact hds d hd

theorem toChars_digits (n : ℕ) : toChars n ≠ [] ∧ ∀ c ∈ toChars n, isDigit c = true :=
  (intPart_toChars n).digits

theorem digit_value {c : UInt8} (h : isDigit c = true) :
    c.toNat - 48 < 10 ∧ 48 + (c.toNat - 48).toUInt8 = c := by
  simp only [isDigit, Bool.and_eq_true, decide_eq_true_eq] at h
  obtain ⟨n, hn, rfl⟩ : ∃ n : ℕ, n < 58 ∧ c = UInt8.ofNat n :=
    ⟨c.toNat, Nat.lt_succ_of_le h.2, (UInt8.ofNat_toNat).symm⟩
  revert h
  interval_cases n <;> decide

/-- An integer part is the numeral of its value. -/
theorem toChars_decimal {w : Bytes} (h : IntPart w) : toChars (decimal w) = w := by
  rcases h with rfl | ⟨c, ds, rfl, hc, hzero, hds⟩
  · rfl
  · induction ds using List.reverseRecOn with
    | nil =>
      obtain ⟨hlt, hvalue⟩ := digit_value hc
      have hdecimal : decimal [c] = c.toNat - 48 := by simp [decimal]
      rw [hdecimal, toChars_digit hlt, hvalue]
    | append_singleton ds d ih =>
      have hfront := ih fun e he => hds e (List.mem_append_left _ he)
      obtain ⟨hlt, hvalue⟩ := digit_value (hds d (by simp))
      -- the first digit is not zero, so neither is the value in front of the last one
      have hpos : decimal (c :: ds) ≠ 0 := by
        intro h0
        rw [h0] at hfront
        exact hzero (List.cons.inj hfront).1.symm
      have hdecimal : decimal (c :: (ds ++ [d])) = decimal (c :: ds)*10 + (d.toNat - 48) :=
        decimal_concat (c :: ds) d
      rw [hdecimal, toChars_step (by omega), show (decimal (c :: ds)*10 + (d.toNat - 48))/10 =
        decimal (c :: ds) by omega, show (decimal (c :: ds)*10 + (d.toNat - 48)) % 10 =
        d.toNat - 48 by omega, hfront, hvalue]
      rfl

end Vermell.Http
