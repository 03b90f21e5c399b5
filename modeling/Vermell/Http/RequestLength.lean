import Vermell.Http.Inspect

/-! When the request in front of a buffer is longer than a limit. The first bytes up to the limit
decide it, and a request that comes to its end within the limit is never longer. -/
namespace Vermell.Http
open Text

/-- The request that the bytes start with is longer than the limit: its head alone, or its head
with the declared length, or with the chunks that the limit leaves room for. -/
def LongerThan (limit : ℕ) (raw : Bytes) : Prop :=
  match headBounds raw with
  | none => limit < raw.length
  | some (headEnd, separator) =>
    let base := headEnd + separator
    let scan := scanHead (raw.take headEnd)
    limit < base ∨ headVerdict (raw.take headEnd) separator = none ∧
      if scan.chunked then
        limit < raw.length ∧ (scanChunked ((raw.take limit).drop base)).state = .incomplete
      else limit < declaredTotal scan.contentLength base

/-- The first bytes up to the limit hold no whole head, or a request that goes on behind them. -/
def Unended (limit : ℕ) (raw : Bytes) : Prop :=
  headBounds (raw.take limit) = none ∨ (inspect (raw.take limit)).framing = .incomplete

theorem inspectBody_incomplete_iff (scan : HeadScan) (base : ℕ) (raw : Bytes) :
    (inspectBody scan base raw).framing = .incomplete ↔
      if scan.chunked then (scanChunked (raw.drop base)).state = .incomplete
      else raw.length < declaredTotal scan.contentLength base := by
  unfold inspectBody
  cases scan.chunked with
  | true =>
    simp only [if_true]
    cases (scanChunked (raw.drop base)).state <;> simp
  | false =>
    simp only [Bool.false_eq_true, if_false, ge_iff_le]
    split_ifs with hle
    · simpa using hle
    · simpa using hle

/-- A head that ends within the limit is the head of the first bytes up to the limit. -/
theorem unended_of_headBounds {limit : ℕ} {raw : Bytes} {headEnd separator : ℕ}
    (hb : headBounds raw = some (headEnd, separator)) (hle : headEnd + separator ≤ limit) :
    Unended limit raw ↔ headVerdict (raw.take headEnd) separator = none ∧
      (inspectBody (scanHead (raw.take headEnd)) (headEnd + separator)
        (raw.take limit)).framing = .incomplete := by
  have htake : (raw.take limit).take headEnd = raw.take headEnd := by
    rw [List.take_take, min_eq_left (by omega)]
  have hfirst : headBounds (raw.take limit) = some (headEnd, separator) :=
    headBounds_congr (by rw [List.take_take, min_self]) hle hb
  unfold Unended
  rw [inspect_of_headBounds hfirst, htake, hfirst]
  simp only [reduceCtorEq, false_or]
  cases hv : headVerdict (raw.take headEnd) separator with
  | none => simp
  | some framing =>
    have hf := headVerdict_rejects hv
    simp only [reduceCtorEq, false_and, iff_false]
    rintro rfl
    simp [Framing.Rejects] at hf

/-- In a buffer beyond the limit, the request in front is longer than the limit exactly when the
first bytes up to the limit do not end it. -/
theorem longerThan_iff_unended {limit : ℕ} {raw : Bytes} (hlen : limit < raw.length) :
    LongerThan limit raw ↔ Unended limit raw := by
  have htake : (raw.take limit).length = limit := by
    rw [List.length_take, min_eq_left hlen.le]
  unfold LongerThan
  cases hb : headBounds raw with
  | none =>
    have hnone : headBounds (raw.take limit) = none := by
      by_contra hsome
      obtain ⟨⟨headEnd, separator⟩, hsome⟩ := Option.ne_none_iff_exists'.mp hsome
      have hle := (headBounds_le hsome).1
      rw [htake] at hle
      have hwhole := headBounds_congr (t := raw) (by rw [List.take_take, min_self]) hle hsome
      rw [hb] at hwhole
      cases hwhole
    simp only [hlen, true_iff]
    exact Or.inl hnone
  | some b =>
    obtain ⟨headEnd, separator⟩ := b
    simp only
    by_cases hle : headEnd + separator ≤ limit
    · rw [unended_of_headBounds hb hle, inspectBody_incomplete_iff, htake]
      simp only [not_lt.mpr hle, false_or, hlen, true_and]
    · have hhead : limit < headEnd + separator := not_le.mp hle
      simp only [hhead, true_or, true_iff]
      exact Or.inl (headBounds_take_none hb hhead)

/-- A declared total beyond the limit. -/
theorem longerThan_of_declared {limit n : ℕ} {raw : Bytes} (hn : limit < n)
    (h : inspect raw = ⟨.incomplete, n⟩) : LongerThan limit raw := by
  obtain ⟨headEnd, separator, hb, hv, hc, htotal⟩ :=
    inspect_declared ((Nat.zero_le limit).trans_lt hn) h
  unfold LongerThan
  simp only [hb, hv, hc, Bool.false_eq_true, if_false, htotal, true_and]
  exact Or.inr hn

/-- The start of a request that ends within the limit is not longer than it. -/
theorem LongerThan.lt_of_complete {limit n : ℕ} {raw more : Bytes} (h : LongerThan limit raw)
    (hfits : (raw ++ more).length ≤ npos) (hi : inspect (raw ++ more) = ⟨.complete, n⟩) :
    limit < n := by
  by_contra hn
  have hn : n ≤ limit := not_lt.mp hn
  obtain ⟨headEnd, separator, hb, hv, hbody⟩ := (inspect_complete_iff _ _).mp hi
  have hbase := (inspectBody_complete (headBounds_le hb).1 hbody).1
  have hpos := inspect_complete_le hi
  by_cases hlen : limit < raw.length
  · -- the bytes up to the limit are a whole request
    have htake : (raw ++ more).take n = (raw.take limit).take n := by
      rw [List.take_take, min_eq_left hn, List.take_append_of_le_length (by omega)]
    have hcut := inspect_congr hfits htake hi
    rcases (longerThan_iff_unended hlen).mp h with hnone | hinc
    · obtain ⟨_, _, hsome, -⟩ := (inspect_complete_iff _ _).mp hcut
      rw [hnone] at hsome
      cases hsome
    · rw [hcut] at hinc
      cases hinc
  · unfold LongerThan at h
    cases hraw : headBounds raw with
    | none =>
      simp only [hraw] at h
      exact hlen h
    | some b =>
      obtain ⟨headEnd', separator'⟩ := b
      have hle := (headBounds_le hraw).1
      have hsame := headBounds_congr (take_append_length_le more hle) le_rfl hraw
      rw [hb] at hsame
      cases hsame
      rw [← take_append_length_le more (by omega : headEnd ≤ raw.length)] at hv hbody
      simp only [hraw, hlen, false_and, hv, true_and] at h
      cases h with
      | inl hhead =>
        omega
      | inr hdeclared =>
        cases hc : (scanHead (raw.take headEnd)).chunked with
        | true =>
          rw [hc] at hdeclared
          exact hdeclared
        | false =>
          simp only [hc, Bool.false_eq_true, if_false] at hdeclared
          simp only [inspectBody, hc, Bool.false_eq_true, if_false, Inspection.mk.injEq] at hbody
          omega

end Vermell.Http
