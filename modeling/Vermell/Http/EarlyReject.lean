import Vermell.Http.Inspect
import Vermell.Text.Lines

/-! Rejection while the head is still on the wire. The early scan counts every LF and every byte of
a line; `scan_head` passes over empty lines, over a head without LF and over the CR of the
terminator. A request between the two limits is taken at once but not in pieces. -/
namespace Vermell.Http
open Text

/-- What the early scan lets through: LFs and line lengths, the partial line included. -/
def WithinEarlyLimits (head : Bytes) : Prop :=
  head.count LF ≤ MAX_HEADERS + 1 ∧ ∀ line ∈ head.splitOn LF, line.length ≤ MAX_HEADER_LINE

/-- A request whose head is sound and whose body is complete, and which is beyond the early limits
one byte in front of the end of its head. -/
def BeyondEarlyLimits (raw : Bytes) : Prop :=
  ∃ headEnd separator, headBounds raw = some (headEnd, separator) ∧
    headVerdict (raw.take headEnd) separator = none ∧
    (inspectBody (scanHead (raw.take headEnd)) (headEnd + separator) raw).framing = .complete ∧
    ¬ WithinEarlyLimits (raw.take (headEnd + separator - 1))

theorem scanPartial_incomplete_iff {lines : ℕ} (hlines : lines ≤ MAX_HEADERS + 1)
    (pieces : List Bytes) :
    scanPartial lines pieces = .incomplete ↔
      lines + (pieces.length - 1) ≤ MAX_HEADERS + 1 ∧ ∀ l ∈ pieces, l.length ≤ MAX_HEADER_LINE := by
  induction pieces generalizing lines with
  | nil => simpa [scanPartial] using hlines
  | cons line rest ih =>
    cases rest with
    | nil =>
      unfold scanPartial
      split_ifs with hlen
      · simp [hlen]
      · simpa [hlines] using hlen
    | cons next rest =>
      unfold scanPartial
      split_ifs with hmany hlen
      · simp only [List.length_cons, false_iff]
        omega
      · simp [hlen]
      · rw [ih (by omega)]
        simp only [List.length_cons, List.forall_mem_cons]
        constructor
        · rintro ⟨hcount, hrest⟩
          exact ⟨by omega, by omega, hrest⟩
        · rintro ⟨hcount, -, hrest⟩
          exact ⟨by omega, hrest⟩

theorem scanPartial_rejects_iff (lines : ℕ) (pieces : List Bytes) :
    (scanPartial lines pieces).Rejects ↔ scanPartial lines pieces ≠ .incomplete := by
  induction pieces generalizing lines with
  | nil => simp [scanPartial, Framing.Rejects]
  | cons line rest ih =>
    cases rest with
    | nil =>
      unfold scanPartial
      split_ifs <;> simp [Framing.Rejects]
    | cons next rest =>
      unfold scanPartial
      split_ifs
      · simp [Framing.Rejects]
      · simp [Framing.Rejects]
      · exact ih (lines + 1)

/-- Without a terminator, the limits decide. -/
theorem inspect_rejects_iff {raw : Bytes} (hb : headBounds raw = none) :
    (inspect raw).framing.Rejects ↔ ¬ WithinEarlyLimits raw := by
  have hcount := count_eq_length_splitOn (a := LF) raw
  unfold inspect WithinEarlyLimits
  rw [hb]
  simp only
  rw [scanPartial_rejects_iff, Ne, scanPartial_incomplete_iff (by omega), ← hcount]
  simp

theorem WithinEarlyLimits.of_append {raw s : Bytes} (h : WithinEarlyLimits (raw ++ s)) :
    WithinEarlyLimits raw := by
  obtain ⟨hcount, hlines⟩ := h
  rw [List.count_append] at hcount
  refine ⟨by omega, ?_⟩
  intro line hline
  obtain ⟨line', hline', hpre⟩ := exists_prefix_splitOn_append raw s hline
  exact hpre.length_le.trans (hlines line' hline')

/-- The verdict on a byte string does not depend on how it is cut into pieces, exactly when it is no
sound request beyond the limits of the early scan. -/
theorem reject_stable_iff (t : Bytes) :
    (∀ raw s, raw ++ s = t → (inspect raw).framing.Rejects → (inspect t).framing ≠ .complete) ↔
      ¬ BeyondEarlyLimits t := by
  constructor
  · rintro hstable ⟨headEnd, separator, hb, hv, hbody, hbeyond⟩
    have hpos := (headBounds_le hb).2
    have hnone := headBounds_take_none hb (n := headEnd + separator - 1) (by omega)
    have hrej := (inspect_rejects_iff hnone).mpr hbeyond
    apply hstable _ _ (List.take_append_drop _ t) hrej
    rw [inspect_of_headBounds hb, hv]
    exact hbody
  · rintro hlimits raw s rfl hrej hcomplete
    by_cases hnone : headBounds raw = none
    · obtain ⟨headEnd, separator, hb, hv, hbody⟩ := (inspect_framing_complete_iff _).mp hcomplete
      refine hlimits ⟨headEnd, separator, hb, hv, hbody, fun hwithin => ?_⟩
      -- the rejected bytes lie in front of the end of the head
      have hshort : raw.length < headEnd + separator := by
        by_contra hge
        have hraw := headBounds_congr (take_append_length_le s (not_lt.mp hge)).symm le_rfl hb
        rw [hnone] at hraw
        cases hraw
      rw [List.take_append, List.take_of_length_le (by omega)] at hwithin
      exact (inspect_rejects_iff hnone).mp hrej hwithin.of_append
    · have hrej' := inspect_reject_stable hnone hrej s
      rw [hcomplete] at hrej'
      simp [Framing.Rejects] at hrej'

/-- Fifty-one fields, each ended by a bare LF and followed by a blank CRLF line. -/
def sparseHead : Bytes :=
  bytes "GET / HTTP/1.0\n" ++ (List.replicate 51 (bytes "A:\n\r\n")).flatten

/-- Rejected as soon as its 102 lines are there, and accepted as a whole. -/
theorem sparse_head_cut : ¬ ∀ raw s, (inspect raw).framing.Rejects →
    (inspect (raw ++ s)).framing ≠ .complete := by
  intro hall
  apply hall sparseHead (bytes "B:\n\n")
  · right; left
    decide +kernel
  · decide +kernel

end Vermell.Http
