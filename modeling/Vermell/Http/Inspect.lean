import Vermell.Http.ChunkScan

/-! What a framing verdict depends on. The head decides once it is complete; the body adds the
consumed chunks or the declared length. Verdicts are therefore stable under appended bytes. -/
namespace Vermell.Http
open Text

/-- The verdicts that answer a request with an error. -/
def Framing.Rejects (f : Framing) : Prop :=
  f = .badRequest ∨ f = .tooManyHeaders ∨ f = .notImplemented

theorem headVerdict_rejects {head : Bytes} {separator : ℕ} {f : Framing}
    (h : headVerdict head separator = some f) : f.Rejects := by
  unfold headVerdict at h
  simp only at h
  split_ifs at h <;> cases h <;> simp [Framing.Rejects]

theorem headVerdict_eq_none_iff (head : Bytes) (separator : ℕ) :
    headVerdict head separator = none ↔
      (scanHead head).tooMany = false ∧ (scanHead head).bad = false ∧
      (scanHead head).transferEncoding = false ∧ lineEndingsOk head separator = true := by
  unfold headVerdict
  simp only
  split_ifs <;> simp_all

theorem le_declaredTotal (contentLength base : ℕ) :
    min base npos ≤ declaredTotal contentLength base := by
  unfold declaredTotal
  split_ifs <;> omega

/-- A head that is still on the wire is never complete. -/
theorem scanPartial_ne_complete (lines : ℕ) (pieces : List Bytes) :
    scanPartial lines pieces ≠ .complete := by
  induction pieces generalizing lines with
  | nil => simp [scanPartial]
  | cons line rest ih =>
    cases rest with
    | nil =>
      unfold scanPartial
      split_ifs <;> simp
    | cons next rest =>
      unfold scanPartial
      split_ifs
      · simp
      · simp
      · exact ih (lines + 1)

/-- A request is complete exactly when its head is sound and its body is all there. -/
theorem inspect_complete_iff (raw : Bytes) (n : ℕ) :
    inspect raw = ⟨.complete, n⟩ ↔ ∃ headEnd separator,
      headBounds raw = some (headEnd, separator) ∧
      headVerdict (raw.take headEnd) separator = none ∧
      inspectBody (scanHead (raw.take headEnd)) (headEnd + separator) raw = ⟨.complete, n⟩ := by
  unfold inspect
  cases hb : headBounds raw with
  | none =>
    simp only [Inspection.mk.injEq, reduceCtorEq, false_and, exists_const, iff_false, not_and]
    exact fun h => absurd h (scanPartial_ne_complete _ _)
  | some b =>
    obtain ⟨headEnd, separator⟩ := b
    cases hv : headVerdict (raw.take headEnd) separator with
    | none => simp [hv]
    | some f =>
      have hf := headVerdict_rejects hv
      simp only [hv, Inspection.mk.injEq, Option.some.injEq, Prod.mk.injEq]
      constructor
      · rintro ⟨rfl, -⟩
        simp [Framing.Rejects] at hf
      · rintro ⟨_, _, ⟨rfl, rfl⟩, hnone, -⟩
        simp [hv] at hnone

theorem inspect_framing_complete_iff (raw : Bytes) :
    (inspect raw).framing = .complete ↔ ∃ headEnd separator,
      headBounds raw = some (headEnd, separator) ∧
      headVerdict (raw.take headEnd) separator = none ∧
      (inspectBody (scanHead (raw.take headEnd)) (headEnd + separator) raw).framing =
        .complete := by
  have heta (x : Inspection) : x.framing = .complete ↔ ∃ n, x = ⟨.complete, n⟩ := by
    cases x
    simp
  simp only [heta, inspect_complete_iff]
  constructor
  · rintro ⟨n, headEnd, separator, hb, hv, hbody⟩
    exact ⟨headEnd, separator, hb, hv, n, hbody⟩
  · rintro ⟨headEnd, separator, hb, hv, n, hbody⟩
    exact ⟨n, headEnd, separator, hb, hv, hbody⟩

theorem inspectBody_complete {scan : HeadScan} {base n : ℕ} {raw : Bytes}
    (hbase : base ≤ raw.length) (h : inspectBody scan base raw = ⟨.complete, n⟩) :
    min base npos ≤ n ∧ n ≤ raw.length := by
  unfold inspectBody at h
  cases hc : scan.chunked with
  | true =>
    simp only [hc, if_true] at h
    cases hs : (scanChunked (raw.drop base)).state with
    | complete =>
      have hle := scanChunked_consumed hs
      simp only [hs, Inspection.mk.injEq, true_and] at h
      rw [List.length_drop] at hle
      omega
    | incomplete => simp [hs] at h
    | malformed => simp [hs] at h
  | false =>
    simp only [hc, Bool.false_eq_true, if_false, Inspection.mk.injEq] at h
    obtain ⟨hcomplete, rfl⟩ := h
    have hge := le_declaredTotal scan.contentLength base
    split_ifs at hcomplete with hle
    omega

/-- A complete request stays complete, with the same length, on every buffer that agrees up to
its end. -/
theorem inspectBody_congr {scan : HeadScan} {base n k : ℕ} {raw t : Bytes}
    (hst : raw.take k = t.take k) (hk : n ≤ k) (hbase : base ≤ n) (hn : n ≤ raw.length)
    (h : inspectBody scan base raw = ⟨.complete, n⟩) :
    inspectBody scan base t = ⟨.complete, n⟩ := by
  have hnt := length_ge_of_take_eq hst hk hn
  unfold inspectBody at h ⊢
  cases hc : scan.chunked with
  | true =>
    simp only [hc, if_true] at h ⊢
    cases hs : (scanChunked (raw.drop base)).state with
    | complete =>
      simp only [hs, Inspection.mk.injEq, true_and] at h
      have hdrop : (raw.drop base).take (k - base) = (t.drop base).take (k - base) := by
        rw [← List.drop_take, ← List.drop_take, hst]
      rw [scanChunked_congr hdrop hs (by omega), hs]
      simp only [h]
    | incomplete => simp [hs] at h
    | malformed => simp [hs] at h
  | false =>
    simp only [hc, Bool.false_eq_true, if_false, Inspection.mk.injEq] at h ⊢
    obtain ⟨-, rfl⟩ := h
    simp [hnt]

theorem take_append_length_le {raw : Bytes} {n : ℕ} (s : Bytes) (hn : n ≤ raw.length) :
    raw.take n = (raw ++ s).take n := by
  rw [List.take_append_of_le_length hn]

theorem inspect_congr {raw t : Bytes} {n : ℕ} (hlen : raw.length ≤ npos)
    (hst : raw.take n = t.take n) (h : inspect raw = ⟨.complete, n⟩) :
    inspect t = ⟨.complete, n⟩ := by
  obtain ⟨headEnd, separator, hb, hv, hbody⟩ := (inspect_complete_iff _ _).mp h
  have hle := headBounds_le hb
  have hn := inspectBody_complete hle.1 hbody
  have hhead : raw.take headEnd = t.take headEnd := by
    have hcut := congrArg (List.take headEnd) hst
    rwa [List.take_take, List.take_take, min_eq_left (by omega)] at hcut
  refine (inspect_complete_iff _ _).mpr
    ⟨headEnd, separator, headBounds_congr hst (by omega) hb, ?_, ?_⟩
  · rwa [← hhead]
  · rw [← hhead]
    exact inspectBody_congr hst le_rfl (by omega) hn.2 hbody

theorem inspect_complete_le {raw : Bytes} {n : ℕ} (h : inspect raw = ⟨.complete, n⟩) :
    0 < n ∧ n ≤ raw.length := by
  obtain ⟨headEnd, separator, hb, -, hbody⟩ := (inspect_complete_iff _ _).mp h
  have hle := headBounds_le hb
  have hn := inspectBody_complete hle.1 hbody
  have hpos := npos_pos
  omega

/-- Appended bytes never change a complete request, and its own bytes are enough for it. -/
theorem inspect_complete_stable {raw : Bytes} {n : ℕ} (hlen : raw.length ≤ npos)
    (h : inspect raw = ⟨.complete, n⟩) :
    n ≤ raw.length ∧ (∀ s, inspect (raw ++ s) = ⟨.complete, n⟩) ∧
      inspect (raw.take n) = ⟨.complete, n⟩ := by
  have hn := inspect_complete_le h
  refine ⟨hn.2, fun s => inspect_congr hlen (take_append_length_le s hn.2) h, ?_⟩
  exact inspect_congr hlen (by rw [List.take_take, min_self]) h

theorem inspect_of_headBounds {raw : Bytes} {headEnd separator : ℕ}
    (hb : headBounds raw = some (headEnd, separator)) :
    inspect raw = match headVerdict (raw.take headEnd) separator with
      | some framing => ⟨framing, 0⟩
      | none => inspectBody (scanHead (raw.take headEnd)) (headEnd + separator) raw := by
  cases hv : headVerdict (raw.take headEnd) separator with
  | none => simp only [inspect, hb, hv]
  | some framing => simp only [inspect, hb, hv]

/-- Behind a complete head, appended bytes only reach the body. -/
theorem inspect_append_of_headBounds {raw : Bytes} {headEnd separator : ℕ}
    (hb : headBounds raw = some (headEnd, separator)) (s : Bytes) :
    inspect (raw ++ s) = match headVerdict (raw.take headEnd) separator with
      | some framing => ⟨framing, 0⟩
      | none => inspectBody (scanHead (raw.take headEnd)) (headEnd + separator) (raw ++ s) := by
  have hle := headBounds_le hb
  rw [inspect_of_headBounds (headBounds_congr (take_append_length_le s hle.1) le_rfl hb),
    ← take_append_length_le s (by omega : headEnd ≤ raw.length)]

/-- A total that is reported before the end is declared by the head. -/
theorem inspect_declared {raw : Bytes} {n : ℕ} (hn : 0 < n) (h : inspect raw = ⟨.incomplete, n⟩) :
    ∃ headEnd separator, headBounds raw = some (headEnd, separator) ∧
      headVerdict (raw.take headEnd) separator = none ∧
      (scanHead (raw.take headEnd)).chunked = false ∧
      declaredTotal (scanHead (raw.take headEnd)).contentLength (headEnd + separator) = n := by
  cases hb : headBounds raw with
  | none =>
    simp only [inspect, hb, Inspection.mk.injEq] at h
    omega
  | some b =>
    obtain ⟨headEnd, separator⟩ := b
    rw [inspect_of_headBounds hb] at h
    refine ⟨headEnd, separator, rfl, ?_⟩
    cases hv : headVerdict (raw.take headEnd) separator with
    | some f =>
      simp only [hv, Inspection.mk.injEq] at h
      omega
    | none =>
      simp only [hv] at h
      unfold inspectBody at h
      cases hc : (scanHead (raw.take headEnd)).chunked with
      | true =>
        -- a chunked request that waits reports no total
        simp only [hc, if_true] at h
        split at h <;> simp only [Inspection.mk.injEq, reduceCtorEq, false_and, true_and] at h
        omega
      | false =>
        simp only [hc, Bool.false_eq_true, if_false, Inspection.mk.injEq] at h
        exact ⟨rfl, rfl, h.2⟩

/-- Once a declared total is known, only the number of bytes decides. -/
theorem inspect_incomplete_stable {raw : Bytes} {n : ℕ} (hn : 0 < n)
    (h : inspect raw = ⟨.incomplete, n⟩) (s : Bytes) :
    inspect (raw ++ s) =
      ⟨if (raw ++ s).length ≥ n then .complete else .incomplete, n⟩ := by
  obtain ⟨headEnd, separator, hb, hv, hc, htotal⟩ := inspect_declared hn h
  rw [inspect_append_of_headBounds hb]
  simp only [hv, inspectBody, hc, Bool.false_eq_true, if_false, htotal]

/-- A complete head that is rejected is rejected in every longer buffer. -/
theorem inspect_reject_stable {raw : Bytes} (hb : headBounds raw ≠ none)
    (h : (inspect raw).framing.Rejects) (s : Bytes) : (inspect (raw ++ s)).framing.Rejects := by
  obtain ⟨⟨headEnd, separator⟩, hb⟩ := Option.ne_none_iff_exists'.mp hb
  have hle := headBounds_le hb
  rw [inspect_of_headBounds hb] at h
  rw [inspect_append_of_headBounds hb]
  cases hv : headVerdict (raw.take headEnd) separator with
  | some f => exact headVerdict_rejects hv
  | none =>
    simp only [hv] at h ⊢
    unfold inspectBody at h ⊢
    cases hc : (scanHead (raw.take headEnd)).chunked with
    | true =>
      simp only [hc, if_true] at h ⊢
      cases hs : (scanChunked (raw.drop (headEnd + separator))).state with
      | malformed =>
        have happ := scanChunked_malformed_append s hs
        rw [← List.drop_append_of_le_length hle.1] at happ
        simp [happ, Framing.Rejects]
      | complete => simp [hs, Framing.Rejects] at h
      | incomplete => simp [hs, Framing.Rejects] at h
    | false =>
      simp only [hc, Bool.false_eq_true, if_false] at h
      split at h <;> simp [Framing.Rejects] at h

end Vermell.Http
