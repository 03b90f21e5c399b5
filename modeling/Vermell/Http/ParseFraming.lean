import Vermell.Http.BodyLength

/-! `parse` and `inspect` agree on framing: an accepted request is Complete with the same cut, and
it is decided by exactly the bytes up to that cut. -/
namespace Vermell.Http
open Text

/-- A body that `parse` does not take for a declared one has no length. -/
theorem contentLength_eq_zero {scan : HeadScan}
    (hno : scan.hasContentLength = false → scan.contentLength = 0)
    (hcl : ¬(scan.hasContentLength && decide (scan.contentLength > 0)) = true) :
    scan.contentLength = 0 := by
  simp only [Bool.and_eq_true, decide_eq_true_eq, not_and, not_lt, Nat.le_zero] at hcl
  cases hc : scan.hasContentLength with
  | true => exact hcl hc
  | false => exact hno hc

/-- Whatever body `parse` takes, `inspect` finds it complete. -/
theorem parseBody_complete {scan : HeadScan} {raw : Bytes} {base : ℕ} {taken : Bytes × ℕ}
    (hno : scan.hasContentLength = false → scan.contentLength = 0)
    (hex : scan.chunked = true → scan.hasContentLength = false)
    (hbase : base ≤ raw.length) (h : parseBody scan (raw.drop base) = some taken) :
    (inspectBody scan base raw).framing = .complete := by
  unfold parseBody at h
  simp only at h
  split_ifs at h with hcl hshort hch hstate
  · simp only [Bool.and_eq_true, decide_eq_true_eq] at hcl
    have hnch : scan.chunked = false := by
      rw [Bool.eq_false_iff]
      intro hch
      simp [hex hch] at hcl
    rw [List.length_drop] at hshort
    have htotal : declaredTotal scan.contentLength base ≤ raw.length := by
      unfold declaredTotal
      split_ifs <;> omega
    simp [inspectBody, hnch, htotal]
  · simp [inspectBody, hch, not_not.mp hstate]
  · have hzero := contentLength_eq_zero hno hcl
    have htotal : declaredTotal scan.contentLength base ≤ raw.length := by
      unfold declaredTotal
      split_ifs <;> omega
    simp [inspectBody, hch, htotal]

/-- And whatever body `inspect` finds complete, `parse` takes. -/
theorem parseBody_of_complete {scan : HeadScan} {raw : Bytes} {base : ℕ}
    (hex : scan.chunked = true → scan.hasContentLength = false) (hbase : base ≤ raw.length)
    (hlen : raw.length < npos) (h : (inspectBody scan base raw).framing = .complete) :
    ∃ taken, parseBody scan (raw.drop base) = some taken := by
  unfold inspectBody at h
  unfold parseBody
  cases hch : scan.chunked with
  | true =>
    simp only [hch, if_true] at h
    cases hstate : (scanChunked (raw.drop base)).state with
    | complete => exact ⟨_, by simp [hex hch, hstate]; rfl⟩
    | incomplete => simp [hstate] at h
    | malformed => simp [hstate] at h
  | false =>
    simp only [hch, Bool.false_eq_true, if_false] at h
    split_ifs at h with htotal
    have hrest : scan.contentLength ≤ (raw.drop base).length := by
      rw [List.length_drop]
      unfold declaredTotal at htotal
      split_ifs at htotal <;> omega
    simp only [not_lt.mpr hrest, Bool.false_eq_true, if_false]
    split_ifs <;> exact ⟨_, rfl⟩

/-- A complete request whose request line, header lines and Host parse is accepted. -/
theorem parse_of_complete {raw method target version : Bytes} {headers : List (Bytes × Bytes)}
    {headEnd separator : ℕ} (hlen : raw.length < npos)
    (hb : headBounds raw = some (headEnd, separator)) (hi : (inspect raw).framing = .complete)
    (hrl : parseRequestLine (requestLine (raw.take headEnd)) = some (method, target, version))
    (hf : parseFields (headerLines (raw.take headEnd)) = some headers)
    (hhost : hostOk headers version = true) : ∃ body contentLength, parse raw =
      some ({ method, target, path := (splitTarget target).1, query := (splitTarget target).2,
              version, body, headers, contentLength } : Message).parseContentType := by
  obtain ⟨_, _, hb', hv, hbody⟩ := (inspect_framing_complete_iff raw).mp hi
  obtain ⟨rfl, rfl⟩ := Prod.mk.inj (Option.some.inj (hb.symm.trans hb'))
  obtain ⟨hmany, hbad, hte, hends⟩ := (headVerdict_eq_none_iff _ _).mp hv
  have heq := scanHead_eq_foldl hf hbad hmany
  have hsum : Summarises (scanHead (raw.take headEnd)) headers := by
    rw [heq] at hbad hte ⊢
    exact summarises_foldl hbad hte
  obtain ⟨⟨body, contentLength⟩, htaken⟩ :=
    parseBody_of_complete hsum.exclusive (headBounds_le hb).1 hlen hbody
  exact ⟨body, contentLength, (parse_eq_some_iff _ _).mpr ⟨headEnd, separator, method, target,
    version, headers, body, contentLength, hb, hbad, hte, hmany, hends, hrl, hf, hhost, htaken,
    rfl⟩⟩

/-- A body that is not chunked ends where `inspect` says the request ends. -/
theorem parseBody_plain {scan : HeadScan} {raw body : Bytes} {base n contentLength : ℕ}
    (hch : scan.chunked = false) (hbase : base ≤ raw.length) (hlen : raw.length < npos)
    (hi : inspectBody scan base raw = ⟨.complete, n⟩)
    (hno : scan.hasContentLength = false → scan.contentLength = 0)
    (h : parseBody scan (raw.drop base) = some (body, contentLength)) :
    n = base + scan.contentLength ∧ body = (raw.take n).drop base := by
  have hle := inspectBody_complete hbase hi
  have hn : n = base + scan.contentLength := by
    simp only [inspectBody, hch, Bool.false_eq_true, if_false, Inspection.mk.injEq] at hi
    unfold declaredTotal at hi
    split_ifs at hi <;> omega
  refine ⟨hn, ?_⟩
  rw [List.drop_take, hn, Nat.add_sub_cancel_left]
  unfold parseBody at h
  simp only [hch, Bool.false_eq_true, if_false] at h
  split_ifs at h with hcl hshort
  · cases h
    rfl
  · cases h
    have hzero := contentLength_eq_zero hno hcl
    rw [hzero, List.take_zero]

/-- The body depends only on the bytes up to the end of the request. -/
theorem parseBody_congr {scan : HeadScan} {raw t body : Bytes} {base n k contentLength : ℕ}
    (hno : scan.hasContentLength = false → scan.contentLength = 0)
    (hex : scan.chunked = true → scan.hasContentLength = false)
    (hst : raw.take k = t.take k) (hn : n ≤ k) (hlen : raw.length < npos)
    (hbase : base ≤ raw.length) (hi : inspectBody scan base raw = ⟨.complete, n⟩)
    (h : parseBody scan (raw.drop base) = some (body, contentLength)) :
    parseBody scan (t.drop base) = some (body, contentLength) := by
  have hdrop : (raw.drop base).take (k - base) = (t.drop base).take (k - base) := by
    rw [← List.drop_take, ← List.drop_take, hst]
  have hle := inspectBody_complete hbase hi
  cases hch : scan.chunked with
  | false =>
    obtain ⟨hend, -⟩ := parseBody_plain hch hbase hlen hi hno h
    unfold parseBody at h ⊢
    simp only [hch, Bool.false_eq_true, if_false] at h ⊢
    split_ifs at h with hcl hshort
    · rw [List.length_drop] at hshort
      have hlent := length_ge_of_take_eq hdrop (i := scan.contentLength) (by omega)
        (by rw [List.length_drop]; omega)
      have hslice := slice_congr hdrop (i := 0) (k := scan.contentLength) (by omega)
      simp only [List.drop_zero] at hslice
      rw [if_pos hcl, if_neg (by omega), ← hslice, h]
    · rw [if_neg hcl, h]
  | true =>
    unfold parseBody at h ⊢
    simp only [hex hch, hch, Bool.false_and, Bool.false_eq_true, if_true, if_false] at h ⊢
    split_ifs at h with hstate
    have hcons : base + (scanChunked (raw.drop base)).consumed = n := by
      simpa [inspectBody, hch, not_not.mp hstate] using hi
    rw [scanChunked_congr hdrop (not_not.mp hstate) (by omega), if_neg hstate, h]

/-- The facts about its head scan that an accepted request can count on. -/
theorem parse_scan {raw : Bytes} {m : Message} {headEnd separator : ℕ}
    (hb : headBounds raw = some (headEnd, separator)) (h : parse raw = some m) :
    headVerdict (raw.take headEnd) separator = none ∧
      ((scanHead (raw.take headEnd)).hasContentLength = false →
        (scanHead (raw.take headEnd)).contentLength = 0) ∧
      ((scanHead (raw.take headEnd)).chunked = true →
        (scanHead (raw.take headEnd)).hasContentLength = false) := by
  have hsum := parse_summarises hb h
  obtain ⟨_, _, _, _, _, _, _, _, hb', hbad, hte, hmany, hends, -⟩ := (parse_eq_some_iff raw m).mp h
  obtain ⟨rfl, rfl⟩ := Prod.mk.inj (Option.some.inj (hb.symm.trans hb'))
  exact ⟨(headVerdict_eq_none_iff _ _).mpr ⟨hmany, hbad, hte, hends⟩, hsum.noLength, hsum.exclusive⟩

/-- An accepted request is Complete, and its plain body is what lies behind the head. -/
theorem parse_inspect {raw : Bytes} {m : Message} (hlen : raw.length < npos)
    (h : parse raw = some m) : ∃ n headEnd separator, inspect raw = ⟨.complete, n⟩ ∧
      headBounds raw = some (headEnd, separator) ∧
      ((scanHead (raw.take headEnd)).chunked = false →
        m.body = (raw.take n).drop (headEnd + separator)) := by
  obtain ⟨headEnd, separator, method, target, version, headers, body, contentLength, hb, -, -, -, -,
    -, -, -, hbody, hm⟩ := (parse_eq_some_iff raw m).mp h
  obtain ⟨hv, hno, hex⟩ := parse_scan hb h
  have hbase := (headBounds_le hb).1
  obtain ⟨n, hi⟩ : ∃ n, inspectBody (scanHead (raw.take headEnd)) (headEnd + separator) raw =
      ⟨.complete, n⟩ := by
    rw [← parseBody_complete hno hex hbase hbody]
    exact ⟨_, rfl⟩
  refine ⟨_, headEnd, separator, (inspect_complete_iff _ _).mpr ⟨_, _, hb, hv, hi⟩, hb, ?_⟩
  rw [hm, Message.parseContentType_body]
  intro hch
  exact (parseBody_plain hch hbase hlen hi hno hbody).2

/-- Every buffer that agrees up to the end of an accepted request parses to the same message. -/
theorem parse_congr {raw t : Bytes} {m : Message} {n : ℕ} (hlen : raw.length < npos)
    (h : parse raw = some m) (hi : inspect raw = ⟨.complete, n⟩) (hst : raw.take n = t.take n) :
    parse t = some m := by
  obtain ⟨headEnd, separator, method, target, version, headers, body, contentLength, hb, hbad, hte,
    hmany, hends, hrl, hf, hhost, hbody, hm⟩ := (parse_eq_some_iff raw m).mp h
  obtain ⟨-, hno, hex⟩ := parse_scan hb h
  obtain ⟨_, _, hb', -, hib⟩ := (inspect_complete_iff _ _).mp hi
  obtain ⟨rfl, rfl⟩ := Prod.mk.inj (Option.some.inj (hb.symm.trans hb'))
  have hbase := (headBounds_le hb).1
  have hn := inspectBody_complete hbase hib
  have hhead : raw.take headEnd = t.take headEnd := by
    have hcut := congrArg (List.take headEnd) hst
    rwa [List.take_take, List.take_take, min_eq_left (by omega)] at hcut
  refine (parse_eq_some_iff t m).mpr ⟨headEnd, separator, method, target, version, headers, body,
    contentLength, headBounds_congr hst (by omega) hb, ?_⟩
  rw [← hhead]
  exact ⟨hbad, hte, hmany, hends, hrl, hf, hhost,
    parseBody_congr hno hex hst le_rfl hlen hbase hib hbody, hm⟩

/-- `parse` accepts only what `inspect` calls Complete, the message is decided by exactly the
bytes that `inspect` counts, and a body that is not chunked is the last of them. -/
theorem parse_inspect_agree (raw : Bytes) (hlen : raw.length < npos) :
    (∀ m, parse raw = some m → ∃ n headEnd separator,
      inspect raw = ⟨.complete, n⟩ ∧ n ≤ raw.length ∧
      (∀ s, parse (raw.take n ++ s) = some m) ∧
      headBounds raw = some (headEnd, separator) ∧
      ((scanHead (raw.take headEnd)).chunked = false →
        m.body = (raw.take n).drop (headEnd + separator) ∧
          m.body.length = n - (headEnd + separator))) ∧
    ((inspect raw).framing ≠ .complete → parse raw = none) := by
  have hagree (m : Message) (h : parse raw = some m) := parse_inspect hlen h
  constructor
  · intro m h
    obtain ⟨n, headEnd, separator, hi, hb, hbody⟩ := hagree m h
    have hn := inspect_complete_le hi
    refine ⟨n, headEnd, separator, hi, hn.2, fun s => ?_, hb, fun hch => ⟨hbody hch, ?_⟩⟩
    · apply parse_congr hlen h hi
      rw [List.take_append_of_le_length (by rw [List.length_take]; omega), List.take_take, min_self]
    · rw [hbody hch, List.length_drop, List.length_take]
      omega
  · intro hi
    cases h : parse raw with
    | none => rfl
    | some m =>
      obtain ⟨n, -, -, hc, -⟩ := hagree m h
      exact absurd (by rw [hc]) hi

/-- A byte behind a complete request changes nothing, whatever follows it. -/
theorem parse_inspect_agree_pipelined : ∃ m, parse (bytes "GET / HTTP/1.0\r\n\r\nX") = some m ∧
    ∀ s, parse (bytes "GET / HTTP/1.0\r\n\r\n" ++ s) = some m := by
  have hm : (parse (bytes "GET / HTTP/1.0\r\n\r\nX")).isSome = true := by decide
  obtain ⟨m, hm⟩ := Option.isSome_iff_exists.mp hm
  obtain ⟨n, headEnd, separator, hi, -, hs, -⟩ :=
    (parse_inspect_agree (bytes "GET / HTTP/1.0\r\n\r\nX") (by decide)).1 m hm
  have hi' : inspect (bytes "GET / HTTP/1.0\r\n\r\nX") = ⟨.complete, 18⟩ := by decide
  rw [hi'] at hi
  cases hi
  exact ⟨m, hm, hs⟩

end Vermell.Http
