import Vermell.Http.FieldLines

/-! The size limits of a head. `scan_head` caps the request line only behind its test for a first
LF, so the head that is a request line alone leaves the scan before any cap. -/
namespace Vermell.Http
open Text

/-- The lines of a head, request line first, without their terminators. -/
def headTexts (head : Bytes) : List Bytes := (head.splitOn LF).map stripCr

/-- No line of the head is longer than a line may be, and it has no more than the allowed number of
non-empty header lines. -/
def WithinHeadLimits (head : Bytes) : Prop :=
  (∀ line ∈ headTexts head, line.length ≤ MAX_HEADER_LINE) ∧ (fieldLines head).length ≤ MAX_HEADERS

theorem length_stripCr_le (line : Bytes) : (stripCr line).length ≤ line.length := by
  unfold stripCr
  split_ifs
  · rw [List.length_dropLast]
    omega
  · exact le_rfl

/-- The line loop of `scan_head` leaves no long line and no surplus field behind. -/
theorem scanLines_limits {scan : HeadScan} {count : ℕ} {lines : List Bytes}
    (hcount : count ≤ MAX_HEADERS) (hbad : (scanLines scan count lines).bad = false)
    (hmany : (scanLines scan count lines).tooMany = false) :
    (∀ line ∈ lines, line.length ≤ MAX_HEADER_LINE) ∧
      count + ((lines.map stripCr).filter (· ≠ [])).length ≤ MAX_HEADERS := by
  induction lines generalizing scan count with
  | nil => simpa using hcount
  | cons piece rest ih =>
    unfold scanLines at hbad hmany
    by_cases hlen : piece.length > MAX_HEADER_LINE
    · simp [hlen] at hbad
    simp only [hlen, if_false] at hbad hmany
    rw [List.forall_mem_cons]
    by_cases hempty : stripCr piece = []
    · simp only [hempty, if_true] at hbad hmany
      obtain ⟨hlines, hfields⟩ := ih hcount hbad hmany
      refine ⟨⟨by omega, hlines⟩, ?_⟩
      simpa [hempty] using hfields
    simp only [hempty, if_false] at hbad hmany
    by_cases hmax : count + 1 > MAX_HEADERS
    · simp [hmax] at hmany
    simp only [hmax, if_false] at hbad hmany
    have hrest (scan' : HeadScan) (hbad' : (scanLines scan' (count + 1) rest).bad = false)
        (hmany' : (scanLines scan' (count + 1) rest).tooMany = false) :
        (piece.length ≤ MAX_HEADER_LINE ∧ ∀ line ∈ rest, line.length ≤ MAX_HEADER_LINE) ∧
          count + (((piece :: rest).map stripCr).filter (· ≠ [])).length ≤ MAX_HEADERS := by
      obtain ⟨hlines, hfields⟩ := ih (by omega) hbad' hmany'
      refine ⟨⟨by omega, hlines⟩, ?_⟩
      rw [List.map_cons, List.filter_cons_of_pos (by simpa using hempty), List.length_cons]
      omega
    by_cases hfold : isFold (stripCr piece) = true
    · simp [hfold] at hbad
    simp only [hfold] at hbad hmany
    cases hcut : cutField (stripCr piece) with
    | none =>
      simp only [hcut] at hbad hmany
      exact hrest scan hbad hmany
    | some field =>
      simp only [hcut] at hbad hmany
      by_cases hfield : (scanField scan field.1 field.2).bad = true
      · simp [hfield] at hbad
      simp only [hfield] at hbad hmany
      exact hrest _ hbad hmany

/-- Behind an LF every line of a sound head is capped, the request line among them. -/
theorem scanHead_limits {head : Bytes} (hlf : LF ∈ head) (hbad : (scanHead head).bad = false)
    (hmany : (scanHead head).tooMany = false) : WithinHeadLimits head := by
  have hsplit := splitOn_eq_cons head
  cases hl : headerLines head with
  | nil =>
    -- a single piece holds no LF
    have hone := count_eq_length_splitOn (a := LF) head
    rw [hsplit, hl] at hone
    have hpos := List.count_pos_iff.mpr hlf
    simp only [List.length_cons, List.length_nil] at hone
    omega
  | cons line lines =>
    rw [hl] at hsplit
    unfold scanHead at hbad hmany
    simp only [hsplit] at hbad hmany
    by_cases hlen : (requestLine head).length > MAX_HEADER_LINE
    · simp [hlen] at hbad
    simp only [hlen, if_false] at hbad hmany
    obtain ⟨hlines, hfields⟩ := scanLines_limits (by decide) hbad hmany
    constructor
    · unfold headTexts
      rw [hsplit, List.forall_mem_map]
      intro piece hpiece
      refine (length_stripCr_le piece).trans ?_
      rcases List.mem_cons.mp hpiece with rfl | hpiece
      · omega
      · exact hlines piece hpiece
    · unfold fieldLines
      rw [hl]
      exact (Nat.zero_add _).symm.trans_le hfields

/-- Every head, sound or not, that is a request line alone has no field. -/
theorem fieldLines_of_no_lf {head : Bytes} (hlf : LF ∉ head) :
    headTexts head = [stripCr head] ∧ fieldLines head = [] := by
  have hone := List.splitOn_eq_singleton hlf
  simp [headTexts, fieldLines, headerLines, hone]

/-- One header for each non-empty header line. -/
theorem parse_headers_length {raw : Bytes} {m : Message} {headEnd separator : ℕ}
    (hb : headBounds raw = some (headEnd, separator)) (h : parse raw = some m) :
    m.headers.length = (fieldLines (raw.take headEnd)).length := by
  obtain ⟨_, _, _, _, _, headers, _, _, hb', -, -, -, -, -, hf, -, -, rfl⟩ :=
    (parse_eq_some_iff raw m).mp h
  obtain ⟨rfl, rfl⟩ := Prod.mk.inj (Option.some.inj (hb.symm.trans hb'))
  rw [Message.parseContentType_headers]
  exact ((parseFields_eq_some_iff _ _).mp hf).length_eq.symm

/-- At most `MAX_HEADERS` headers come out of any request, whatever its request line. -/
theorem parse_headers_le {raw : Bytes} {m : Message} (h : parse raw = some m) :
    m.headers.length ≤ MAX_HEADERS := by
  obtain ⟨headEnd, separator, _, _, _, _, _, _, hb, hbad, -, hmany, -⟩ :=
    (parse_eq_some_iff raw m).mp h
  rw [parse_headers_length hb h]
  by_cases hlf : LF ∈ raw.take headEnd
  · exact (scanHead_limits hlf hbad hmany).2
  · simp [(fieldLines_of_no_lf hlf).2]

/-- The head of a complete request is within the limits, and so is its message, exactly when it has
a line behind the request line or its request line is short enough on its own. -/
theorem head_limits_iff (raw : Bytes) (headEnd separator : ℕ)
    (hb : headBounds raw = some (headEnd, separator)) (h : (inspect raw).framing = .complete) :
    (WithinHeadLimits (raw.take headEnd) ∧ ∀ m, parse raw = some m → m.headers.length ≤ MAX_HEADERS)
      ↔ (LF ∉ raw.take headEnd → (stripCr (raw.take headEnd)).length ≤ MAX_HEADER_LINE) := by
  obtain ⟨_, _, hb', hv, -⟩ := (inspect_framing_complete_iff raw).mp h
  obtain ⟨rfl, rfl⟩ := Prod.mk.inj (Option.some.inj (hb.symm.trans hb'))
  obtain ⟨hmany, hbad, -, -⟩ := (headVerdict_eq_none_iff _ _).mp hv
  constructor
  · rintro ⟨⟨hlines, -⟩, -⟩ hlf
    apply hlines
    rw [(fieldLines_of_no_lf hlf).1]
    exact List.mem_singleton_self _
  · intro hline
    have hlimits : WithinHeadLimits (raw.take headEnd) := by
      by_cases hlf : LF ∈ raw.take headEnd
      · exact scanHead_limits hlf hbad hmany
      · obtain ⟨htexts, hfields⟩ := fieldLines_of_no_lf hlf
        constructor
        · rw [htexts, List.forall_mem_singleton]
          exact hline hlf
        · simp [hfields]
    exact ⟨hlimits, fun m hm => parse_headers_le hm⟩

theorem head_limits_plain :
    WithinHeadLimits (bytes "GET / HTTP/1.1\r\nHost: a\r\nAccept: b") := by
  let raw := bytes "GET / HTTP/1.1\r\nHost: a\r\nAccept: b\r\n\r\n"
  have hcomplete : (inspect raw).framing = .complete := by decide +kernel
  have hbounds : headBounds raw = some (34, 4) := by decide +kernel
  exact ((head_limits_iff raw 34 4 hbounds hcomplete).mpr (by decide +kernel)).1

/-- A line without LF ends at the terminator behind it. -/
theorem headBounds_line {line : Bytes} (hlf : LF ∉ line) :
    headBounds (line ++ CRLFCRLF) = some (line.length, 4) := by
  rw [headBounds_eq_some_iff]
  constructor
  · left
    refine ⟨rfl, ?_⟩
    rw [List.drop_left]
  · intro j hj k hterm
    have hin (i : ℕ) (hi : i < line.length) : (line ++ CRLFCRLF)[i]? ≠ some LF := by
      rw [List.getElem?_append_left hi]
      exact fun h => hlf (List.mem_of_getElem? h)
    rcases hterm with ⟨-, h⟩ | ⟨-, h⟩
    · obtain ⟨-, h1, -⟩ := (crlfcrlf_at_iff _ _).mp h
      cases Nat.lt_or_ge (j + 1) line.length with
      | inl hlt =>
        exact hin _ hlt h1
      | inr hge =>
        obtain heq : j + 1 = line.length := by omega
        rw [heq, List.getElem?_append_right le_rfl, Nat.sub_self] at h1
        exact absurd h1 (by decide)
    · exact hin _ hj ((lflf_at_iff _ _).mp h).1

/-- A request line older than HTTP/1.1 and nothing else is a complete request. -/
theorem inspect_line {line : Bytes} (hlf : LF ∉ line) (hold : versionAtLeast11 line = false) :
    (inspect (line ++ CRLFCRLF)).framing = .complete := by
  have hone := List.splitOn_eq_singleton hlf
  have hscan : scanHead line = {} := by
    unfold scanHead
    simp only [hone]
  have hends : lineEndingsOk line 4 = true := by
    unfold lineEndingsOk
    simp [hone, hold]
  have hhead : (line ++ CRLFCRLF).take line.length = line := List.take_left
  refine (inspect_framing_complete_iff _).mpr ⟨_, _, headBounds_line hlf, ?_⟩
  rw [hhead]
  refine ⟨(headVerdict_eq_none_iff _ _).mpr (by simp [hscan, hends]), ?_⟩
  rw [hscan]
  have htotal : declaredTotal 0 (line.length + 4) = line.length + 4 := by
    unfold declaredTotal
    rw [if_neg (by omega), Nat.add_zero]
  simp [inspectBody, htotal, CRLFCRLF]

/-- A request line whose target is a slash and `n` letters. -/
def plainRequestLine (n : ℕ) : Bytes := bytes "GET /" ++ List.replicate n 97 ++ bytes " HTTP/1.0"

section
variable (n : ℕ)

theorem length_plainRequestLine : (plainRequestLine n).length = n + 14 := by
  unfold plainRequestLine
  rw [List.length_append, List.length_append, List.length_replicate, Nat.add_right_comm,
    Nat.add_comm n]
  rfl

variable {n}

theorem not_mem_plainRequestLine {c : UInt8} (hc : c ∉ bytes "GET /a HTTP/1.0") :
    c ∉ plainRequestLine n := by
  intro hmem
  apply hc
  simp only [plainRequestLine, List.mem_append] at hmem
  rcases hmem with (h | h) | h
  · exact (by decide : bytes "GET /" ⊆ bytes "GET /a HTTP/1.0") h
  · rw [List.eq_of_mem_replicate h]
    decide
  · exact (by decide : bytes " HTTP/1.0" ⊆ bytes "GET /a HTTP/1.0") h

theorem stripCr_plainRequestLine : stripCr (plainRequestLine n) = plainRequestLine n := by
  unfold stripCr
  rw [if_neg]
  exact fun h => not_mem_plainRequestLine (by decide) (List.mem_of_mem_getLast? h)

theorem versionAtLeast11_plainRequestLine : versionAtLeast11 (plainRequestLine n) = false := by
  have hat (k : ℕ) : (plainRequestLine n).getD (n + 5 + k) 0 = (bytes " HTTP/1.0").getD k 0 := by
    have hfront : (bytes "GET /" ++ List.replicate n 97).length = n + 5 := by
      rw [List.length_append, List.length_replicate, Nat.add_comm]
      rfl
    rw [plainRequestLine, List.getD_eq_getElem?_getD, List.getElem?_append_right (by omega), hfront,
      Nat.add_sub_cancel_left, ← List.getD_eq_getElem?_getD]
  unfold versionAtLeast11
  simp only [stripCr_plainRequestLine]
  cases hf : find (bytes "HTTP/") (plainRequestLine n) with
  | none => rfl
  | some h =>
    simp only
    by_cases hlen : (plainRequestLine n).length - h = 8
    · -- the version ends the line, and its last byte is a zero
      obtain rfl : h = n + 5 + 1 := by
        rw [length_plainRequestLine] at hlen
        omega
      rw [if_neg (not_not.mpr hlen)]
      simp only [Nat.add_assoc (n + 5), hat]
      rfl
    · rw [if_pos hlen]
end

/-- A target of 64 KiB in a request without header lines is let through. -/
theorem long_request_line_complete :
    ¬ ∀ raw, (inspect raw).framing = .complete → ∀ headEnd separator,
      headBounds raw = some (headEnd, separator) → WithinHeadLimits (raw.take headEnd) := by
  intro hall
  have hlf : LF ∉ plainRequestLine MAX_HEADER_LINE := not_mem_plainRequestLine (by decide)
  have hcomplete := inspect_line hlf versionAtLeast11_plainRequestLine
  have hlines := (hall _ hcomplete _ _ (headBounds_line hlf)).1
  rw [List.take_left, (fieldLines_of_no_lf hlf).1, List.forall_mem_singleton,
    stripCr_plainRequestLine, length_plainRequestLine] at hlines
  omega

end Vermell.Http
