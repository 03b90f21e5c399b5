import Vermell.Http.FieldLines

/-! The body length of an accepted request is unambiguous. The flags of the head scan summarise
all framing fields of the message, whatever their order. -/
namespace Vermell.Http
open Text

def isContentLength (h : Bytes × Bytes) : Bool := iequals h.1 (bytes "content-length")
def isTransferEncoding (h : Bytes × Bytes) : Bool := iequals h.1 (bytes "transfer-encoding")

/-- What the flags of a scan say about the fields it has seen. -/
structure Summarises (scan : HeadScan) (fields : List (Bytes × Bytes)) : Prop where
  lengths : ∀ h ∈ fields, isContentLength h → fromChars h.2 = some (scan.contentLength, [])
  hasLength : scan.hasContentLength = fields.any isContentLength
  noLength : scan.hasContentLength = false → scan.contentLength = 0
  chunked : scan.chunked = fields.any isTransferEncoding
  codings : ∀ h ∈ fields, isTransferEncoding h → iequals (trim h.2) (bytes "chunked") = true
  single : fields.countP isTransferEncoding ≤ 1
  exclusive : scan.chunked = true → scan.hasContentLength = false

/-- Both kinds of framing field have names of their own. -/
theorem not_both_framing (h : Bytes × Bytes) (hcl : isContentLength h = true) :
    isTransferEncoding h = false := by
  rw [Bool.eq_false_iff]
  intro hte
  have heq := (iequals_iff _ _).mp hcl |>.symm.trans ((iequals_iff _ _).mp hte)
  exact absurd heq (by decide)

/-- What a scan that goes on has learnt from one field. -/
theorem scanField_cases {scan : HeadScan} {name value : Bytes}
    (hbad : (scanField scan name value).bad = false)
    (hte : (scanField scan name value).transferEncoding = false) :
    scan.bad = false ∧ scan.transferEncoding = false ∧
    ((isContentLength (name, value) = true ∧ scan.chunked = false ∧
        ∃ parsed, fromChars value = some (parsed, []) ∧
          (scan.hasContentLength = true → scan.contentLength = parsed) ∧
          scanField scan name value =
            { scan with hasContentLength := true, contentLength := parsed }) ∨
      (isTransferEncoding (name, value) = true ∧ scan.hasContentLength = false ∧
        scan.chunked = false ∧ iequals (trim value) (bytes "chunked") = true ∧
        scanField scan name value = { scan with chunked := true }) ∨
      (isContentLength (name, value) = false ∧ isTransferEncoding (name, value) = false ∧
        scanField scan name value = scan)) := by
  unfold scanField at hbad hte ⊢
  cases hcl : iequals name (bytes "content-length") with
  | true =>
    simp only [hcl, if_true] at hbad hte ⊢
    split_ifs at hbad hte ⊢ with hcoded
    cases hparse : fromChars value with
    | none => simp [hparse] at hbad
    | some pr =>
      obtain ⟨parsed, rest⟩ := pr
      simp only [hparse] at hbad hte ⊢
      split_ifs at hbad hte ⊢ with hrest hsame
      simp only [Bool.or_eq_true, not_or, Bool.not_eq_true, Bool.and_eq_true, bne_iff_ne, ne_eq,
        not_and, not_not] at hcoded hrest hsame
      subst hrest
      exact ⟨hbad, hte, Or.inl ⟨hcl, hcoded.1, parsed, rfl, hsame, rfl⟩⟩
  | false =>
    cases hcode : iequals name (bytes "transfer-encoding") with
    | true =>
      simp only [hcl, hcode, Bool.false_eq_true, if_true, if_false] at hbad hte ⊢
      split_ifs at hbad hte ⊢ with hseen hchunked
      simp only [Bool.or_eq_true, not_or, Bool.not_eq_true] at hseen
      exact ⟨hbad, hte, Or.inr (Or.inl ⟨hcode, hseen.1.1, hseen.1.2, hchunked, rfl⟩)⟩
    | false =>
      simp only [hcl, hcode, Bool.false_eq_true, if_false] at hbad hte ⊢
      exact ⟨hbad, hte, Or.inr (Or.inr ⟨hcl, hcode, trivial⟩)⟩

section
variable {scan : HeadScan} {fields : List (Bytes × Bytes)} {field : Bytes × Bytes}

/-- A Content-Length that agrees with those before it. -/
theorem Summarises.contentLength (h : Summarises scan fields) (hcl : isContentLength field = true)
    (hch : scan.chunked = false) {parsed : ℕ} (hparse : fromChars field.2 = some (parsed, []))
    (hsame : scan.hasContentLength = true → scan.contentLength = parsed) :
    Summarises { scan with hasContentLength := true, contentLength := parsed }
      (fields ++ [field]) := by
  have hco := not_both_framing field hcl
  have hall : ∀ f ∈ fields, isContentLength f → fromChars f.2 = some (parsed, []) := by
    intro f hf hfcl
    have hany : scan.hasContentLength = true := by
      rw [h.hasLength, List.any_eq_true]
      exact ⟨f, hf, hfcl⟩
    rw [← hsame hany]
    exact h.lengths f hf hfcl
  constructor
  · rw [List.forall_mem_append, List.forall_mem_singleton]
    exact ⟨hall, fun _ => hparse⟩
  · simp [hcl]
  · simp
  · simpa [hco] using h.chunked
  · simpa [or_imp, forall_and, hco] using h.codings
  · simpa [hco] using h.single
  · simp [hch]

/-- The first coding, in a head without a Content-Length. -/
theorem Summarises.coding (h : Summarises scan fields) (hco : isTransferEncoding field = true)
    (hno : scan.hasContentLength = false) (hch : scan.chunked = false)
    (hval : iequals (trim field.2) (bytes "chunked") = true) :
    Summarises { scan with chunked := true } (fields ++ [field]) := by
  have hcl : isContentLength field = false := by
    rw [Bool.eq_false_iff]
    intro hcl
    simp [not_both_framing field hcl] at hco
  have hnone : fields.countP isTransferEncoding = 0 := by
    rw [List.countP_eq_zero]
    intro f hf hfco
    have := h.chunked.symm.trans hch
    exact absurd (List.any_eq_true.mpr ⟨f, hf, hfco⟩) (by simp [this])
  constructor
  · simpa [or_imp, forall_and, hcl] using h.lengths
  · simpa [hcl] using h.hasLength
  · simpa using h.noLength
  · simp [hco]
  · rw [List.forall_mem_append, List.forall_mem_singleton]
    exact ⟨h.codings, fun _ => hval⟩
  · simp [hnone, hco]
  · simp [hno]

/-- A field that says nothing about framing. -/
theorem Summarises.other (h : Summarises scan fields) (hcl : isContentLength field = false)
    (hco : isTransferEncoding field = false) : Summarises scan (fields ++ [field]) := by
  constructor
  · simpa [or_imp, forall_and, hcl] using h.lengths
  · simpa [hcl] using h.hasLength
  · simpa using h.noLength
  · simpa [hco] using h.chunked
  · simpa [or_imp, forall_and, hco] using h.codings
  · simpa [hco] using h.single
  · simpa using h.exclusive

end

theorem summarises_foldl {fields : List (Bytes × Bytes)} :
    (fields.foldl (fun s h => scanField s h.1 h.2) {}).bad = false →
    (fields.foldl (fun s h => scanField s h.1 h.2) {}).transferEncoding = false →
    Summarises (fields.foldl (fun s h => scanField s h.1 h.2) {}) fields := by
  induction fields using List.reverseRecOn with
  | nil =>
    intro _ _
    constructor <;> simp
  | append_singleton fields field ih =>
    intro hbad hte
    simp only [List.foldl_append, List.foldl_cons, List.foldl_nil] at hbad hte ⊢
    obtain ⟨hbad', hte', hcase⟩ := scanField_cases hbad hte
    have hsum := ih hbad' hte'
    rcases hcase with ⟨hcl, hch, parsed, hparse, hsame, heq⟩ | ⟨hco, hno, hch, hval, heq⟩ |
      ⟨hcl, hco, heq⟩
    · rw [heq]
      exact hsum.contentLength hcl hch hparse hsame
    · rw [heq]
      exact hsum.coding hco hno hch hval
    · rw [heq]
      exact hsum.other hcl hco

/-- A value that `from_chars` reads to its end is a non-empty string of digits. -/
theorem fromChars_digits {value : Bytes} {n : ℕ} (h : fromChars value = some (n, [])) :
    value ≠ [] ∧ value.all isDigit ∧ decimal value = n ∧ n ≤ npos := by
  unfold fromChars at h
  simp only at h
  split_ifs at h with hnil hbig
  obtain ⟨hn, hrest⟩ := Prod.mk.inj (Option.some.inj h)
  have hall : value.takeWhile isDigit = value := by
    rw [← List.append_nil (value.takeWhile isDigit), ← hrest, List.takeWhile_append_dropWhile]
  rw [hall] at hnil hn hbig
  exact ⟨hnil, List.all_eq_true.mpr (List.takeWhile_eq_self_iff.mp hall), hn, by omega⟩

/-- An accepted request carries the fields its head scan has summarised. -/
theorem parse_summarises {raw : Bytes} {m : Message} {headEnd separator : ℕ}
    (hb : headBounds raw = some (headEnd, separator)) (h : parse raw = some m) :
    Summarises (scanHead (raw.take headEnd)) m.headers := by
  obtain ⟨_, _, method, target, version, headers, body, contentLength, hb', hbad, hte, hmany, -, -,
    hf, -, -, rfl⟩ := (parse_eq_some_iff raw m).mp h
  obtain ⟨rfl, rfl⟩ := Prod.mk.inj (Option.some.inj (hb.symm.trans hb'))
  have heq := scanHead_eq_foldl hf hbad hmany
  rw [heq] at hbad hte ⊢
  simpa using summarises_foldl hbad hte

theorem parseBody_length {scan : HeadScan} {rest body : Bytes} {contentLength : ℕ}
    (hno : scan.hasContentLength = false → scan.contentLength = 0)
    (h : parseBody scan rest = some (body, contentLength)) : contentLength = body.length := by
  unfold parseBody at h
  simp only at h
  split_ifs at h with hlen hshort hchunk
  · cases h
    rw [List.length_take, min_eq_left (by omega)]
  · cases h
    rfl
  · cases h
    simp only [Bool.and_eq_true, decide_eq_true_eq, not_and, not_lt, Nat.le_zero] at hlen
    cases hc : scan.hasContentLength with
    | true => simpa using hlen hc
    | false => simpa using hno hc

theorem isValidVersion_eq {version : Bytes} (hv : isValidVersion version = true)
    (hp : (bytes "HTTP/1.0").isPrefixOf version = true) : version = bytes "HTTP/1.0" := by
  have hlen : version.length = 8 := by
    simp only [isValidVersion, Bool.and_eq_true, beq_iff_eq] at hv
    exact hv.1.1.1.1
  exact ((List.isPrefixOf_iff_prefix.mp hp).eq_of_length (by rw [hlen]; rfl)).symm

theorem parseRequestLine_valid {line method target version : Bytes}
    (h : parseRequestLine line = some (method, target, version)) :
    isToken method = true ∧ isValidTarget target = true ∧ isValidVersion version = true := by
  simp only [parseRequestLine, Option.bind_eq_bind, Option.bind_eq_some_iff, Option.guard_eq_some',
    Option.pure_def, Option.some.injEq, Prod.mk.injEq] at h
  obtain ⟨sp1, -, -, -, sp2, -, -, -, -, -, -, hvalid, rfl, rfl, rfl⟩ := h
  exact hvalid

/-- However its fields are ordered, cased and padded, an accepted request has one body length:
at most one coding and then no Content-Length, Content-Length values that are numbers and agree,
one Host (none only in HTTP/1.0), and a content length that is the size of the body. -/
theorem parse_body_length_unambiguous (raw : Bytes) (m : Message) (h : parse raw = some m) :
    m.headers.countP isTransferEncoding ≤ 1 ∧
    (∀ f ∈ m.headers, isTransferEncoding f → iequals f.2 (bytes "chunked") = true) ∧
    ((∃ f ∈ m.headers, isTransferEncoding f) → ∀ f ∈ m.headers, isContentLength f = false) ∧
    (∀ f ∈ m.headers, isContentLength f → f.2 ≠ [] ∧ f.2.all isDigit) ∧
    (∀ f ∈ m.headers, ∀ g ∈ m.headers, isContentLength f → isContentLength g →
      decimal f.2 = decimal g.2) ∧
    m.headers.countP isHost ≤ 1 ∧
    (m.version ≠ bytes "HTTP/1.0" → m.headers.countP isHost = 1) ∧
    m.contentLength = m.body.length := by
  obtain ⟨headEnd, separator, method, target, version, headers, body, contentLength, hb, -, -, -, -,
    hrl, hf, hhost, hbody, rfl⟩ := (parse_eq_some_iff raw m).mp h
  have hsum := parse_summarises hb h
  simp only [Message.parseContentType_headers, Message.parseContentType_version,
    Message.parseContentType_contentLength, Message.parseContentType_body] at hsum ⊢
  simp only [hostOk, Bool.and_eq_true, Bool.not_eq_true', decide_eq_false_iff_not, not_lt,
    Bool.and_eq_false_iff, beq_eq_false_iff_ne, Bool.not_eq_false'] at hhost
  refine ⟨hsum.single, ?_, ?_, ?_, ?_, hhost.1, ?_, parseBody_length hsum.noLength hbody⟩
  · intro f hf' hte
    -- the value was already trimmed when the field was cut
    obtain ⟨line, hline⟩ := exists_parseField_of_mem hf hf'
    obtain ⟨-, hcut, -⟩ := (parseField_eq_some_iff _ _).mp hline
    obtain ⟨pre, post, -, -, -, rfl⟩ := (cutField_eq_some_iff _ _).mp hcut
    have hval := hsum.codings _ hf' hte
    rwa [trim_trim] at hval
  · rintro ⟨f, hf', hte⟩ g hg
    have hch : (scanHead (raw.take headEnd)).chunked = true := by
      rw [hsum.chunked, List.any_eq_true]
      exact ⟨f, hf', hte⟩
    have hno := (hsum.exclusive hch).symm.trans hsum.hasLength
    simpa using List.any_eq_false.mp hno.symm g hg
  · intro f hf' hcl
    have hdig := fromChars_digits (hsum.lengths f hf' hcl)
    exact ⟨hdig.1, hdig.2.1⟩
  · intro f hf' g hg hcl hclg
    rw [(fromChars_digits (hsum.lengths f hf' hcl)).2.2.1,
      (fromChars_digits (hsum.lengths g hg hclg)).2.2.1]
  · intro hver
    have hsome := hhost.2.resolve_right fun hp =>
      hver (isValidVersion_eq (parseRequestLine_valid hrl).2.2 hp)
    omega

/-- Two equal Content-Length fields, cased differently, and a body of that length. -/
theorem parse_body_length_duplicate : ∃ m,
    parse (bytes "P / HTTP/1.0\nContent-Length: 1\ncontent-length:1\n\nab") = some m ∧
      m.contentLength = m.body.length := by
  have hm : (parse (bytes "P / HTTP/1.0\nContent-Length: 1\ncontent-length:1\n\nab")).isSome =
      true := by decide
  obtain ⟨m, hm⟩ := Option.isSome_iff_exists.mp hm
  have hbody := parse_body_length_unambiguous _ m hm
  exact ⟨m, hm, hbody.2.2.2.2.2.2.2⟩

end Vermell.Http
