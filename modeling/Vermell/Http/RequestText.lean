import Vermell.Http.FieldGrammar
import Vermell.Http.HeadLimits
import Vermell.Http.ChunkCodec
import Vermell.Http.ResponseHead

/-! Requests as a client writes them, and what the server reads back. -/
namespace Vermell.Http
open Text

/-- The head of a request. -/
structure RequestText where
  method : Bytes
  target : Bytes
  version : Bytes
  fields : List (Bytes × Bytes)
  deriving DecidableEq, Repr

namespace RequestText

def line (q : RequestText) : Bytes := q.method ++ SP :: (q.target ++ SP :: q.version)

def lines (q : RequestText) : List Bytes := q.line :: q.fields.map fieldText

theorem lines_ne_nil (q : RequestText) : q.lines ≠ [] := List.cons_ne_nil _ _

def head (q : RequestText) : Bytes := headText q.line q.fields

/-- A request line of three valid parts, fields with a token for a name and a value without line
breaks and without blanks around it, a Host as the version wants it, and lines within the limits,
each with the CR in front of its LF. -/
structure WellFormed (q : RequestText) : Prop where
  method : isToken q.method = true
  target : isValidTarget q.target = true
  version : isValidVersion q.version = true
  names : ∀ f ∈ q.fields, isToken f.1 = true
  values : ∀ f ∈ q.fields, CR ∉ f.2 ∧ LF ∉ f.2 ∧ trim f.2 = f.2
  host : hostOk q.fields q.version = true
  count : q.fields.length ≤ MAX_HEADERS
  short : ∀ l ∈ q.lines, l.length + 1 ≤ MAX_HEADER_LINE

end RequestText

theorem not_mem_of_token {s : Bytes} (h : isToken s = true) {c : UInt8}
    (hc : isTchar c = false) : c ∉ s := by
  intro hmem
  have hchar := ((isToken_iff s).mp h).2 c hmem
  rw [hchar] at hc
  cases hc

theorem not_mem_of_target {s : Bytes} (h : isValidTarget s = true) {c : UInt8} (hc : c ≤ 0x20) :
    c ∉ s := by
  intro hmem
  simp only [isValidTarget, Bool.and_eq_true, List.all_eq_true] at h
  have hhigh := h.2 c hmem
  simp [hc] at hhigh

theorem version_bytes {v : Bytes} (h : isValidVersion v = true) :
    ∃ major minor, isDigit major = true ∧ isDigit minor = true ∧
      v = bytes "HTTP/" ++ [major, DOT, minor] := by
  simp only [isValidVersion, Bool.and_eq_true, beq_iff_eq] at h
  obtain ⟨⟨⟨⟨hlen, hprefix⟩, hmajor⟩, hdot⟩, hminor⟩ := h
  obtain ⟨t, rfl⟩ := List.isPrefixOf_iff_prefix.mp hprefix
  have ht : t.length = 3 := by
    have : (bytes "HTTP/").length = 5 := by decide
    rw [List.length_append] at hlen
    omega
  obtain ⟨a, b, c, rfl⟩ := List.length_eq_three.mp ht
  exact ⟨a, c, hmajor, hminor, by simp only [← hdot]; rfl⟩

theorem not_mem_of_version {v : Bytes} (h : isValidVersion v = true) {c : UInt8}
    (hdigit : isDigit c = false) (hc : c ∉ bytes "HTTP/.") : c ∉ v := by
  obtain ⟨major, minor, hmajor, hminor, rfl⟩ := version_bytes h
  have hne {d : UInt8} (hd : isDigit d = true) : c ≠ d := by
    rintro rfl
    rw [hd] at hdigit
    cases hdigit
  have hsplit : bytes "HTTP/." = bytes "HTTP/" ++ [DOT] := by decide
  rw [hsplit, List.mem_append, not_or] at hc
  simp only [List.mem_append, List.mem_cons, List.not_mem_nil, or_false, not_or] at hc ⊢
  exact ⟨hc.1, hne hmajor, hc.2, hne hminor⟩

theorem stripCr_of_not_mem {l : Bytes} (h : CR ∉ l) : stripCr l = l :=
  if_neg fun hlast => h (List.mem_of_getLast? hlast)

namespace RequestText
variable {q : RequestText} (h : q.WellFormed)
include h

theorem WellFormed.line_free {c : UInt8} (hc : c = CR ∨ c = LF) : c ∉ q.line := by
  have hversion : c ∉ q.version :=
    not_mem_of_version h.version (by rcases hc with rfl | rfl <;> decide)
      (by rcases hc with rfl | rfl <;> decide)
  have htchar : isTchar c = false := by rcases hc with rfl | rfl <;> decide
  have hlow : c ≤ 0x20 := by rcases hc with rfl | rfl <;> decide
  have hsp : c ≠ SP := by rcases hc with rfl | rfl <;> decide
  simp only [line, List.mem_append, List.mem_cons, not_or]
  exact ⟨not_mem_of_token h.method htchar, hsp, not_mem_of_target h.target hlow, hsp, hversion⟩

theorem WellFormed.lines_free {c : UInt8} (hc : c = CR ∨ c = LF) : ∀ l ∈ q.lines, c ∉ l := by
  refine List.forall_mem_cons.mpr ⟨h.line_free hc, ?_⟩
  intro l hl
  obtain ⟨f, hf, rfl⟩ := List.mem_map.mp hl
  have htchar : isTchar c = false := by rcases hc with rfl | rfl <;> decide
  have hcolon : c ∉ bytes ": " := by rcases hc with rfl | rfl <;> decide
  obtain ⟨hcr, hlf, -⟩ := h.values f hf
  simp only [fieldText, List.mem_append, not_or]
  refine ⟨⟨not_mem_of_token (h.names f hf) htchar, hcolon⟩, ?_⟩
  rcases hc with rfl | rfl
  · exact hcr
  · exact hlf

omit h in
theorem lines_full (q : RequestText) : ∀ l ∈ q.lines, l ≠ [] := by
  refine List.forall_mem_cons.mpr ⟨by simp [line], ?_⟩
  intro l hl
  obtain ⟨f, -, rfl⟩ := List.mem_map.mp hl
  simp [fieldText, bytes]

/-- The head up to its blank line. -/
def text (q : RequestText) : Bytes := List.intercalate [CR, LF] q.lines

omit h in
theorem head_append (q : RequestText) (s : Bytes) :
    q.head ++ s = q.text ++ (CRLFCRLF ++ s) := by
  have hlines : joinLines CR LF q.lines = q.text ++ [CR, LF] :=
    joinLines_eq_intercalate q.lines_ne_nil
  rw [head, headText_eq, joinLines_append, ← lines, hlines]
  simp [CRLFCRLF]

omit h in
theorem head_length (q : RequestText) : q.head.length = q.text.length + 4 := by
  have hlen := congrArg List.length (head_append q [])
  simpa [CRLFCRLF] using hlen

theorem WellFormed.pieces : q.text.splitOn LF =
    q.lines.dropLast.map (· ++ [CR]) ++ [q.lines.getLast q.lines_ne_nil] :=
  splitOn_intercalate_pair (by decide) q.lines_ne_nil (h.lines_free (Or.inr rfl))

theorem WellFormed.pieces_dropLast :
    (q.text.splitOn LF).dropLast = q.lines.dropLast.map (· ++ [CR]) := by
  rw [h.pieces, List.dropLast_concat]

theorem WellFormed.preceded : Preceded LF CR q.text := by
  rw [preceded_iff_splitOn (by decide), h.pieces_dropLast]
  intro l hl
  obtain ⟨line, -, rfl⟩ := List.mem_map.mp hl
  simp

/-- The head ends at its blank line, whatever follows. -/
theorem WellFormed.headBounds (s : Bytes) :
    headBounds (q.head ++ s) = some (q.text.length, 4) := by
  rw [head_append]
  have hcrlf : find CRLFCRLF (q.text ++ (CRLFCRLF ++ s)) = some q.text.length :=
    find_blank_line (by decide) q.lines_ne_nil (h.lines_free (Or.inl rfl)) (lines_full q) s
  have hlf : ∀ lf, find LFLF (q.text ++ (CRLFCRLF ++ s)) = some lf → ¬lf < q.text.length := by
    intro lf hfind hlt
    obtain ⟨hat, hnext⟩ := (lflf_at_iff _ _).mp ((find_eq_some_iff _ _ _).mp hfind).2.1
    by_cases hin : lf + 1 < q.text.length
    · -- inside the head an LF stands behind a CR
      rw [List.getElem?_append_left hlt] at hat
      rw [List.getElem?_append_left hin] at hnext
      obtain ⟨-, hcr⟩ := h.preceded (lf + 1) hnext
      rw [Nat.add_sub_cancel, hat] at hcr
      exact absurd (Option.some.inj hcr) (by decide)
    · have hend : lf + 1 = q.text.length := by omega
      rw [hend, List.getElem?_append_right le_rfl] at hnext
      simp [CRLFCRLF, CR, LF] at hnext
  unfold Http.headBounds
  rw [hcrlf]
  cases hfind : find LFLF (q.text ++ (CRLFCRLF ++ s)) with
  | none => rfl
  | some lf => simp [hlf lf hfind]

omit h in
theorem take_text (q : RequestText) (s : Bytes) :
    (q.head ++ s).take q.text.length = q.text := by
  rw [head_append, List.take_left]

omit h in
theorem drop_head (q : RequestText) (s : Bytes) :
    (q.head ++ s).drop (q.text.length + 4) = s := by
  rw [← head_length, List.drop_left]

/-- The first piece is the request line, with a CR where fields follow. -/
theorem WellFormed.requestLine :
    requestLine q.text = q.line ++ if q.fields = [] then [] else [CR] := by
  unfold Http.requestLine
  rw [h.pieces]
  obtain ⟨method, target, version, fields⟩ := q
  cases fields with
  | nil => simp [lines]
  | cons f rest => simp [lines]

/-- The other pieces are the fields, but for their CRs. -/
theorem WellFormed.headerLines : (headerLines q.text).map stripCr = q.fields.map fieldText := by
  have hfree := h.lines_free (Or.inl rfl)
  have hpieces : (q.text.splitOn LF).map stripCr = q.lines := by
    rw [h.pieces, List.map_append, List.map_map]
    have hinit : q.lines.dropLast.map (stripCr ∘ (· ++ [CR])) = q.lines.dropLast := by
      conv_rhs => rw [← List.map_id q.lines.dropLast]
      apply List.map_congr_left
      intro l hl
      simp [stripCr]
    rw [hinit, List.map_singleton, stripCr_of_not_mem (hfree _ (List.getLast_mem _)),
      List.dropLast_append_getLast]
  unfold Http.headerLines
  rw [List.map_tail, hpieces]
  rfl

theorem WellFormed.parseRequestLine :
    parseRequestLine (Http.requestLine q.text) = some (q.method, q.target, q.version) := by
  have hmethod : SP ∉ q.method := not_mem_of_token h.method (by decide)
  have htarget : SP ∉ q.target := not_mem_of_target h.target (by decide)
  obtain ⟨hmethodFull, -⟩ := (isToken_iff q.method).mp h.method
  have htargetFull : q.target ≠ [] := by
    rintro hnil
    simpa [isValidTarget, hnil] using h.target
  have hversion : ∀ e, e = [] ∨ e = [CR] →
      SP ∉ q.version ++ e ∧ stripCr (q.version ++ e) = q.version := by
    have hsp := not_mem_of_version h.version (c := SP) (by decide) (by decide)
    have hcr := not_mem_of_version h.version (c := CR) (by decide) (by decide)
    intro e he
    rcases he with rfl | rfl
    · exact ⟨by simpa using hsp, by simpa using stripCr_of_not_mem hcr⟩
    · exact ⟨by simpa [hsp] using show SP ≠ CR by decide, by simp [stripCr]⟩
  obtain ⟨hsp, hstrip⟩ := hversion (if q.fields = [] then [] else [CR]) (by split_ifs <;> simp)
  rw [h.requestLine]
  generalize (if q.fields = [] then [] else [CR]) = e at hsp hstrip
  have hline : q.line ++ e = q.method ++ SP :: (q.target ++ SP :: (q.version ++ e)) := by
    simp [line]
  have hdrop (l t : Bytes) : (l ++ SP :: t).drop (l.length + 1) = t := by simp
  simp only [Http.parseRequestLine, hline, idxOf?_append_cons hmethod, idxOf?_append_cons htarget,
    Option.bind_eq_bind, Option.bind_some, hdrop, List.take_left, hstrip]
  simp [h.method, h.target, h.version, hmethodFull, htargetFull, hsp]

omit h in
theorem parseField_fieldText {f : Bytes × Bytes} (hname : isToken f.1 = true)
    (hvalue : trim f.2 = f.2) : isFold (fieldText f) = false ∧ cutField (fieldText f) = some f := by
  have htext : fieldText f = f.1 ++ COLON :: SP :: f.2 := by
    rw [fieldText, List.append_assoc]
    rfl
  obtain ⟨hfull, hchars⟩ := (isToken_iff f.1).mp hname
  have hblank {c : UInt8} (hc : c ∈ f.1) : isBlank c = false := (isTchar_not_blank (hchars c hc)).1
  have htrim : trim f.1 = f.1 := trim_eq_self (fun c hc => hblank (List.mem_of_mem_head? hc))
    fun c hc => hblank (List.mem_of_mem_getLast? hc)
  have htrimValue : trim (SP :: f.2) = f.2 := hvalue
  constructor
  · obtain ⟨c, rest, hcons⟩ := List.exists_cons_of_ne_nil hfull
    have hc := hblank (c := c) (by simp [hcons])
    have hne {d : UInt8} (hd : isBlank d = true) : c ≠ d := by
      rintro rfl
      rw [hd] at hc
      cases hc
    simp [isFold, htext, hcons, hne (show isBlank SP = true by decide),
      hne (show isBlank HTAB = true by decide)]
  · refine (cutField_eq_some_iff _ _).mpr ⟨f.1, SP :: f.2, htext, isToken_no_colon hname, hfull, ?_⟩
    rw [htrim, htrimValue]

theorem WellFormed.parseFields : parseFields (Http.headerLines q.text) = some q.fields := by
  have hfull : (q.fields.map fieldText).filter (· ≠ []) = q.fields.map fieldText := by
    rw [List.filter_eq_self]
    intro l hl
    obtain ⟨f, -, rfl⟩ := List.mem_map.mp hl
    simp [fieldText, bytes]
  rw [parseFields_eq_some_iff, h.headerLines, hfull, List.forall₂_map_left_iff]
  refine List.forall₂_same.mpr ?_
  intro f hf
  obtain ⟨hfold, hcut⟩ := parseField_fieldText (h.names f hf) (h.values f hf).2.2
  exact (parseField_eq_some_iff _ _).mpr ⟨hfold, hcut, h.names f hf⟩

omit h in
/-- The version counts at the end of the line only. -/
theorem versionAtLeast11_http10 (pre : Bytes) (hcr : CR ∉ pre) :
    versionAtLeast11 (pre ++ bytes "HTTP/1.0") = false := by
  have hstrip : stripCr (pre ++ bytes "HTTP/1.0") = pre ++ bytes "HTTP/1.0" := by
    apply stripCr_of_not_mem
    rw [List.mem_append, not_or]
    exact ⟨hcr, by decide⟩
  have height : (bytes "HTTP/1.0").length = 8 := by decide
  unfold versionAtLeast11
  simp only [hstrip]
  cases hfind : find (bytes "HTTP/") (pre ++ bytes "HTTP/1.0") with
  | none => rfl
  | some pos =>
    have hle := ((find_eq_some_iff _ _ _).mp hfind).1
    simp only
    by_cases hlen : (pre ++ bytes "HTTP/1.0").length - pos ≠ 8
    · rw [if_pos hlen]
    · rw [if_neg hlen]
      rw [List.length_append, height] at hle hlen
      obtain rfl : pos = pre.length := by omega
      have hget (i : ℕ) : (pre ++ bytes "HTTP/1.0").getD (pre.length + i) 0 =
          (bytes "HTTP/1.0").getD i 0 := by
        simp [List.getD_eq_getElem?_getD, List.getElem?_append_right]
      rw [hget, hget, hget]
      decide

/-- The CRLF policy is met in any version. -/
theorem WellFormed.lineEndingsOk : lineEndingsOk q.text 4 = true := by
  have hpieces := h.pieces
  have hdropLast := h.pieces_dropLast
  have hversion := h.version
  have hhost := h.host
  have hfree := h.line_free (Or.inl rfl)
  obtain ⟨method, target, version, fields⟩ := q
  unfold Http.lineEndingsOk
  cases fields with
  | nil =>
    -- without a Host the version is 1.0
    have hold : version = bytes "HTTP/1.0" := by
      apply isValidVersion_eq hversion
      simpa [hostOk] using hhost
    subst hold
    have hline : (⟨method, target, bytes "HTTP/1.0", []⟩ : RequestText).line =
        (method ++ SP :: (target ++ [SP])) ++ bytes "HTTP/1.0" := by simp [line]
    have hpre : CR ∉ method ++ SP :: (target ++ [SP]) := by
      rw [hline, List.mem_append, not_or] at hfree
      exact hfree.1
    simp only [lines, List.map_nil, List.dropLast_singleton, List.nil_append,
      List.getLast_singleton] at hpieces
    rw [hpieces, hline]
    simp only [versionAtLeast11_http10 _ hpre]
    rfl
  | cons f rest =>
    have hlines : (⟨method, target, version, f :: rest⟩ : RequestText).lines.dropLast =
        (⟨method, target, version, f :: rest⟩ : RequestText).line ::
          ((f :: rest).map fieldText).dropLast := by simp [lines]
    rw [hlines, List.map_cons] at hpieces hdropLast
    rw [hpieces, List.cons_append] at hdropLast ⊢
    rw [List.dropLast_cons_of_ne_nil (by simp)] at hdropLast
    have hall := (List.cons.inj hdropLast).2
    simp only [hall]
    split_ifs with hold hseparator hend
    · rfl
    · exact absurd rfl hseparator
    · exact absurd (by simp) hend
    · rw [List.all_eq_true]
      intro l hl
      obtain ⟨line, -, rfl⟩ := List.mem_map.mp hl
      simp

omit h in
theorem bad_scanField {scan : HeadScan} (hbad : scan.bad = true) (name value : Bytes) :
    (scanField scan name value).bad = true := by
  unfold scanField
  split_ifs
  · rfl
  · split
    · rfl
    · split_ifs
      · rfl
      · rfl
      · exact hbad
  · rfl
  · exact hbad
  · exact hbad
  · exact hbad

omit h in
theorem bad_foldl {scan : HeadScan} (hbad : scan.bad = true) (fields : List (Bytes × Bytes)) :
    (fields.foldl (fun s f => scanField s f.1 f.2) scan).bad = true := by
  induction fields generalizing scan with
  | nil => exact hbad
  | cons f rest ih => exact ih (bad_scanField hbad f.1 f.2)

omit h in
/-- On lines within the limits the scan is the fold over the fields, if that ends well. -/
theorem scanLines_fields {pieces : List Bytes} {fields : List (Bytes × Bytes)} {scan : HeadScan}
    {count : ℕ} (hpieces : pieces.map stripCr = fields.map fieldText)
    (hshort : ∀ piece ∈ pieces, piece.length ≤ MAX_HEADER_LINE)
    (hfields : ∀ f ∈ fields, isToken f.1 = true ∧ trim f.2 = f.2)
    (hcount : count + fields.length ≤ MAX_HEADERS)
    (hbad : (fields.foldl (fun s f => scanField s f.1 f.2) scan).bad = false) :
    scanLines scan count pieces = fields.foldl (fun s f => scanField s f.1 f.2) scan := by
  induction fields generalizing pieces scan count with
  | nil =>
    obtain rfl := List.map_eq_nil_iff.mp hpieces
    rfl
  | cons f rest ih =>
    obtain ⟨piece, more, rfl, hpiece, hmore⟩ := List.map_eq_cons_iff.mp hpieces
    obtain ⟨hlen, hshort⟩ := List.forall_mem_cons.mp hshort
    obtain ⟨⟨hname, hvalue⟩, hfields⟩ := List.forall_mem_cons.mp hfields
    obtain ⟨hfold, hcut⟩ := parseField_fieldText hname hvalue
    rw [List.length_cons] at hcount
    have hfull : fieldText f ≠ [] := by simp [fieldText, bytes]
    have hgood : (scanField scan f.1 f.2).bad = false := by
      by_contra hnot
      rw [Bool.not_eq_false] at hnot
      rw [List.foldl_cons, bad_foldl hnot] at hbad
      cases hbad
    have hroom : count + 1 + rest.length ≤ MAX_HEADERS := by omega
    have hnext := ih hmore hshort hfields hroom hbad
    unfold scanLines
    rw [if_neg (by omega)]
    simp only [hpiece, hfull, if_false, hfold, hcut, hgood, Bool.false_eq_true]
    rw [if_neg (by omega)]
    exact hnext

theorem WellFormed.scanHead
    (hbad : (q.fields.foldl (fun s f => scanField s f.1 f.2) {}).bad = false) :
    scanHead q.text = q.fields.foldl (fun s f => scanField s f.1 f.2) {} := by
  have hpieces := h.headerLines
  have hsplit := splitOn_eq_cons q.text
  have hlen : ∀ piece ∈ q.text.splitOn LF, piece.length ≤ MAX_HEADER_LINE := by
    intro piece hpiece
    rw [h.pieces] at hpiece
    rcases List.mem_append.mp hpiece with hinit | hlast
    · obtain ⟨l, hl, rfl⟩ := List.mem_map.mp hinit
      have := h.short l (List.dropLast_subset _ hl)
      simpa using this
    · rw [List.mem_singleton] at hlast
      have := h.short _ (List.getLast_mem q.lines_ne_nil)
      rw [hlast]
      omega
  unfold Http.scanHead
  rw [hsplit] at hlen ⊢
  obtain ⟨hline, hrest⟩ := List.forall_mem_cons.mp hlen
  cases hmore : Http.headerLines q.text with
  | nil =>
    rw [hmore] at hpieces
    have hnone : q.fields = [] := by simpa using hpieces
    rw [hnone]
    rfl
  | cons piece more =>
    simp only
    rw [if_neg (by omega), ← hmore]
    exact scanLines_fields hpieces hrest (fun f hf => ⟨h.names f hf, (h.values f hf).2.2⟩)
      (by have := h.count; omega) hbad

end RequestText
end Vermell.Http
