import Vermell.Http.BodyLength
import Vermell.Http.RequestText

/-! A request with its body, counted or chunked, is framed and parsed back to what it was, whatever
stands behind it on the connection. -/
namespace Vermell.Http
open Text

/-- The fields that say where the body ends. -/
def isFraming (f : Bytes × Bytes) : Bool := isContentLength f || isTransferEncoding f

/-- How a body is written behind a head with these fields: not at all, as it is behind its length in
any decimal numeral, or in any chunked coding. -/
inductive Carries (fields : List (Bytes × Bytes)) : Bytes → Bytes → Prop
  | bodyless (framing : fields.filter isFraming = []) : Carries fields [] []
  | counted {f : Bytes × Bytes} {body : Bytes} (framing : fields.filter isFraming = [f])
    (name : isContentLength f = true) (digits : f.2 ≠ [] ∧ ∀ c ∈ f.2, isDigit c = true)
    (length : decimal f.2 = body.length) : Carries fields body body
  | chunked {f : Bytes × Bytes} (b : ChunkedBody) (framing : fields.filter isFraming = [f])
    (name : isTransferEncoding f = true) (coding : iequals (trim f.2) (bytes "chunked") = true) :
    Carries fields b.data b.encode

/-- What is parsed of a request with a body. -/
def RequestText.message (q : RequestText) (body : Bytes) : Message :=
  ({ method := q.method, target := q.target, path := (splitTarget q.target).1,
     query := (splitTarget q.target).2, version := q.version, body, headers := q.fields,
     contentLength := body.length } : Message).parseContentType

theorem scanField_other {f : Bytes × Bytes} (h : isFraming f = false) (scan : HeadScan) :
    scanField scan f.1 f.2 = scan := by
  obtain ⟨hlength, hcoding⟩ := Bool.or_eq_false_iff.mp h
  unfold isContentLength at hlength
  unfold isTransferEncoding at hcoding
  simp [scanField, hlength, hcoding]

/-- Only the framing fields have a say in the scan. -/
theorem foldl_scanField (fields : List (Bytes × Bytes)) (scan : HeadScan) :
    fields.foldl (fun s f => scanField s f.1 f.2) scan =
      (fields.filter isFraming).foldl (fun s f => scanField s f.1 f.2) scan := by
  induction fields generalizing scan with
  | nil => rfl
  | cons f rest ih =>
    cases hf : isFraming f with
    | true => rw [List.filter_cons_of_pos hf, List.foldl_cons, List.foldl_cons, ih]
    | false =>
      rw [List.filter_cons_of_neg (by simp [hf]), List.foldl_cons, scanField_other hf, ih]

theorem fromChars_of_digits {value : Bytes} {n : ℕ}
    (hdigits : value ≠ [] ∧ ∀ c ∈ value, isDigit c = true) (hvalue : decimal value = n)
    (hn : n ≤ npos) : fromChars value = some (n, []) := by
  have htake : value.takeWhile isDigit = value := List.takeWhile_eq_self_iff.mpr hdigits.2
  have hdrop : value.dropWhile isDigit = [] := List.dropWhile_eq_nil_iff.mpr hdigits.2
  unfold fromChars
  simp only [htake, hdrop, hvalue]
  rw [if_neg hdigits.1, if_neg (by omega)]

/-- A head whose fields frame a body, with the scan that they lead to. -/
theorem Carries.framed {fields : List (Bytes × Bytes)} {body coded : Bytes}
    (h : Carries fields body coded) {base : ℕ} (hlen : base + coded.length ≤ npos) :
    ∃ scan, fields.foldl (fun s f => scanField s f.1 f.2) {} = scan ∧ scan.bad = false ∧
      scan.transferEncoding = false ∧ scan.tooMany = false ∧
      (∀ pre s, pre.length = base → inspectBody scan base (pre ++ (coded ++ s)) =
        ⟨.complete, base + coded.length⟩) ∧
      ∀ s, parseBody scan (coded ++ s) = some (body, body.length) := by
  cases h with
  | bodyless framing =>
    refine ⟨{}, by rw [foldl_scanField, framing]; rfl, rfl, rfl, rfl, ?_, ?_⟩
    · intro pre s hpre
      simp [inspectBody, declaredTotal, hpre]
    · intro s
      simp [parseBody]
  | @counted f _ framing name digits length =>
    have hchars := fromChars_of_digits digits length (by omega)
    have hname : iequals f.1 (bytes "content-length") = true := name
    refine ⟨{ hasContentLength := true, contentLength := body.length }, ?_, rfl, rfl, rfl, ?_, ?_⟩
    · rw [foldl_scanField, framing]
      simp [scanField, hname, hchars]
    · intro pre s hpre
      have hroom : ¬body.length > npos - base := by omega
      simp [inspectBody, declaredTotal, hroom, hpre]
    · intro s
      by_cases hempty : body = []
      · simp [parseBody, hempty]
      · have hpos := List.length_pos_iff.mpr hempty
        simp [parseBody, hpos]
  | @chunked f b framing name coding =>
    have hno : iequals f.1 (bytes "content-length") = false := by
      cases hcl : isContentLength f with
      | false => exact hcl
      | true =>
        have hnot := not_both_framing f hcl
        rw [name] at hnot
        cases hnot
    have hname : iequals f.1 (bytes "transfer-encoding") = true := name
    have hscan (s : Bytes) :
        scanChunked (b.encode ++ s) = ⟨.complete, b.data, b.encode.length⟩ := by
      have hfrom := scanChunksFrom_encode b [] s [] b.chunks
      simpa [scanChunked, ChunkedBody.encode, ChunkedBody.data] using hfrom
    refine ⟨{ chunked := true }, ?_, rfl, rfl, rfl, ?_, ?_⟩
    · rw [foldl_scanField, framing]
      simp [scanField, hno, hname, coding]
    · intro pre s hpre
      have hdrop : (pre ++ (b.encode ++ s)).drop base = b.encode ++ s := List.drop_left' hpre
      simp [inspectBody, hdrop, hscan]
    · intro s
      simp [parseBody, hscan]

/-- A well-formed request with its body is complete with its last byte, and is parsed to its parts,
whatever stands behind it. -/
theorem RequestText.WellFormed.read {q : RequestText} (h : q.WellFormed) {body coded : Bytes}
    (hbody : Carries q.fields body coded) (hlen : (q.head ++ coded).length ≤ npos) (s : Bytes) :
    inspect (q.head ++ coded ++ s) = ⟨.complete, (q.head ++ coded).length⟩ ∧
      parse (q.head ++ coded ++ s) = some (q.message body) := by
  have hhead := q.head_length
  rw [List.length_append] at hlen
  obtain ⟨scan, hfold, hbad, hcoding, hmany, hinspect, hparse⟩ := hbody.framed hlen
  have hscan : Http.scanHead q.text = scan := by
    rw [h.scanHead (by rw [hfold]; exact hbad), hfold]
  have hbounds := h.headBounds (coded ++ s)
  have htake := q.take_text (coded ++ s)
  have hdrop := q.drop_head (coded ++ s)
  have hverdict : headVerdict q.text 4 = none := by
    simp [headVerdict, hscan, hbad, hcoding, hmany, h.lineEndingsOk]
  rw [List.append_assoc]
  constructor
  · unfold inspect
    rw [hbounds]
    simp only [htake, hverdict, hscan]
    rw [← hhead, hinspect q.head s rfl, List.length_append]
  · refine (parse_eq_some_iff _ _).mpr ⟨q.text.length, 4, q.method, q.target, q.version, q.fields,
      body, body.length, hbounds, ?_⟩
    rw [htake, hdrop, hscan]
    exact ⟨hbad, hcoding, hmany, h.lineEndingsOk, h.parseRequestLine, h.parseFields, h.host,
      hparse s, rfl⟩

/-- A request as a client sends it, which a `std::string` holds. -/
structure SentRequest where
  head : RequestText
  body : Bytes
  coded : Bytes
  wellFormed : head.WellFormed
  carries : Carries head.fields body coded
  held : (head.head ++ coded).length ≤ npos

namespace SentRequest

def text (r : SentRequest) : Bytes := r.head.head ++ r.coded

def message (r : SentRequest) : Message := r.head.message r.body

theorem read (r : SentRequest) (s : Bytes) :
    inspect (r.text ++ s) = ⟨.complete, r.text.length⟩ ∧ parse (r.text ++ s) = some r.message :=
  r.wellFormed.read r.carries r.held s

theorem whole (r : SentRequest) : inspect r.text = ⟨.complete, r.text.length⟩ := by
  simpa using (r.read []).1

end SentRequest

end Vermell.Http
