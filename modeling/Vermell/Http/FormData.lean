import Vermell.Http.Multipart
import Vermell.Text.Lines

/-! Multipart bodies as they are written, and what `parse_multipart` reads back from them. -/
namespace Vermell.Http
open Text

structure Boundary where
  text : Bytes
  nonempty : text ≠ []
  noCr : CR ∉ text
  noLf : LF ∉ text

/-- A field, or a file when it has a file name. -/
structure FormPart where
  name : Bytes
  filename : Option Bytes := none
  mime : Option Bytes := none
  content : Bytes

def isNameChar (c : UInt8) : Bool :=
  c != QUOTE && c != SEMICOLON && c != SLASH && c != BACKSLASH && !isControl c

/-- A name that may stand between quotes. -/
structure QuotedName (name : Bytes) : Prop where
  nonempty : name ≠ []
  plain : name.all isNameChar = true

/-- A parameter behind its semicolon. -/
def quotedParam (key value : Bytes) : Bytes := SP :: key ++ [EQUALS, QUOTE] ++ value ++ [QUOTE]

namespace FormPart

def disposition (p : FormPart) : Bytes :=
  bytes "form-data" ++ SEMICOLON :: (quotedParam (bytes "name") p.name ++
    match p.filename with
    | none => []
    | some filename => SEMICOLON :: quotedParam (bytes "filename") filename)

/-- The header lines. -/
def lines (p : FormPart) : List Bytes :=
  (bytes "Content-Disposition: " ++ p.disposition) ::
    (p.mime.map fun mime => bytes "Content-Type: " ++ mime).toList

def encode (p : FormPart) (b : Boundary) : Bytes :=
  delimiter b.text ++ CRLF ++ joinLines CR LF p.lines ++ CRLF ++ p.content ++ CRLF

/-- The type as written, without the blanks around it; the type of plain bytes where there is
none. -/
def mimeType (p : FormPart) : Bytes :=
  let mime := trim (p.mime.getD [])
  if mime = [] then bytes "application/octet-stream" else mime

/-- What a part with this head stands for, when its content is read as `content`. -/
def entry (p : FormPart) (content : Bytes) : Multipart :=
  match p.filename with
  | none => { fields := [(p.name, content)] }
  | some filename => { files := [⟨p.name, filename, p.mimeType, content⟩] }

def field (p : FormPart) : Option (Bytes × Bytes) :=
  if p.filename = none then some (p.name, p.content) else none

def file (p : FormPart) : Option UploadedFile :=
  p.filename.map fun filename => ⟨p.name, filename, p.mimeType, p.content⟩

/-- A part that can be written with this boundary. -/
structure Fits (b : Boundary) (p : FormPart) : Prop where
  name : QuotedName p.name
  filename : ∀ filename ∈ p.filename,
    QuotedName filename ∧ filename ≠ [DOT] ∧ filename ≠ [DOT, DOT]
  mime : ∀ mime ∈ p.mime, CR ∉ mime ∧ LF ∉ mime
  lines : ∀ line ∈ p.lines, ¬delimiter b.text <:+: line
  start : ¬delimiter b.text <+: p.content
  line : ¬CRLF ++ delimiter b.text <:+: p.content

end FormPart

def encodeForm (b : Boundary) (parts : List FormPart) : Bytes :=
  parts.flatMap (·.encode b) ++ delimiter b.text ++ bytes "--"

/-- The fields and the files of a form, each in order. -/
def decodedForm (parts : List FormPart) : Multipart :=
  ⟨parts.filterMap FormPart.field, parts.filterMap FormPart.file⟩

def Multipart.append (m n : Multipart) : Multipart := ⟨m.fields ++ n.fields, m.files ++ n.files⟩

theorem Multipart.append_assoc (l m n : Multipart) :
    (l.append m).append n = l.append (m.append n) := by simp [append]

theorem decodedForm_cons (p : FormPart) (parts : List FormPart) :
    decodedForm (p :: parts) = (p.entry p.content).append (decodedForm parts) := by
  cases hname : p.filename <;>
    simp [decodedForm, FormPart.field, FormPart.file, FormPart.entry, Multipart.append, hname]

/-! The parameters of a disposition. -/

theorem trim_cons_blank {c : UInt8} (hc : isBlank c = true) (s : Bytes) :
    trim (c :: s) = trim s := by
  unfold trim
  rw [List.dropWhile_cons_of_pos hc]

theorem trim_quotedParam {key : Bytes} (hkey : ∀ c, (key ++ [EQUALS]).head? = some c →
    isBlank c = false) (value : Bytes) :
    trim (quotedParam key value) = key ++ [EQUALS, QUOTE] ++ (value ++ [QUOTE]) := by
  rw [quotedParam, List.cons_append, List.cons_append, List.cons_append, trim_cons_blank rfl,
    List.append_assoc]
  apply trim_eq_self
  · intro c hc
    apply hkey
    cases key <;> simpa using hc
  · intro c hc
    rw [← List.append_assoc, List.getLast?_concat] at hc
    obtain rfl := Option.some.inj hc
    rfl

/-- A quoted parameter is found under its own key. -/
theorem findParam_self {key value : Bytes} (hkey : ∀ c, (key ++ [EQUALS]).head? = some c →
    isBlank c = false) (hvalue : QUOTE ∉ value) (rest : List Bytes) :
    findParam key (quotedParam key value :: rest) = value := by
  have hdrop : (key ++ [EQUALS, QUOTE] ++ (value ++ [QUOTE])).drop (key.length + 2) =
      value ++ [QUOTE] := List.drop_left' (by simp)
  simp only [findParam]
  rw [trim_quotedParam hkey, if_pos (by simp), hdrop, idxOf?_append_cons hvalue]
  simp

/-- The two header lines that a part reads, whatever the disposition is. -/
theorem foldl_partHeader_lines (disposition : Bytes) (mime : Option Bytes) :
    ((bytes "Content-Disposition: " ++ disposition) ::
        (mime.map fun mime => bytes "Content-Type: " ++ mime).toList).foldl partHeader ([], []) =
      (trim disposition, trim (mime.getD [])) := by
  have hfield (name value : Bytes) (hname : COLON ∉ name) (headers : Bytes × Bytes) :
      partHeader headers (name ++ [COLON, SP] ++ value) =
        if iequals (trim name) (bytes "Content-Disposition") then (trim value, headers.2)
        else if iequals (trim name) (bytes "Content-Type") then (headers.1, trim value)
        else headers := by
    simp only [partHeader, List.append_assoc, List.cons_append, List.nil_append]
    rw [idxOf?_append_cons hname]
    simp [trim_cons_blank (show isBlank SP = true from rfl)]
  have hdisposition : partHeader ([], []) (bytes "Content-Disposition: " ++ disposition) =
      (trim disposition, []) := by
    have hname : bytes "Content-Disposition: " = bytes "Content-Disposition" ++ [COLON, SP] := by
      decide
    rw [hname, hfield _ _ (by decide), if_pos (by decide)]
  have htype (headers mime : Bytes) : partHeader (headers, []) (bytes "Content-Type: " ++ mime) =
      (headers, trim mime) := by
    have hname : bytes "Content-Type: " = bytes "Content-Type" ++ [COLON, SP] := by decide
    rw [hname, hfield _ _ (by decide), if_neg (by decide), if_pos (by decide)]
  rw [List.foldl_cons, hdisposition]
  cases mime with
  | none => rfl
  | some mime => exact htype _ mime

/-- The end of one round, behind the head of the part. -/
def Multipart.addContent (result : Multipart) (headers : Bytes × Bytes) (content : Bytes) :
    Multipart :=
  let name := dispositionParam headers.1 (bytes "name")
  if name = [] then result
  else
    let filename := sanitizeFilename (dispositionParam headers.1 (bytes "filename"))
    if filename ≠ [] then
      let mime := if headers.2 = [] then bytes "application/octet-stream" else headers.2
      { result with files := result.files ++ [⟨name, filename, mime, content⟩] }
    else { result with fields := result.fields ++ [(name, content)] }

/-- One round on the lines of a head and some content. -/
theorem addPart_head {lines : List Bytes} (hsome : lines ≠ []) (hfree : ∀ line ∈ lines, CR ∉ line)
    (hfull : ∀ line ∈ lines, line ≠ []) (result : Multipart) (content : Bytes) :
    result.addPart (List.intercalate [CR, LF] lines ++ CRLFCRLF ++ content) =
      result.addContent (lines.foldl partHeader ([], [])) content := by
  have hfind : find CRLFCRLF (List.intercalate [CR, LF] lines ++ CRLFCRLF ++ content) =
      some (List.intercalate [CR, LF] lines).length := by
    rw [List.append_assoc]
    exact find_blank_line (by decide) hsome hfree hfull content
  have hcontent : (List.intercalate [CR, LF] lines ++ CRLFCRLF ++ content).drop
      ((List.intercalate [CR, LF] lines).length + 4) = content :=
    List.drop_left' (by simp [CRLFCRLF])
  have hheaders : (List.intercalate [CR, LF] lines ++ CRLFCRLF ++ content).take
      (List.intercalate [CR, LF] lines).length = List.intercalate [CR, LF] lines := by
    rw [List.append_assoc, List.take_left]
  simp only [Multipart.addPart]
  rw [hfind]
  simp only [hcontent, hheaders, splitLines_intercalate hsome hfree]
  rfl

theorem head_name (c : UInt8) (h : (bytes "name" ++ [EQUALS]).head? = some c) :
    isBlank c = false := by
  cases h
  rfl

theorem head_filename (c : UInt8) (h : (bytes "filename" ++ [EQUALS]).head? = some c) :
    isBlank c = false := by
  cases h
  rfl

theorem not_mem_quotedParam {c : UInt8} (hc : c ∉ [SP, EQUALS, QUOTE]) {key value : Bytes}
    (hkey : c ∉ key) (hvalue : c ∉ value) : c ∉ quotedParam key value := by
  simp only [List.mem_cons, List.not_mem_nil, or_false, not_or] at hc
  simp [quotedParam, hc, hkey, hvalue]

theorem QuotedName.not_mem {name : Bytes} (h : QuotedName name) {c : UInt8}
    (hc : c ∈ [QUOTE, SEMICOLON, CR, LF]) : c ∉ name := by
  intro hmem
  have hchar := List.all_eq_true.mp h.plain c hmem
  simp only [List.mem_cons, List.not_mem_nil, or_false] at hc
  rcases hc with rfl | rfl | rfl | rfl <;> exact absurd hchar (by decide)

namespace FormPart.Fits
variable {b : Boundary} {p : FormPart} (hp : p.Fits b)
include hp

/-- The pieces of a disposition. -/
theorem splitOn_disposition : p.disposition.splitOn SEMICOLON =
    bytes "form-data" :: quotedParam (bytes "name") p.name ::
      (p.filename.map (quotedParam (bytes "filename"))).toList := by
  have hname : SEMICOLON ∉ quotedParam (bytes "name") p.name :=
    not_mem_quotedParam (by decide) (by decide) (hp.name.not_mem (by decide))
  rw [disposition, splitOn_cons_line (by decide)]
  cases hfilename : p.filename with
  | none =>
    rw [List.append_nil, List.splitOn_eq_singleton hname]
    rfl
  | some filename =>
    have hfile := (hp.filename filename (by rw [hfilename]; rfl)).1
    have hparam : SEMICOLON ∉ quotedParam (bytes "filename") filename :=
      not_mem_quotedParam (by decide) (by decide) (hfile.not_mem (by decide))
    rw [splitOn_cons_line hname, List.splitOn_eq_singleton hparam]
    rfl

theorem dispositionParam_name : dispositionParam p.disposition (bytes "name") = p.name := by
  rw [dispositionParam, hp.splitOn_disposition, findParam, if_neg (by decide)]
  exact findParam_self head_name (hp.name.not_mem (by decide)) _

theorem sanitizeFilename_filename {filename : Bytes} (h : filename ∈ p.filename) :
    sanitizeFilename filename = filename := by
  obtain ⟨hquoted, hdot, hdots⟩ := hp.filename filename h
  have hbase : (filename.rtakeWhile fun c => c != SLASH && c != BACKSLASH) = filename := by
    rw [List.rtakeWhile_eq_self_iff]
    intro c hc
    have hchar := List.all_eq_true.mp hquoted.plain c hc
    simp only [isNameChar, Bool.and_eq_true] at hchar
    simp [hchar.1.1.2, hchar.1.2]
  have hcontrol : filename.any isControl = false := by
    rw [List.any_eq_false]
    intro c hc
    have hchar := List.all_eq_true.mp hquoted.plain c hc
    simp only [isNameChar, Bool.and_eq_true, Bool.not_eq_true'] at hchar
    simp [hchar.2]
  unfold sanitizeFilename
  rw [hbase]
  simp [hquoted.nonempty, hdot, hdots, hcontrol]

theorem dispositionParam_filename :
    sanitizeFilename (dispositionParam p.disposition (bytes "filename")) =
      p.filename.getD [] := by
  have hskip : ¬(bytes "filename" ++ [EQUALS, QUOTE]).isPrefixOf
      (trim (quotedParam (bytes "name") p.name)) := by
    rw [trim_quotedParam head_name]
    simp [bytes]
  rw [dispositionParam, hp.splitOn_disposition, findParam, if_neg (by decide), findParam,
    if_neg hskip]
  cases hfilename : p.filename with
  | none => rfl
  | some filename =>
    have hmem : filename ∈ p.filename := by rw [hfilename]; rfl
    have hquoted := (hp.filename filename hmem).1
    rw [Option.map_some, Option.toList_some,
      findParam_self head_filename (hquoted.not_mem (by decide)),
      hp.sanitizeFilename_filename hmem]
    rfl

theorem not_mem_disposition {c : UInt8} (hc : c ∈ [CR, LF]) : c ∉ p.disposition := by
  have hplain : c ∉ bytes "form-data" ∧ c ∉ bytes "name" ∧ c ∉ bytes "filename" ∧ c ≠ SEMICOLON ∧
      c ∉ [SP, EQUALS, QUOTE] ∧ c ∈ [QUOTE, SEMICOLON, CR, LF] := by
    simp only [List.mem_cons, List.not_mem_nil, or_false] at hc
    rcases hc with rfl | rfl <;> decide
  obtain ⟨hform, hname, hfile, hsemicolon, hmarks, hquoted⟩ := hplain
  have hfirst := not_mem_quotedParam hmarks hname (hp.name.not_mem hquoted)
  cases hfilename : p.filename with
  | none => simp [disposition, hfilename, hform, hsemicolon, hfirst]
  | some filename =>
    have hplain := (hp.filename filename (by rw [hfilename]; rfl)).1
    have hsecond := not_mem_quotedParam hmarks hfile (hplain.not_mem hquoted)
    simp [disposition, hfilename, hform, hsemicolon, hfirst, hsecond]

omit hp in
theorem trim_disposition (p : FormPart) : trim p.disposition = p.disposition := by
  apply trim_eq_self
  · intro c hc
    have hfirst : p.disposition.head? = some 102 := rfl
    obtain rfl := Option.some.inj (hfirst.symm.trans hc)
    rfl
  · intro c hc
    have hlast : p.disposition.getLast? = some QUOTE := by
      rw [disposition]
      cases p.filename <;> simp [quotedParam, List.getLast?_append, List.getLast?_cons]
    obtain rfl := Option.some.inj (hlast.symm.trans hc)
    rfl

theorem cr_not_mem_lines {line : Bytes} (h : line ∈ p.lines) : CR ∉ line := by
  simp only [FormPart.lines, List.mem_cons, Option.mem_toList, Option.map_eq_some_iff] at h
  rcases h with rfl | ⟨mime, hmime, rfl⟩
  · rw [List.mem_append, not_or]
    exact ⟨by decide, hp.not_mem_disposition (by simp)⟩
  · rw [List.mem_append, not_or]
    exact ⟨by decide, (hp.mime mime hmime).1⟩

omit hp in
/-- The header lines are read back. -/
theorem foldl_partHeader (p : FormPart) :
    p.lines.foldl partHeader ([], []) = (p.disposition, trim (p.mime.getD [])) := by
  rw [FormPart.lines, foldl_partHeader_lines, trim_disposition]

/-- One round on the head of a part and some content. -/
theorem addPart_lines (result : Multipart) (content : Bytes) :
    result.addPart (List.intercalate [CR, LF] p.lines ++ CRLFCRLF ++ content) =
      result.append (p.entry content) := by
  have hfull : ∀ line ∈ p.lines, line ≠ [] := by
    intro line hmem
    simp only [FormPart.lines, List.mem_cons, Option.mem_toList, Option.map_eq_some_iff] at hmem
    rcases hmem with rfl | ⟨mime, -, rfl⟩ <;> simp [bytes]
  rw [addPart_head (by simp [FormPart.lines]) (fun line => hp.cr_not_mem_lines) hfull,
    foldl_partHeader]
  simp only [Multipart.addContent, hp.dispositionParam_name, hp.dispositionParam_filename,
    hp.name.nonempty, if_false]
  cases hfilename : p.filename with
  | none => simp [FormPart.entry, Multipart.append, hfilename]
  | some filename =>
    have hne := (hp.filename filename (by rw [hfilename]; rfl)).1.nonempty
    simp [FormPart.entry, FormPart.mimeType, Multipart.append, hfilename, hne]

end FormPart.Fits

/-! The loop over a form. -/

theorem stripBreak_append_crlf (s : Bytes) : stripBreak (s ++ CRLF) = s := by
  rw [stripBreak, if_pos (by simp)]
  simp [CRLF]

theorem length_stripBreak_le (s : Bytes) : (stripBreak s).length ≤ s.length := by
  unfold stripBreak
  split_ifs <;> simp

/-- Behind an LF the break of a non-empty rest is stripped. -/
theorem stripBreak_append_lf (s : Bytes) {t : Bytes} (ht : t ≠ []) :
    stripBreak (s ++ LF :: t) = s ++ LF :: stripBreak t := by
  have hpair : CRLF.isSuffixOf (s ++ LF :: t) = CRLF.isSuffixOf t := by
    obtain rfl | ⟨u, y, rfl⟩ := t.eq_nil_or_concat'
    · exact absurd rfl ht
    · obtain rfl | ⟨v, z, rfl⟩ := u.eq_nil_or_concat'
      · simp [List.isSuffixOf, List.isPrefixOf, CRLF, CR, LF]
      · simp [List.isSuffixOf, List.isPrefixOf, CRLF]
  have hlast : (s ++ LF :: t).getLast? = t.getLast? := by
    rw [List.getLast?_append_of_ne_nil s (List.cons_ne_nil LF t), List.getLast?_cons_of_ne_nil ht]
  by_cases hcrlf : CRLF.isSuffixOf t
  · obtain ⟨w, rfl⟩ := List.isSuffixOf_iff_suffix.mp hcrlf
    have hend : s ++ LF :: (w ++ CRLF) = (s ++ LF :: w) ++ CRLF := by simp
    rw [hend, stripBreak_append_crlf, stripBreak_append_crlf]
  · rw [stripBreak, stripBreak, hpair, hlast, if_neg hcrlf, if_neg hcrlf]
    split_ifs
    · rw [List.dropLast_append_of_ne_nil (List.cons_ne_nil LF t), List.dropLast_cons_of_ne_nil ht]
    · rfl

theorem delimiter_plain (b : Boundary) :
    delimiter b.text ≠ [] ∧ CR ∉ delimiter b.text ∧ LF ∉ delimiter b.text := by
  refine ⟨by simp [delimiter, bytes], ?_, ?_⟩
  · rw [delimiter, List.mem_append, not_or]
    exact ⟨by decide, b.noCr⟩
  · rw [delimiter, List.mem_append, not_or]
    exact ⟨by decide, b.noLf⟩

/-- What stands behind a delimiter of a form. -/
def formTail (b : Boundary) (epilogue : Bytes) : List FormPart → Bytes
  | [] => bytes "--" ++ epilogue
  | p :: parts => CRLF ++ (joinLines CR LF (p.lines ++ [[]]) ++
      (p.content ++ CR :: LF :: (delimiter b.text ++ formTail b epilogue parts)))

theorem encodeForm_append (b : Boundary) (parts : List FormPart) (epilogue : Bytes) :
    encodeForm b parts ++ epilogue = delimiter b.text ++ formTail b epilogue parts := by
  induction parts with
  | nil => simp [encodeForm, formTail]
  | cons p parts ih =>
    rw [formTail, ← ih]
    simp [encodeForm, FormPart.encode, CRLF]

theorem parseMultipart_encodeForm (b : Boundary) (parts : List FormPart) (epilogue : Bytes) :
    parseMultipart (encodeForm b parts ++ epilogue) b.text =
      multipartLoop b.text {} (formTail b epilogue parts) := by
  rw [encodeForm_append, parseMultipart, if_neg b.nonempty, find_append_self]
  simp

/-- The loop takes what stands in front of the next delimiter. -/
theorem multipartLoop_find {b : Boundary} {part rest : Bytes}
    (h : find (delimiter b.text) (part ++ (delimiter b.text ++ rest)) = some part.length)
    (result : Multipart) :
    multipartLoop b.text result (CRLF ++ (part ++ (delimiter b.text ++ rest))) =
      multipartLoop b.text (result.addPart (stripBreak part)) rest := by
  have hskip (s : Bytes) : skipBreak (CRLF ++ s) = s := by
    simp [skipBreak, CRLF, List.isPrefixOf]
  have hmore (s : Bytes) : ¬(bytes "--").isPrefixOf (CRLF ++ s) := by
    simp [bytes, CRLF, CR, List.isPrefixOf]
  have hrest : (part ++ (delimiter b.text ++ rest)).drop
      (part.length + (delimiter b.text).length) = rest := by
    rw [← List.append_assoc]
    exact List.drop_left' (List.length_append ..)
  rw [multipartLoop, if_neg (hmore _), hskip]
  split
  · rename_i hnone
    rw [h] at hnone
    cases hnone
  · rename_i next hnext
    rw [h] at hnext
    obtain rfl := Option.some.inj hnext
    rw [List.take_left, hrest]

/-- Entries that are there stay in front. -/
theorem addPart_extends (result : Multipart) (part : Bytes) :
    ∃ more, result.addPart part = result.append more := by
  unfold Multipart.addPart
  extract_lets split partHeaders content headers name filename mime
  by_cases hname : name = []
  · rw [if_pos hname]
    exact ⟨{}, by simp [Multipart.append]⟩
  · rw [if_neg hname]
    split_ifs
    · refine ⟨⟨[], [⟨name, filename, mime, content⟩]⟩, ?_⟩
      rw [Multipart.append, List.append_nil]
    · refine ⟨⟨[(name, content)], []⟩, ?_⟩
      rw [Multipart.append, List.append_nil]

theorem multipartLoop_extends (boundary : Bytes) (result : Multipart) (s : Bytes) :
    ∃ more, multipartLoop boundary result s = result.append more := by
  fun_induction multipartLoop boundary result s with
  | case1 result s hend => exact ⟨{}, by simp [Multipart.append]⟩
  | case2 result s hmore hnone => exact ⟨{}, by simp [Multipart.append]⟩
  | case3 result s hmore next hnext ih =>
    obtain ⟨part, hpart⟩ := addPart_extends result (stripBreak ((skipBreak s).take next))
    obtain ⟨more, hrest⟩ := ih
    exact ⟨part.append more, by rw [hrest, hpart, Multipart.append_assoc]⟩

/-- The content of an entry is determined by the form it stands in. -/
theorem entry_append_inj {p : FormPart} {content content' : Bytes} {l m n : Multipart}
    (h : l.append ((p.entry content).append m) = l.append ((p.entry content').append n)) :
    content = content' := by
  have hfields := congrArg Multipart.fields h
  have hfiles := congrArg Multipart.files h
  cases hfilename : p.filename with
  | none =>
    simp only [Multipart.append, FormPart.entry, hfilename, List.append_cancel_left_eq] at hfields
    exact (Prod.mk.inj (List.cons.inj hfields).1).2
  | some filename =>
    simp only [Multipart.append, FormPart.entry, hfilename, List.append_cancel_left_eq] at hfiles
    exact (UploadedFile.mk.inj (List.cons.inj hfiles).1).2.2.2

theorem joinLines_head {lines : List Bytes} (hsome : lines ≠ []) :
    joinLines CR LF (lines ++ [[]]) = List.intercalate [CR, LF] lines ++ CRLFCRLF := by
  rw [joinLines_append, joinLines_eq_intercalate hsome]
  simp [CRLFCRLF]

/-- The next delimiter stands in the content or behind it. -/
theorem find_behind_lines {b : Boundary} {lines : List Bytes}
    (hlines : ∀ line ∈ lines, ¬delimiter b.text <:+: line) (content s : Bytes) :
    find (delimiter b.text) (joinLines CR LF (lines ++ [[]]) ++
        (content ++ CR :: LF :: (delimiter b.text ++ s))) =
      ((find (delimiter b.text) content).or (some (content.length + 2))).map
        (· + (joinLines CR LF (lines ++ [[]])).length) := by
  obtain ⟨hne, hcr, hlf⟩ := delimiter_plain b
  have hfree : ∀ line ∈ lines ++ [[]], ¬delimiter b.text <:+: line := by
    intro line hmem
    cases List.mem_append.mp hmem with
    | inl hmem =>
      exact hlines line hmem
    | inr hmem =>
      rw [List.mem_singleton.mp hmem, List.infix_nil]
      exact hne
  rw [find_joinLines hne hcr hlf hfree, find_append_pair hne hcr hlf, find_append_self]
  simp

/-- A content without the delimiter reaches its round whole. -/
theorem multipartLoop_lines {b : Boundary} {lines : List Bytes} (hsome : lines ≠ [])
    (hlines : ∀ line ∈ lines, ¬delimiter b.text <:+: line) {content : Bytes}
    (h : ¬delimiter b.text <:+: content) (result : Multipart) (rest : Bytes) :
    multipartLoop b.text result (CRLF ++ (joinLines CR LF (lines ++ [[]]) ++
        (content ++ CR :: LF :: (delimiter b.text ++ rest)))) =
      multipartLoop b.text
        (result.addPart (List.intercalate [CR, LF] lines ++ CRLFCRLF ++ content)) rest := by
  have hnone : find (delimiter b.text) content = none :=
    Option.isNone_iff_eq_none.mp ((find_isNone_iff _ _).mpr h)
  have hfind := find_behind_lines hlines content rest
  have hpart (t : Bytes) : joinLines CR LF (lines ++ [[]]) ++ (content ++ CR :: LF :: t) =
      List.intercalate [CR, LF] lines ++ CRLFCRLF ++ content ++ CRLF ++ t := by
    rw [joinLines_head hsome]
    simp [CRLF]
  rw [hnone, Option.none_or, Option.map_some, hpart] at hfind
  rw [hpart, multipartLoop_find, stripBreak_append_crlf]
  rw [hfind, joinLines_head hsome]
  simp [CRLF]
  omega

section
variable {b : Boundary} {p : FormPart} (hp : p.Fits b) (result : Multipart) (epilogue : Bytes)
  (parts : List FormPart)
include hp

/-- A content without the delimiter is read as it is. -/
theorem multipartLoop_part (h : ¬delimiter b.text <:+: p.content) :
    multipartLoop b.text result (formTail b epilogue (p :: parts)) =
      multipartLoop b.text (result.append (p.entry p.content)) (formTail b epilogue parts) := by
  rw [formTail, multipartLoop_lines (by simp [FormPart.lines]) hp.lines h, hp.addPart_lines]

/-- A content with the delimiter is cut in front of it. -/
theorem multipartLoop_cut (h : delimiter b.text <:+: p.content) :
    ∃ content more, content.length < p.content.length ∧
      multipartLoop b.text result (formTail b epilogue (p :: parts)) =
        result.append ((p.entry content).append more) := by
  have hsome : p.lines ≠ [] := by simp [FormPart.lines]
  obtain ⟨i, hi⟩ : ∃ i, find (delimiter b.text) p.content = some i := by
    rw [← Option.isSome_iff_exists, Option.isSome_iff_ne_none, ne_eq, ← Option.isNone_iff_eq_none,
      find_isNone_iff, not_not]
    exact h
  obtain ⟨hle, hocc, -⟩ := (find_eq_some_iff _ _ _).mp hi
  have hin := occurs_length (delimiter_plain b).1 hocc
  have hpos : i ≠ 0 := by
    rintro rfl
    exact hp.start hocc
  have hne : p.content.take i ≠ [] := List.ne_nil_of_length_pos (by
    rw [List.length_take]
    have := List.length_pos_iff.mpr (delimiter_plain b).1
    omega)
  have hfind := find_behind_lines hp.lines p.content (formTail b epilogue parts)
  have hpart (t : Bytes) : joinLines CR LF (p.lines ++ [[]]) ++ (p.content ++ CR :: LF :: t) =
      List.intercalate [CR, LF] p.lines ++ CRLFCRLF ++ p.content.take i ++ (delimiter b.text ++
        (p.content.drop (i + (delimiter b.text).length) ++ CR :: LF :: t)) := by
    rw [joinLines_head hsome]
    conv_lhs => rw [find_split hi]
    simp
  have hstrip : stripBreak (List.intercalate [CR, LF] p.lines ++ CRLFCRLF ++ p.content.take i) =
      List.intercalate [CR, LF] p.lines ++ CRLFCRLF ++ stripBreak (p.content.take i) := by
    have h := stripBreak_append_lf (List.intercalate [CR, LF] p.lines ++ [CR, LF, CR]) hne
    simpa [CRLFCRLF] using h
  rw [hi, Option.some_or, Option.map_some, hpart] at hfind
  rw [formTail, hpart, multipartLoop_find, hstrip, hp.addPart_lines]
  · obtain ⟨more, hmore⟩ := multipartLoop_extends b.text
      (result.append (p.entry (stripBreak (p.content.take i))))
      (p.content.drop (i + (delimiter b.text).length) ++
        CR :: LF :: (delimiter b.text ++ formTail b epilogue parts))
    refine ⟨_, more, ?_, by rw [hmore, Multipart.append_assoc]⟩
    have hlen := length_stripBreak_le (p.content.take i)
    have hdelim := List.length_pos_iff.mpr (delimiter_plain b).1
    rw [List.length_take] at hlen
    omega
  · rw [hfind, joinLines_head hsome]
    simp [CRLFCRLF]
    omega

end

/-- The loop reads the form exactly when no content has the delimiter in it. -/
theorem multipartLoop_iff {b : Boundary} {parts : List FormPart} (hparts : ∀ p ∈ parts, p.Fits b)
    (result : Multipart) (epilogue : Bytes) :
    multipartLoop b.text result (formTail b epilogue parts) = result.append (decodedForm parts) ↔
      ∀ p ∈ parts, ¬delimiter b.text <:+: p.content := by
  induction parts generalizing result with
  | nil =>
    have hend : multipartLoop b.text result (bytes "--" ++ epilogue) = result := by
      rw [multipartLoop, if_pos (by simp)]
    rw [formTail, hend]
    simp [decodedForm, Multipart.append]
  | cons p parts ih =>
    obtain ⟨hp, hparts⟩ := List.forall_mem_cons.mp hparts
    rw [List.forall_mem_cons, decodedForm_cons]
    by_cases hfree : delimiter b.text <:+: p.content
    · obtain ⟨content, more, hlt, hloop⟩ := multipartLoop_cut hp result epilogue parts hfree
      refine iff_of_false (fun h => ?_) fun h => h.1 hfree
      rw [hloop] at h
      exact absurd (congrArg List.length (entry_append_inj h)) hlt.ne
    · rw [multipartLoop_part hp result epilogue parts hfree, ← Multipart.append_assoc, ih hparts]
      simp [hfree]

/-- Decoding inverts encoding exactly for contents without the delimiter, also inside a line. -/
theorem multipart_round_trip_iff {b : Boundary} {parts : List FormPart}
    (hparts : ∀ p ∈ parts, p.Fits b) (epilogue : Bytes) :
    parseMultipart (encodeForm b parts ++ epilogue) b.text = decodedForm parts ↔
      ∀ p ∈ parts, ¬delimiter b.text <:+: p.content := by
  rw [parseMultipart_encodeForm, ← multipartLoop_iff hparts {} epilogue]
  simp [Multipart.append]

def testBoundary : Boundary := ⟨bytes "----vermellTestBoundary", by decide, by decide, by decide⟩

/-- A form with a field and a file. -/
def testForm : List FormPart :=
  [{ name := bytes "title", content := bytes "hello vermell" },
    { name := bytes "doc", filename := some (bytes "note.txt"), mime := some (bytes "text/plain")
      content := bytes "FILE-CONTENT-123" }]

theorem testForm_fits : ∀ p ∈ testForm, p.Fits testBoundary := by
  have hfree {s : Bytes} (h : (find (delimiter testBoundary.text) s).isNone = true) :
      ¬delimiter testBoundary.text <:+: s := (find_isNone_iff _ _).mp h
  have hcontent {s : Bytes} (h : ¬delimiter testBoundary.text <:+: s) :
      ¬delimiter testBoundary.text <+: s ∧ ¬CRLF ++ delimiter testBoundary.text <:+: s :=
    ⟨fun hpre => h hpre.isInfix, fun hin => h ((List.suffix_append ..).isInfix.trans hin)⟩
  refine List.forall_mem_cons.mpr ⟨?_, List.forall_mem_singleton.mpr ?_⟩
  · obtain ⟨hstart, hline⟩ := hcontent (hfree (s := bytes "hello vermell") (by decide))
    exact ⟨⟨by decide, by decide⟩, by rintro _ ⟨⟩, by rintro _ ⟨⟩,
      List.forall_mem_singleton.mpr (hfree (by decide)), hstart, hline⟩
  · obtain ⟨hstart, hline⟩ := hcontent (hfree (s := bytes "FILE-CONTENT-123") (by decide))
    refine ⟨⟨by decide, by decide⟩, ?_, ?_, ?_, hstart, hline⟩
    · rintro _ ⟨⟩
      exact ⟨⟨by decide, by decide⟩, by decide, by decide⟩
    · rintro _ ⟨⟩
      exact ⟨by decide, by decide⟩
    · exact List.forall_mem_cons.mpr
        ⟨hfree (by decide), List.forall_mem_singleton.mpr (hfree (by decide))⟩

theorem testForm_free : ∀ p ∈ testForm, ¬delimiter testBoundary.text <:+: p.content := by
  refine List.forall_mem_cons.mpr ⟨?_, List.forall_mem_singleton.mpr ?_⟩
  · exact (find_isNone_iff _ _).mp (by decide)
  · exact (find_isNone_iff _ _).mp (by decide)

theorem multipart_round_trip_testForm :
    parseMultipart (encodeForm testBoundary testForm ++ CRLF) testBoundary.text =
      decodedForm testForm :=
  (multipart_round_trip_iff testForm_fits CRLF).mpr testForm_free

/-- The delimiter inside a line of the content ends the part. -/
theorem delimiter_inside_line :
    let b : Boundary := ⟨bytes "b", by decide, by decide, by decide⟩
    let p : FormPart := { name := bytes "x", content := bytes "a--b" }
    p.Fits b ∧ parseMultipart (encodeForm b [p]) b.text ≠ decodedForm [p] := by
  intro b p
  have hfits : p.Fits b := by
    refine ⟨⟨by decide, by decide⟩, by rintro _ ⟨⟩, by rintro _ ⟨⟩, ?_, by decide, ?_⟩
    · exact List.forall_mem_singleton.mpr ((find_isNone_iff _ _).mp (by decide))
    · exact (find_isNone_iff _ _).mp (by decide)
  refine ⟨hfits, fun h => ?_⟩
  have hloop := multipartLoop_iff (List.forall_mem_singleton.mpr hfits) {} []
  rw [← parseMultipart_encodeForm, List.append_nil, h] at hloop
  have hfree := hloop.mp (by simp [Multipart.append]) p List.mem_cons_self
  exact hfree ⟨bytes "a", [], rfl⟩

end Vermell.Http
