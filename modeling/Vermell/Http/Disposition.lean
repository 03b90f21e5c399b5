import Vermell.Http.FormData

/-! Dispositions with any quoted parameters, and which of them `disposition_param` reads back. -/
namespace Vermell.Http
open Text

structure DispositionParam where
  key : Bytes
  value : Bytes
  token : isToken key = true
  noQuote : QUOTE ∉ value
  noCr : CR ∉ value
  noLf : LF ∉ value

def writeDisposition (params : List DispositionParam) : Bytes :=
  bytes "form-data" ++ params.flatMap fun p => SEMICOLON :: quotedParam p.key p.value

/-- The value of the first parameter with this key, empty where there is none. -/
def paramValue (key : Bytes) (params : List DispositionParam) : Bytes :=
  ((params.find? (·.key = key)).map (·.value)).getD []

/-- Behind its last semicolon and blanks the value ends like the start of a parameter. -/
def Decoy (key value : Bytes) : Prop :=
  SEMICOLON ∈ value ∧
    (value.rtakeWhile (· ≠ SEMICOLON)).dropWhile isBlank = key ++ [EQUALS]

instance (key value : Bytes) : Decidable (Decoy key value) := inferInstanceAs (Decidable (_ ∧ _))

/-- No semicolon hides the value, neither its own nor one in a parameter in front of it. -/
def Unhidden (key : Bytes) (params : List DispositionParam) : Prop :=
  paramValue key params = [] ∨ SEMICOLON ∉ paramValue key params ∧
    ∀ p ∈ params.takeWhile (·.key ≠ key), ¬Decoy key p.value

theorem isTchar_plain {c : UInt8} (h : c ∈ [EQUALS, SEMICOLON, QUOTE, SP, HTAB, CR, LF]) :
    isTchar c = false := by
  simp only [List.mem_cons, List.not_mem_nil, or_false] at h
  rcases h with rfl | rfl | rfl | rfl | rfl | rfl | rfl <;> decide

theorem not_mem_of_isToken {key : Bytes} (h : isToken key = true) {c : UInt8}
    (hc : c ∈ [EQUALS, SEMICOLON, QUOTE, SP, HTAB, CR, LF]) : c ∉ key := by
  intro hmem
  have hchar := List.all_eq_true.mp (Bool.and_eq_true_iff.mp h).2 c hmem
  rw [isTchar_plain hc] at hchar
  exact Bool.false_ne_true hchar

theorem isBlank_head_of_isToken {key : Bytes} (h : isToken key = true) (c : UInt8)
    (hc : (key ++ [EQUALS]).head? = some c) : isBlank c = false := by
  cases List.mem_append.mp (List.mem_of_mem_head? hc) with
  | inl hkey =>
    by_contra hblank
    simp only [isBlank, Bool.not_eq_false, Bool.or_eq_true, beq_iff_eq] at hblank
    refine not_mem_of_isToken h ?_ hkey
    simp only [List.mem_cons, List.not_mem_nil, or_false]
    tauto
  | inr hequals =>
    rw [List.mem_singleton.mp hequals]
    rfl

/-- The scan passes over a piece without a quote. -/
theorem findParam_plain (key : Bytes) {piece : Bytes} (hpiece : QUOTE ∉ piece) (rest : List Bytes) :
    findParam key (piece :: rest) = findParam key rest := by
  have hskip : ¬(key ++ [EQUALS, QUOTE]).isPrefixOf (trim piece) := by
    intro hkeyed
    have hquote : QUOTE ∈ key ++ [EQUALS, QUOTE] := by simp
    have htrim := (List.isPrefixOf_iff_prefix.mp hkeyed).subset hquote
    exact hpiece ((List.dropWhile_suffix _).subset ((List.rdropWhile_prefix _ _).subset htrim))
  rw [findParam, if_neg hskip]

theorem quote_not_mem_front {key : Bytes} (hkey : QUOTE ∉ key) : QUOTE ∉ key ++ [EQUALS] := by
  rw [List.mem_append, not_or]
  exact ⟨hkey, by decide⟩

section
variable {key : Bytes} (hkey : QUOTE ∉ key)
include hkey

/-- The first quote of a piece decides: in front of it stands the key that the piece is for. -/
theorem findParam_quote {piece u w : Bytes} (htrim : trim piece = u ++ QUOTE :: w) (hu : QUOTE ∉ u)
    (rest : List Bytes) :
    findParam key (piece :: rest) =
      if u = key ++ [EQUALS] then
        match w.idxOf? QUOTE with
        | none => []
        | some valueEnd => w.take valueEnd
      else findParam key rest := by
  have hfree := quote_not_mem_front hkey
  have hassoc (t : Bytes) : key ++ [EQUALS, QUOTE] ++ t = key ++ [EQUALS] ++ QUOTE :: t := by simp
  have hkeyed : (key ++ [EQUALS, QUOTE]).isPrefixOf (u ++ QUOTE :: w) = true ↔
      u = key ++ [EQUALS] := by
    rw [List.isPrefixOf_iff_prefix]
    constructor
    · rintro ⟨t, ht⟩
      rw [hassoc] at ht
      exact (append_cons_inj hfree hu ht).1.symm
    · rintro rfl
      exact ⟨w, hassoc w⟩
  rw [findParam, htrim]
  simp only [hkeyed]
  split_ifs with hhit
  · have hdrop : (u ++ QUOTE :: w).drop (key.length + 2) = w := by
      rw [hhit, ← hassoc]
      exact List.drop_left' (by simp)
    cases hend : w.idxOf? QUOTE with
    | none => simp only [hdrop, hend]
    | some valueEnd => simp only [hdrop, hend]
  · rfl

/-- The pieces of a value behind its first semicolon. -/
theorem findParam_behind {s : Bytes} (hs : QUOTE ∉ s) (rest : List Bytes) :
    findParam key ((s ++ [QUOTE]).splitOn SEMICOLON ++ rest) =
      if (s.rtakeWhile (· ≠ SEMICOLON)).dropWhile isBlank = key ++ [EQUALS] then []
      else findParam key rest := by
  induction s using splitOn_induction SEMICOLON with
  | last p hp =>
    have hpiece : SEMICOLON ∉ p ++ [QUOTE] := by
      rw [List.mem_append, not_or]
      exact ⟨hp, by decide⟩
    have hwhole : p.rtakeWhile (· ≠ SEMICOLON) = p := by
      rw [List.rtakeWhile_eq_self_iff]
      intro c hc
      exact decide_eq_true fun heq => hp (heq ▸ hc)
    have htrim : trim (p ++ [QUOTE]) = p.dropWhile isBlank ++ QUOTE :: [] := by
      unfold trim
      rw [dropWhile_append_stop (by decide), List.rdropWhile_concat_neg _ _ _ (by decide)]
    have hfree : QUOTE ∉ p.dropWhile isBlank := fun h => hs ((List.dropWhile_suffix _).subset h)
    rw [List.splitOn_eq_singleton hpiece, List.singleton_append,
      findParam_quote hkey htrim hfree rest, hwhole]
    rfl
  | line p s hp ih =>
    rw [List.mem_append, List.mem_cons, not_or, not_or] at hs
    rw [List.append_assoc, List.cons_append, splitOn_cons_line hp, List.cons_append,
      findParam_plain key hs.1, ih hs.2.2, rtakeWhile_append_stop (by decide)]

end

section
variable {key : Bytes} (hkey : QUOTE ∉ key) (p : DispositionParam)
include hkey

/-- A semicolon in its value leaves the first piece of a parameter unclosed. -/
theorem findParam_cut (hin : SEMICOLON ∈ p.value) (rest : List Bytes) :
    findParam key ((quotedParam p.key p.value).splitOn SEMICOLON ++ rest) =
      if p.key = key then [] else if Decoy key p.value then [] else findParam key rest := by
  obtain ⟨v, t, hsplit, hv⟩ := List.eq_append_cons_of_mem hin
  have hfront : QUOTE ∉ p.key ++ [EQUALS] :=
    quote_not_mem_front (not_mem_of_isToken p.token (by decide))
  have hdecoy : Decoy key p.value ↔
      (t.rtakeWhile (· ≠ SEMICOLON)).dropWhile isBlank = key ++ [EQUALS] := by
    rw [Decoy, and_iff_right hin, hsplit, rtakeWhile_append_stop (by decide)]
  have hpieces : quotedParam p.key p.value =
      ([SP] ++ (p.key ++ [EQUALS] ++ QUOTE :: v)) ++ SEMICOLON :: (t ++ [QUOTE]) := by
    simp [quotedParam, hsplit]
  have hfirst : SEMICOLON ∉ [SP] ++ (p.key ++ [EQUALS] ++ QUOTE :: v) := by
    have hsemicolon : SEMICOLON ∉ p.key := not_mem_of_isToken p.token (by decide)
    simp only [List.mem_append, List.mem_cons, not_or]
    exact ⟨⟨by decide, by simp⟩, ⟨hsemicolon, by decide, by simp⟩, by decide, hv⟩
  have htrim : trim ([SP] ++ (p.key ++ [EQUALS] ++ QUOTE :: v)) =
      p.key ++ [EQUALS] ++ QUOTE :: v.rdropWhile isBlank := by
    unfold trim
    rw [dropWhile_front (List.forall_mem_singleton.mpr rfl), rdropWhile_append_stop (by decide)]
    intro c hc
    rw [List.head?_append_of_ne_nil _ (by simp)] at hc
    exact isBlank_head_of_isToken p.token c hc
  have hvalue := p.noQuote
  rw [hsplit, List.mem_append, List.mem_cons, not_or, not_or] at hvalue
  have hnone : (v.rdropWhile isBlank).idxOf? QUOTE = none :=
    List.idxOf?_eq_none_iff.mpr fun h => hvalue.1 ((List.rdropWhile_prefix _ _).subset h)
  rw [hpieces, splitOn_cons_line hfirst, List.cons_append, findParam_quote hkey htrim hfront,
    hnone, findParam_behind hkey hvalue.2.2]
  simp only [List.append_left_inj, hdecoy]

theorem findParam_whole (hin : SEMICOLON ∉ p.value) (rest : List Bytes) :
    findParam key ((quotedParam p.key p.value).splitOn SEMICOLON ++ rest) =
      if p.key = key then p.value else findParam key rest := by
  have hfront : QUOTE ∉ p.key ++ [EQUALS] :=
    quote_not_mem_front (not_mem_of_isToken p.token (by decide))
  have hpiece : SEMICOLON ∉ quotedParam p.key p.value :=
    not_mem_quotedParam (by decide) (not_mem_of_isToken p.token (by decide)) hin
  have htrim : trim (quotedParam p.key p.value) =
      (p.key ++ [EQUALS]) ++ QUOTE :: (p.value ++ [QUOTE]) := by
    rw [trim_quotedParam (isBlank_head_of_isToken p.token)]
    simp
  rw [List.splitOn_eq_singleton hpiece, List.singleton_append, findParam_quote hkey htrim hfront,
    idxOf?_append_cons p.noQuote]
  simp

/-- The pieces of one parameter. -/
theorem findParam_param (rest : List Bytes) :
    findParam key ((quotedParam p.key p.value).splitOn SEMICOLON ++ rest) =
      if p.key = key then (if SEMICOLON ∈ p.value then [] else p.value)
      else if Decoy key p.value then []
      else findParam key rest := by
  by_cases hin : SEMICOLON ∈ p.value
  · rw [findParam_cut hkey p hin, if_pos hin]
  · have hdecoy : ¬Decoy key p.value := fun h => hin h.1
    rw [findParam_whole hkey p hin, if_neg hin, if_neg hdecoy]

end

theorem splitOn_params (front : Bytes) (params : List DispositionParam) :
    (front ++ params.flatMap fun p => SEMICOLON :: quotedParam p.key p.value).splitOn SEMICOLON =
      front.splitOn SEMICOLON ++
        params.flatMap fun p => (quotedParam p.key p.value).splitOn SEMICOLON := by
  induction params generalizing front with
  | nil => simp
  | cons p params ih =>
    rw [List.flatMap_cons, List.cons_append, List.splitOn_append_cons_self, ih]
    rfl

/-- The lookup along the parameters, each with its pieces. -/
theorem dispositionParam_write (key : Bytes) (params : List DispositionParam) :
    dispositionParam (writeDisposition params) key =
      findParam key (params.flatMap fun p => (quotedParam p.key p.value).splitOn SEMICOLON) := by
  rw [dispositionParam, writeDisposition, splitOn_params,
    List.splitOn_eq_singleton (by decide : SEMICOLON ∉ bytes "form-data"), List.singleton_append,
    findParam_plain key (by decide)]

/-- A parameter is read back exactly where no semicolon hides it. -/
theorem findParam_params {key : Bytes} (hkey : QUOTE ∉ key) (params : List DispositionParam) :
    findParam key (params.flatMap fun p => (quotedParam p.key p.value).splitOn SEMICOLON) =
        paramValue key params ↔ Unhidden key params := by
  induction params with
  | nil => exact iff_of_true rfl (.inl rfl)
  | cons p params ih =>
    rw [List.flatMap_cons, findParam_param hkey]
    by_cases hp : p.key = key
    · have hfound : paramValue key (p :: params) = p.value := by simp [paramValue, hp]
      have hstop : (p :: params).takeWhile (·.key ≠ key) = [] :=
        List.takeWhile_cons_of_neg (by simp [hp])
      rw [if_pos hp, Unhidden, hfound, hstop]
      split_ifs with hin <;> simp [hin, eq_comm]
    · have hnext : paramValue key (p :: params) = paramValue key params := by
        simp [paramValue, hp]
      have hmore : (p :: params).takeWhile (·.key ≠ key) =
          p :: params.takeWhile (·.key ≠ key) := List.takeWhile_cons_of_pos (by simp [hp])
      rw [if_neg hp, Unhidden, hnext, hmore, List.forall_mem_cons]
      by_cases hdecoy : Decoy key p.value
      · rw [if_pos hdecoy, @eq_comm _ []]
        simp [hdecoy]
      · rw [if_neg hdecoy, ih, Unhidden]
        simp [hdecoy]

/-! The parts of a body with such dispositions. -/

theorem trim_writeDisposition (params : List DispositionParam) :
    trim (writeDisposition params) = writeDisposition params := by
  apply trim_eq_self
  · intro c hc
    cases hc
    rfl
  · intro c hc
    obtain rfl | ⟨front, p, rfl⟩ := params.eq_nil_or_concat'
    · cases hc
      rfl
    · have hlast : (writeDisposition (front ++ [p])).getLast? = some QUOTE := by
        simp [writeDisposition, quotedParam, List.getLast?_append, List.getLast?_cons]
      cases hlast.symm.trans hc
      rfl

/-- The header lines that a client writes name the parameters. -/
theorem foldl_partHeader_disposition (params : List DispositionParam) (mime : Option Bytes) :
    ((bytes "Content-Disposition: " ++ writeDisposition params) ::
        (mime.map fun mime => bytes "Content-Type: " ++ mime).toList).foldl partHeader ([], []) =
      (writeDisposition params, trim (mime.getD [])) := by
  rw [foldl_partHeader_lines, trim_writeDisposition]

/-- A part whose header lines, whatever else they hold, name these parameters. -/
structure DispositionPart (b : Boundary) where
  params : List DispositionParam
  lines : List Bytes
  mime : Bytes
  content : Bytes
  head : lines.foldl partHeader ([], []) = (writeDisposition params, mime)
  noCr : ∀ line ∈ lines, CR ∉ line
  full : ∀ line ∈ lines, line ≠ []
  plainLines : ∀ line ∈ lines, ¬delimiter b.text <:+: line
  plainContent : ¬delimiter b.text <:+: content

namespace DispositionPart
variable {b : Boundary}

/-- What the parameters ask for: a file where they name a safe one, else a field, and nothing
without a name. -/
def entry (p : DispositionPart b) : Multipart :=
  let name := paramValue (bytes "name") p.params
  let filename := sanitizeFilename (paramValue (bytes "filename") p.params)
  if name = [] then {}
  else if filename ≠ [] then
    let mime := if p.mime = [] then bytes "application/octet-stream" else p.mime
    { files := [⟨name, filename, mime, p.content⟩] }
  else { fields := [(name, p.content)] }

/-- The part behind its delimiter, up to the next one and the text behind that. -/
def write (p : DispositionPart b) (rest : Bytes) : Bytes :=
  CRLF ++ (joinLines CR LF (p.lines ++ [[]]) ++
    (p.content ++ CR :: LF :: (delimiter b.text ++ rest)))

theorem lines_ne_nil (p : DispositionPart b) : p.lines ≠ [] := by
  intro hnil
  have hhead := p.head
  rw [hnil] at hhead
  cases (Prod.mk.inj hhead).1

/-- The disposition is read back where a part is named and filed. -/
theorem addContent_head (p : DispositionPart b) (hname : Unhidden (bytes "name") p.params)
    (hfilename : Unhidden (bytes "filename") p.params) (result : Multipart) :
    result.addContent (p.lines.foldl partHeader ([], [])) p.content = result.append p.entry := by
  have hread (key : Bytes) (hkey : QUOTE ∉ key) (h : Unhidden key p.params) :
      dispositionParam (writeDisposition p.params) key = paramValue key p.params :=
    (dispositionParam_write key p.params).trans ((findParam_params hkey p.params).mpr h)
  rw [p.head]
  simp only [Multipart.addContent, entry, hread _ (by decide) hname, hread _ (by decide) hfilename]
  split_ifs <;> simp [Multipart.append]

end DispositionPart

/-- Every key finds its value, and every round of `parse_multipart` on a part with these parameters
files it as they say. -/
def ReadBack (params : List DispositionParam) : Prop :=
  (∀ key, isToken key = true →
    dispositionParam (writeDisposition params) key = paramValue key params) ∧
  ∀ (b : Boundary) (p : DispositionPart b), p.params = params →
    ∀ (result : Multipart) (rest : Bytes), multipartLoop b.text result (p.write rest) =
      multipartLoop b.text (result.append p.entry) rest

theorem multipartLoop_write {b : Boundary} (p : DispositionPart b)
    (hname : Unhidden (bytes "name") p.params) (hfilename : Unhidden (bytes "filename") p.params)
    (result : Multipart) (rest : Bytes) :
    multipartLoop b.text result (p.write rest) =
      multipartLoop b.text (result.append p.entry) rest := by
  rw [DispositionPart.write, multipartLoop_lines p.lines_ne_nil p.plainLines p.plainContent,
    addPart_head p.lines_ne_nil p.noCr p.full, p.addContent_head hname hfilename]

/-- Parameters are read back exactly where no semicolon hides one of them. -/
theorem readBack_iff (params : List DispositionParam) :
    ReadBack params ↔ ∀ key, isToken key = true → Unhidden key params := by
  constructor
  · intro h key hkey
    have hread := h.1 key hkey
    rw [dispositionParam_write] at hread
    exact (findParam_params (not_mem_of_isToken hkey (by decide)) params).mp hread
  · intro h
    refine ⟨?_, ?_⟩
    · intro key hkey
      rw [dispositionParam_write]
      exact (findParam_params (not_mem_of_isToken hkey (by decide)) params).mpr (h key hkey)
    · rintro b p rfl result rest
      exact multipartLoop_write p (h _ (by decide)) (h _ (by decide)) result rest

/-- The single parameter `name="a;b"`. -/
def semicolonParam : DispositionParam :=
  ⟨bytes "name", bytes "a;b", by decide, by decide, by decide, by decide⟩

theorem dispositionParam_semicolon :
    writeDisposition [semicolonParam] = bytes "form-data; name=\"a;b\"" ∧
      paramValue (bytes "name") [semicolonParam] = bytes "a;b" ∧
      dispositionParam (writeDisposition [semicolonParam]) (bytes "name") = [] ∧
      ({} : Multipart).addPart (bytes "Content-Disposition: " ++
        writeDisposition [semicolonParam] ++ CRLFCRLF ++ bytes "DATA") = {} ∧
      ¬ReadBack [semicolonParam] := by
  refine ⟨by decide, by decide, by decide, by decide +kernel, ?_⟩
  intro h
  exact absurd (h.1 (bytes "name") (by decide)) (by decide)

/-- What follows the first delimiter of a body. -/
def partsTail (b : Boundary) (epilogue : Bytes) : List (DispositionPart b) → Bytes
  | [] => bytes "--" ++ epilogue
  | p :: parts => p.write (partsTail b epilogue parts)

/-- A whole body: each part whose name and file name are not hidden is filed, in order. -/
theorem parseMultipart_parts (b : Boundary) (parts : List (DispositionPart b)) (epilogue : Bytes)
    (hparts : ∀ p ∈ parts, Unhidden (bytes "name") p.params ∧
      Unhidden (bytes "filename") p.params) :
    parseMultipart (delimiter b.text ++ partsTail b epilogue parts) b.text =
      (parts.map DispositionPart.entry).foldl Multipart.append {} := by
  have hloop (result : Multipart) : multipartLoop b.text result (partsTail b epilogue parts) =
      (parts.map DispositionPart.entry).foldl Multipart.append result := by
    induction parts generalizing result with
    | nil => rw [partsTail, multipartLoop, if_pos (by simp), List.map_nil, List.foldl_nil]
    | cons p parts ih =>
      obtain ⟨hp, hrest⟩ := List.forall_mem_cons.mp hparts
      rw [partsTail, multipartLoop_write p hp.1 hp.2, ih hrest]
      rfl
  rw [parseMultipart, if_neg b.nonempty, find_append_self]
  simp [hloop]

end Vermell.Http
