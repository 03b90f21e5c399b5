import Vermell.Http.Framing
import Vermell.Text.PairLines

/-! `parse_multipart`: the parts of a multipart/form-data body as fields and files. -/
namespace Vermell.Http
open Text

def BACKSLASH : UInt8 := 92

structure UploadedFile where
  field : Bytes
  filename : Bytes
  mime : Bytes
  content : Bytes
  deriving DecidableEq, Repr

structure Multipart where
  fields : List (Bytes × Bytes) := []
  files : List UploadedFile := []
  deriving DecidableEq, Repr

def isControl (c : UInt8) : Bool := c < 0x20 || c == 0x7f

/-- A file name without its directories, empty when it is not to be trusted. -/
def sanitizeFilename (name : Bytes) : Bytes :=
  let base := name.rtakeWhile fun c => c != SLASH && c != BACKSLASH
  if base = [] ∨ base = [DOT] ∨ base = [DOT, DOT] then []
  else if base.any isControl then []
  else base

/-- The loop of `disposition_param` over the pieces between semicolons. -/
def findParam (key : Bytes) : List Bytes → Bytes
  | [] => []
  | piece :: rest =>
    let param := trim piece
    if (key ++ [EQUALS, QUOTE]).isPrefixOf param then
      let value := param.drop (key.length + 2)
      match value.idxOf? QUOTE with
      | none => []
      | some valueEnd => value.take valueEnd
    else findParam key rest

def dispositionParam (disposition key : Bytes) : Bytes :=
  findParam key (disposition.splitOn SEMICOLON)

/-- What one header line of a part does to the disposition and the type read so far. -/
def partHeader (headers : Bytes × Bytes) (line : Bytes) : Bytes × Bytes :=
  match line.idxOf? COLON with
  | none => headers
  | some colon =>
    let hname := trim (line.take colon)
    let hvalue := trim (line.drop (colon + 1))
    if iequals hname (bytes "Content-Disposition") then (hvalue, headers.2)
    else if iequals hname (bytes "Content-Type") then (headers.1, hvalue)
    else headers

/-- The part without the line break in front of the next delimiter. -/
def stripBreak (part : Bytes) : Bytes :=
  if CRLF.isSuffixOf part then part.take (part.length - 2)
  else if part.getLast? = some LF then part.dropLast
  else part

/-- One round of the loop, from the text between two delimiters. -/
def Multipart.addPart (result : Multipart) (part : Bytes) : Multipart :=
  let split := find CRLFCRLF part
  let partHeaders := match split with | none => part | some i => part.take i
  let content := match split with | none => [] | some i => part.drop (i + 4)
  let headers := (splitLines CR LF partHeaders).foldl partHeader ([], [])
  let name := dispositionParam headers.1 (bytes "name")
  if name = [] then result
  else
    let filename := sanitizeFilename (dispositionParam headers.1 (bytes "filename"))
    if filename ≠ [] then
      let mime := if headers.2 = [] then bytes "application/octet-stream" else headers.2
      { result with files := result.files ++ [⟨name, filename, mime, content⟩] }
    else { result with fields := result.fields ++ [(name, content)] }

def delimiter (boundary : Bytes) : Bytes := bytes "--" ++ boundary

/-- The line break behind a delimiter. -/
def skipBreak (s : Bytes) : Bytes :=
  if CRLF.isPrefixOf s then s.drop 2 else if [LF].isPrefixOf s then s.drop 1 else s

theorem length_skipBreak_le (s : Bytes) : (skipBreak s).length ≤ s.length := by
  unfold skipBreak
  split_ifs <;> simp

/-- The loop, from the text behind a delimiter. -/
def multipartLoop (boundary : Bytes) (result : Multipart) (s : Bytes) : Multipart :=
  if (bytes "--").isPrefixOf s then result
  else
    match _h : find (delimiter boundary) (skipBreak s) with
    | none => result
    | some next =>
      multipartLoop boundary (result.addPart (stripBreak ((skipBreak s).take next)))
        ((skipBreak s).drop (next + (delimiter boundary).length))
  termination_by s.length
  decreasing_by
    have hskip := length_skipBreak_le s
    have hin := occurs_length (by simp [delimiter, bytes]) ((find_eq_some_iff _ _ _).mp _h).2.1
    have hpos : 0 < (delimiter boundary).length := by simp [delimiter, bytes]
    rw [List.length_drop]
    omega

def parseMultipart (body boundary : Bytes) : Multipart :=
  if boundary = [] then {}
  else
    match find (delimiter boundary) body with
    | none => {}
    | some pos => multipartLoop boundary {} (body.drop (pos + (delimiter boundary).length))

end Vermell.Http
