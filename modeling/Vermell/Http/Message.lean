import Vermell.Http.Framing

/-! `Message::parse`: request line, header block, Host rule, body and content type. -/
namespace Vermell.Http

structure Message where
  method : Bytes
  target : Bytes
  path : Bytes
  query : Bytes
  version : Bytes
  body : Bytes
  headers : List (Bytes × Bytes)
  contentLength : ℕ
  contentType : Bytes := []
  contentTypeParams : List (Bytes × Bytes) := []
  deriving DecidableEq, Repr

/-- The value of the first header of that name, empty when there is none. -/
def Message.header (m : Message) (name : Bytes) : Bytes :=
  match m.headers.find? fun h => iequals h.1 name with
  | some h => h.2
  | none => []

/-- The request line of a head, up to its first LF. -/
def requestLine (head : Bytes) : Bytes := (head.splitOn LF).headD []

/-- The lines of a head behind the request line. -/
def headerLines (head : Bytes) : List Bytes := (head.splitOn LF).tail

/-- METHOD SP TARGET SP HTTP/DIGIT.DIGIT, exactly three parts. -/
def parseRequestLine (requestLine : Bytes) : Option (Bytes × Bytes × Bytes) := do
  let sp1 ← requestLine.idxOf? SP
  guard (sp1 ≠ 0)
  let rest := requestLine.drop (sp1 + 1)
  let sp2 ← rest.idxOf? SP
  guard (sp2 ≠ 0)
  guard (SP ∉ rest.drop (sp2 + 1))
  let method := requestLine.take sp1
  let target := rest.take sp2
  let version := stripCr (rest.drop (sp2 + 1))
  guard (isToken method ∧ isValidTarget target ∧ isValidVersion version)
  return (method, target, version)

/-- Path and query of a target; a single trailing slash of a longer path is dropped. -/
def splitTarget (target : Bytes) : Bytes × Bytes :=
  let (path, query) := match target.idxOf? QUESTION with
    | some q => (target.take q, target.drop (q + 1))
    | none => (target, [])
  (if path.length > 1 ∧ path.getLast? = some SLASH then path.dropLast else path, query)

/-- The header loop of `parse` over the lines behind the request line. -/
def parseFields : List Bytes → Option (List (Bytes × Bytes))
  | [] => some []
  | piece :: rest =>
    let line := stripCr piece
    if line = [] then parseFields rest
    else if isFold line then none
    else
      match cutField line with
      | none => none
      | some (name, value) =>
        if !isToken name then none else (parseFields rest).map ((name, value) :: ·)

def isHost (h : Bytes × Bytes) : Bool := iequals h.1 (bytes "Host")

/-- At most one Host in any version, and one unless the version is HTTP/1.0. -/
def hostOk (headers : List (Bytes × Bytes)) (version : Bytes) : Bool :=
  !(headers.countP isHost > 1)
    && !(headers.countP isHost == 0 && !(bytes "HTTP/1.0").isPrefixOf version)

/-- The body behind the head and the content length that goes with it. -/
def parseBody (scan : HeadScan) (rest : Bytes) : Option (Bytes × ℕ) :=
  if scan.hasContentLength && scan.contentLength > 0 then
    if rest.length < scan.contentLength then none
    else some (rest.take scan.contentLength, scan.contentLength)
  else if scan.chunked then
    let result := scanChunked rest
    if result.state ≠ .complete then none else some (result.data, result.data.length)
  else some ([], scan.contentLength)

/-- One `; key=value` parameter; a quoted value loses its quotes. -/
def contentTypeParam (pair : Bytes) : Option (Bytes × Bytes) :=
  match pair.idxOf? EQUALS with
  | none => none
  | some eq =>
    let val := trim (pair.drop (eq + 1))
    let val := if val.length ≥ 2 ∧ val.head? = some QUOTE ∧ val.getLast? = some QUOTE
      then (val.drop 1).dropLast else val
    some (lower (trim (pair.take eq)), val)

def Message.parseContentType (m : Message) : Message :=
  let value := m.header (bytes "Content-Type")
  if value = [] then m
  else
    match value.splitOn SEMICOLON with
    | [] => m
    | mediaType :: params =>
      { m with contentType := lower (trim mediaType),
               contentTypeParams := params.filterMap contentTypeParam }

section
variable (m : Message)

theorem Message.parseContentType_eq : ∃ type params,
    m.parseContentType = { m with contentType := type, contentTypeParams := params } := by
  unfold Message.parseContentType
  simp only
  split_ifs
  · exact ⟨_, _, rfl⟩
  · split
    · exact ⟨_, _, rfl⟩
    · exact ⟨_, _, rfl⟩

@[simp] theorem Message.parseContentType_version : m.parseContentType.version = m.version := by
  obtain ⟨_, _, h⟩ := m.parseContentType_eq
  rw [h]
@[simp] theorem Message.parseContentType_headers : m.parseContentType.headers = m.headers := by
  obtain ⟨_, _, h⟩ := m.parseContentType_eq
  rw [h]
@[simp] theorem Message.parseContentType_body : m.parseContentType.body = m.body := by
  obtain ⟨_, _, h⟩ := m.parseContentType_eq
  rw [h]
@[simp] theorem Message.parseContentType_contentLength :
    m.parseContentType.contentLength = m.contentLength := by
  obtain ⟨_, _, h⟩ := m.parseContentType_eq
  rw [h]
end

def parse (raw : Bytes) : Option Message := do
  let (headEnd, separator) ← headBounds raw
  let head := raw.take headEnd
  let scan := scanHead head
  guard (!(scan.bad || scan.transferEncoding || scan.tooMany))
  guard (lineEndingsOk head separator)
  let (method, target, version) ← parseRequestLine (requestLine head)
  let headers ← parseFields (headerLines head)
  guard (hostOk headers version)
  let (body, contentLength) ← parseBody scan (raw.drop (headEnd + separator))
  let (path, query) := splitTarget target
  let msg : Message := { method, target, path, query, version, body, headers, contentLength }
  return msg.parseContentType

theorem splitOn_eq_cons (head : Bytes) :
    head.splitOn LF = requestLine head :: headerLines head := by
  obtain ⟨l, ls, h⟩ := List.exists_cons_of_ne_nil (List.splitOn_ne_nil LF head)
  simp [requestLine, headerLines, h]

/-- Everything `parse` checks, and what it returns. -/
theorem parse_eq_some_iff (raw : Bytes) (m : Message) :
    parse raw = some m ↔ ∃ headEnd separator method target version headers body contentLength,
      headBounds raw = some (headEnd, separator) ∧
      (scanHead (raw.take headEnd)).bad = false ∧
      (scanHead (raw.take headEnd)).transferEncoding = false ∧
      (scanHead (raw.take headEnd)).tooMany = false ∧
      lineEndingsOk (raw.take headEnd) separator = true ∧
      parseRequestLine (requestLine (raw.take headEnd)) = some (method, target, version) ∧
      parseFields (headerLines (raw.take headEnd)) = some headers ∧
      hostOk headers version = true ∧
      parseBody (scanHead (raw.take headEnd)) (raw.drop (headEnd + separator)) =
        some (body, contentLength) ∧
      m = ({ method, target, path := (splitTarget target).1, query := (splitTarget target).2,
             version, body, headers, contentLength } : Message).parseContentType := by
  simp only [parse, Option.bind_eq_bind, Option.bind_eq_some_iff, Prod.exists,
    Option.guard_eq_some', Bool.not_eq_true', Bool.or_eq_false_iff, Option.pure_def,
    Option.some.injEq]
  constructor
  · rintro ⟨headEnd, separator, hb, -, ⟨⟨hbad, hte⟩, hmany⟩, -, hends, method, target, version,
      hrl, headers, hf, -, hhost, body, contentLength, hbody, rfl⟩
    exact ⟨headEnd, separator, method, target, version, headers, body, contentLength, hb, hbad,
      hte, hmany, hends, hrl, hf, hhost, hbody, rfl⟩
  · rintro ⟨headEnd, separator, method, target, version, headers, body, contentLength, hb, hbad,
      hte, hmany, hends, hrl, hf, hhost, hbody, rfl⟩
    exact ⟨headEnd, separator, hb, (), ⟨⟨hbad, hte⟩, hmany⟩, (), hends, method, target, version,
      hrl, headers, hf, (), hhost, body, contentLength, hbody, rfl⟩

end Vermell.Http
