import Vermell.Http.Framing
import Vermell.Http.Numerals
import Vermell.Assoc

/-! `http::Response`, which builds the head of a response. The header list is a table filed under
the names with their letters lowered, and the framework's defaults fill it. -/
namespace Vermell.Http

/-- The reason phrases, in the order of their codes. -/
def reasons : List (ℤ × String) :=
  [(100, "Continue"), (101, "Switching Protocols"), (200, "OK"), (201, "Created"),
    (202, "Accepted"), (203, "Non-Authoritative Information"), (204, "No Content"),
    (205, "Reset Content"), (206, "Partial Content"), (300, "Multiple Choices"),
    (301, "Moved Permanently"), (302, "Found"), (303, "See Other"), (304, "Not Modified"),
    (307, "Temporary Redirect"), (308, "Permanent Redirect"), (400, "Bad Request"),
    (401, "Unauthorized"), (402, "Payment Required"), (403, "Forbidden"), (404, "Not Found"),
    (405, "Method Not Allowed"), (406, "Not Acceptable"), (408, "Request Timeout"),
    (409, "Conflict"), (410, "Gone"), (411, "Length Required"), (413, "Payload Too Large"),
    (414, "URI Too Long"), (415, "Unsupported Media Type"), (418, "I'm a teapot"),
    (422, "Unprocessable Content"), (429, "Too Many Requests"),
    (431, "Request Header Fields Too Large"), (500, "Internal Server Error"),
    (501, "Not Implemented"), (502, "Bad Gateway"), (503, "Service Unavailable"),
    (504, "Gateway Timeout")]

def reason (code : ℤ) : Bytes := bytes ((reasons.lookup code).getD "OK")

/-- What all phrases of the table have, and the one for other codes. -/
theorem reason_of_forall {P : Bytes → Prop} (hother : P (bytes "OK"))
    (hall : ∀ p ∈ reasons, P (bytes p.2)) (code : ℤ) : P (reason code) := by
  unfold reason
  cases h : reasons.lookup code with
  | none => exact hother
  | some phrase =>
    obtain ⟨front, back, hsplit, -⟩ := List.lookup_eq_some_iff.mp h
    exact hall (code, phrase) (by simp [hsplit])

/-- The bytes that `sanitize` does not let through. -/
def isDirty (c : UInt8) : Bool := c < 0x20 || c == 0x7f

/-- The text in front of the first dirty byte. -/
def sanitize (s : Bytes) : Bytes := s.takeWhile fun c => !isDirty c

structure Response where
  code : ℤ := 200
  headers : List (Bytes × Bytes) := []
  body : Bytes := []
  deriving DecidableEq, Repr

/-- The loop of `set`: replace the value of the first header of that name, else append one. -/
def setHeader (name value : Bytes) : List (Bytes × Bytes) → List (Bytes × Bytes)
  | [] => [(name, value)]
  | (hname, hvalue) :: rest =>
    if iequals hname name then (hname, value) :: rest
    else (hname, hvalue) :: setHeader name value rest

namespace Response

def status (r : Response) (code : ℤ) : Response := { r with code }

def set (r : Response) (name value : Bytes) : Response :=
  if sanitize name = [] then r
  else { r with headers := setHeader (sanitize name) (sanitize value) r.headers }

def type (r : Response) (mime : Bytes) : Response := r.set (bytes "Content-Type") mime

def setBody (r : Response) (content : Bytes) : Response := { r with body := content }

def has (r : Response) (name : Bytes) : Bool := r.headers.any fun h => iequals h.1 name

def statusLine (code : ℤ) : Bytes := bytes "HTTP/1.1 " ++ toCharsInt code ++ SP :: reason code

/-- One header on the wire. -/
def headerLine (f : Bytes × Bytes) : Bytes := f.1 ++ bytes ": " ++ f.2 ++ CRLF

def head (r : Response) : Bytes :=
  statusLine r.code ++ CRLF
    ++ (if r.has (bytes "Server") then [] else bytes "Server: Vermell\r\n")
    ++ (if r.has (bytes "Content-Type") then [] else bytes "Content-Type: text/plain\r\n")
    ++ r.headers.flatMap headerLine
    ++ (if r.has (bytes "Content-Length") then []
        else bytes "Content-Length: " ++ toChars r.body.length ++ CRLF)
    ++ (if r.has (bytes "Accept-Ranges") then [] else bytes "Accept-Ranges: bytes\r\n")
    ++ (if r.has (bytes "X-Content-Type-Options") then []
        else bytes "X-Content-Type-Options: nosniff\r\n")
    ++ (if r.has (bytes "Connection") then [] else bytes "Connection: keep-alive\r\n")
    ++ CRLF

/-- The defaults in front of the headers that were set. -/
def frontDefaults : List (Bytes × Bytes) :=
  [(bytes "Server", bytes "Vermell"), (bytes "Content-Type", bytes "text/plain")]

/-- The defaults behind them. -/
def backDefaults (size : ℕ) : List (Bytes × Bytes) :=
  [(bytes "Content-Length", toChars size), (bytes "Accept-Ranges", bytes "bytes"),
    (bytes "X-Content-Type-Options", bytes "nosniff"), (bytes "Connection", bytes "keep-alive")]

/-- The header lines of the head in their order. -/
def fields (r : Response) : List (Bytes × Bytes) :=
  Assoc.fill lower frontDefaults r.headers (backDefaults r.body.length)

end Response

/-- A head as the lines it consists of. -/
def headText (status : Bytes) (fields : List (Bytes × Bytes)) : Bytes :=
  status ++ CRLF ++ fields.flatMap Response.headerLine ++ CRLF

theorem setHeader_eq (name value : Bytes) (l : List (Bytes × Bytes)) :
    setHeader name value l = Assoc.put lower name value l := by
  induction l with
  | nil => rfl
  | cons h rest ih =>
    obtain ⟨hname, hvalue⟩ := h
    simp only [setHeader, Assoc.put, iequals_iff, ih]

namespace Response

theorem has_iff (r : Response) (name : Bytes) :
    r.has name = true ↔ lower name ∈ Assoc.keys lower r.headers := by
  simp [has, Assoc.keys, iequals_iff]

theorem missing_cons (r : Response) (name value : Bytes) (rest : List (Bytes × Bytes)) :
    (Assoc.missing lower ((name, value) :: rest) r.headers).flatMap headerLine =
      (if r.has name then [] else headerLine (name, value)) ++
        (Assoc.missing lower rest r.headers).flatMap headerLine := by
  by_cases h : r.has name = true
  · have hmem := (r.has_iff name).mp h
    simp [Assoc.missing, h, hmem]
  · have hmem := mt (r.has_iff name).mpr h
    simp [Assoc.missing, h, hmem]

/-- The head is the status line, the header list with its missing defaults and the empty line. -/
theorem head_eq (r : Response) : r.head = headText (statusLine r.code) r.fields := by
  have hnil : (Assoc.missing lower [] r.headers).flatMap headerLine = [] := rfl
  have hlength : headerLine (bytes "Content-Length", toChars r.body.length) =
      bytes "Content-Length: " ++ toChars r.body.length ++ CRLF := rfl
  simp only [headText, fields, Assoc.fill, frontDefaults, backDefaults, List.flatMap_append,
    missing_cons, hnil, hlength, List.append_nil, List.append_assoc]
  simp only [head, List.append_assoc]
  rfl

end Response
end Vermell.Http
