import Vermell.Http.Chars
import Vermell.Text.Search

/-! Framing inspection, `Message::inspect` and the private scans under it. A `size_t` position
that may be `npos` is an `Option`; a loop that cuts lines at LF runs over the pieces of
`splitOn LF`, where the loops of the source stop before an empty last piece. -/
namespace Vermell.Http
open Text

def MAX_HEADERS : ℕ := 100
def MAX_HEADER_LINE : ℕ := 64 * 1024

def CRLF : Bytes := [CR, LF]
def CRLFCRLF : Bytes := [CR, LF, CR, LF]
def LFLF : Bytes := [LF, LF]

inductive Framing
  | complete | incomplete | badRequest | tooManyHeaders | notImplemented
  deriving DecidableEq, Repr

structure Inspection where
  framing : Framing
  expected : ℕ
  deriving DecidableEq, Repr

/-- Head bytes and separator size of the head terminator that comes first. -/
def headBounds (raw : Bytes) : Option (ℕ × ℕ) :=
  match find CRLFCRLF raw, find LFLF raw with
  | none, none => none
  | none, some lf => some (lf, 2)
  | some crlf, none => some (crlf, 4)
  | some crlf, some lf => if lf < crlf then some (lf, 2) else some (crlf, 4)

structure HeadScan where
  contentLength : ℕ := 0
  hasContentLength : Bool := false
  bad : Bool := false
  transferEncoding : Bool := false
  chunked : Bool := false
  tooMany : Bool := false
  deriving DecidableEq, Repr

/-- The name and value around the first colon, both trimmed, unless there is no colon or no
byte before it. -/
def cutField (line : Bytes) : Option (Bytes × Bytes) :=
  match line.idxOf? COLON with
  | none => none
  | some colon =>
    if colon = 0 then none
    else some (trim (line.take colon), trim (line.drop (colon + 1)))

/-- What one field means for framing: Content-Length and Transfer-Encoding only. -/
def scanField (scan : HeadScan) (name value : Bytes) : HeadScan :=
  if iequals name (bytes "content-length") then
    if scan.chunked || scan.transferEncoding then { scan with bad := true }
    else
      match fromChars value with
      | none => { scan with bad := true }
      | some (parsed, rest) =>
        if rest ≠ [] then { scan with bad := true }
        else if scan.hasContentLength && scan.contentLength != parsed then
          { scan with bad := true }
        else { scan with hasContentLength := true, contentLength := parsed }
  else if iequals name (bytes "transfer-encoding") then
    if scan.hasContentLength || scan.chunked || scan.transferEncoding then
      { scan with bad := true }
    else if iequals (trim value) (bytes "chunked") then { scan with chunked := true }
    else { scan with transferEncoding := true }
  else scan

/-- The obs-fold test: the line starts with SP or HTAB. -/
def isFold (line : Bytes) : Bool := line.head? == some SP || line.head? == some HTAB

/-- The line loop of `scan_head`. An empty last piece is passed over like any empty line. -/
def scanLines (scan : HeadScan) (count : ℕ) : List Bytes → HeadScan
  | [] => scan
  | piece :: rest =>
    if piece.length > MAX_HEADER_LINE then { scan with bad := true }
    else
      let line := stripCr piece
      if line = [] then scanLines scan count rest
      else if count + 1 > MAX_HEADERS then { scan with tooMany := true }
      else if isFold line then { scan with bad := true }
      else
        match cutField line with
        | none => scanLines scan (count + 1) rest
        | some (name, value) =>
          let scan := scanField scan name value
          if scan.bad then scan else scanLines scan (count + 1) rest

def scanHead (head : Bytes) : HeadScan :=
  match head.splitOn LF with
  | requestLine :: line :: lines =>
    if requestLine.length > MAX_HEADER_LINE then { bad := true }
    else scanLines {} 0 (line :: lines)
  | _ => {}

/-- The request line declares HTTP/1.1 or newer, judged by its first `HTTP/`. -/
def versionAtLeast11 (requestLine : Bytes) : Bool :=
  let v := stripCr requestLine
  match find (bytes "HTTP/") v with
  | none => false
  | some h =>
    if v.length - h ≠ 8 then false
    else
      let major := v.getD (h + 5) 0
      let minor := v.getD (h + 7) 0
      if !isDigit major || v.getD (h + 6) 0 != DOT || !isDigit minor then false
      else if major < 49 then false
      else if major > 49 then true
      else minor ≥ 49

/-- The CRLF policy for HTTP/1.1 and newer. The loop tests the lines that an LF ends, which are
all pieces but the last. -/
def lineEndingsOk (head : Bytes) (separator : ℕ) : Bool :=
  match head.splitOn LF with
  | [] => true
  | requestLine :: lines =>
    if !versionAtLeast11 requestLine then true
    else if separator ≠ 4 then false
    else if requestLine.getLast? ≠ some CR then false
    else lines.dropLast.all fun line => line.isEmpty || line.getLast? == some CR

inductive ChunkState
  | complete | incomplete | malformed
  deriving DecidableEq, Repr

structure ChunkScanResult where
  state : ChunkState
  data : Bytes
  consumed : ℕ
  deriving DecidableEq, Repr

/-- The hexadecimal size of a chunk-size line, `none` when it is malformed: no digit, a value
beyond `size_t`, or something other than `;` behind the digits. -/
def chunkSize (size : ℕ) (any : Bool) : Bytes → Option ℕ
  | [] => if any then some size else none
  | c :: rest =>
    match hexValue c with
    | none => if any && c == SEMICOLON then some size else none
    | some d => if size > (npos - d) / 16 then none else chunkSize (size*16 + d) true rest

theorem findCrlf_le {body : Bytes} {pos i : ℕ} (h : findFrom CRLF body pos = some i) :
    pos ≤ i ∧ i + 2 ≤ body.length :=
  findFrom_le (by simp [CRLF]) h

/-- The trailer lines behind the zero chunk: the bytes consumed once the empty line is there. -/
def scanTrailers (body : Bytes) (pos : ℕ) : Option ℕ :=
  match _h : findFrom CRLF body pos with
  | none => none
  | some tEnd => if tEnd = pos then some (tEnd + 2) else scanTrailers body (tEnd + 2)
  termination_by body.length - pos
  decreasing_by
    have := findCrlf_le _h
    omega

/-- How one iteration of the chunk loop ends: the scan stops with what it has of this chunk, the
body is complete, or the loop goes on behind a chunk. -/
inductive ChunkStep
  | stop (state : ChunkState) (payload : Bytes)
  | done (consumed : ℕ)
  | next (payload : Bytes) (pos : ℕ)
  deriving DecidableEq, Repr

def chunkStep (body : Bytes) (pos : ℕ) : ChunkStep :=
  match findFrom CRLF body pos with
  | none => .stop .incomplete []
  | some lineEnd =>
    match chunkSize 0 false ((body.drop pos).take (lineEnd - pos)) with
    | none => .stop .malformed []
    | some size =>
      let start := lineEnd + 2
      if size = 0 then
        match scanTrailers body start with
        | none => .stop .incomplete []
        | some consumed => .done consumed
      else if body.length - start < size then .stop .incomplete []
      else
        let payload := (body.drop start).take size
        let stop := start + size
        if stop + 2 > body.length then .stop .incomplete payload
        else if body.getD stop 0 ≠ CR ∨ body.getD (stop + 1) 0 ≠ LF then .stop .malformed payload
        else .next payload (stop + 2)

theorem chunkStep_next_lt {body payload : Bytes} {pos pos' : ℕ}
    (h : chunkStep body pos = .next payload pos') : pos < pos' ∧ pos' ≤ body.length := by
  unfold chunkStep at h
  cases hf : findFrom CRLF body pos with
  | none => simp [hf] at h
  | some lineEnd =>
    have hle := findCrlf_le hf
    simp only [hf] at h
    split at h
    · cases h
    · split_ifs at h
      · split at h <;> cases h
      · cases h
        omega

/-- The loop of `scan_chunked` from position `pos`, with the data read so far. -/
def scanChunksFrom (body : Bytes) (pos : ℕ) (data : Bytes) : ChunkScanResult :=
  match _h : chunkStep body pos with
  | .stop state payload => ⟨state, data ++ payload, 0⟩
  | .done consumed => ⟨.complete, data, consumed⟩
  | .next payload pos' => scanChunksFrom body pos' (data ++ payload)
  termination_by body.length - pos
  decreasing_by
    have := chunkStep_next_lt _h
    omega

def scanChunked (body : Bytes) : ChunkScanResult := scanChunksFrom body 0 []

/-- The scan of a head that is still on the wire: pieces that an LF ends, then the partial line. -/
def scanPartial (lines : ℕ) : List Bytes → Framing
  | [] => .incomplete
  | [tail] => if tail.length > MAX_HEADER_LINE then .badRequest else .incomplete
  | line :: rest =>
    if lines + 1 > MAX_HEADERS + 1 then .tooManyHeaders
    else if line.length > MAX_HEADER_LINE then .badRequest
    else scanPartial (lines + 1) rest

/-- The checks `inspect` makes on a complete head, in their order; `none` when all pass. -/
def headVerdict (head : Bytes) (separator : ℕ) : Option Framing :=
  let scan := scanHead head
  if scan.tooMany then some .tooManyHeaders
  else if scan.bad then some .badRequest
  else if scan.transferEncoding then some .notImplemented
  else if !lineEndingsOk head separator then some .badRequest
  else none

/-- Total bytes of a request with a declared body, saturated at `npos`: the caller's size cap
rejects it. -/
def declaredTotal (contentLength base : ℕ) : ℕ :=
  if contentLength > npos - base then npos else base + contentLength

/-- The rest of `inspect`: what a sound head says about the bytes behind it. -/
def inspectBody (scan : HeadScan) (base : ℕ) (raw : Bytes) : Inspection :=
  if scan.chunked then
    let result := scanChunked (raw.drop base)
    match result.state with
    | .complete => ⟨.complete, base + result.consumed⟩
    | .malformed => ⟨.badRequest, 0⟩
    | .incomplete => ⟨.incomplete, 0⟩
  else
    let total := declaredTotal scan.contentLength base
    ⟨if raw.length ≥ total then .complete else .incomplete, total⟩

def inspect (raw : Bytes) : Inspection :=
  match headBounds raw with
  | none => ⟨scanPartial 0 (raw.splitOn LF), 0⟩
  | some (headEnd, separator) =>
    match headVerdict (raw.take headEnd) separator with
    | some framing => ⟨framing, 0⟩
    | none => inspectBody (scanHead (raw.take headEnd)) (headEnd + separator) raw

end Vermell.Http
