import Vermell.Router.Patterns
import Vermell.Router.Prepare

/-! `StaticMount`, a directory served at a URL prefix. What the disk answers is a parameter. -/
namespace Vermell.Router
open Http

inductive ReadErr
  | ok | notFound | forbidden | tooLarge | ioError
  deriving DecidableEq, Repr

structure ReadResult where
  err : ReadErr
  data : Bytes

/-- The disk as the server sees it in one request. -/
structure Disk where
  /-- `stat` succeeds on a directory. -/
  isDirectory : Bytes → Bool
  /-- Size and modification time where `stat` succeeds on a regular file. -/
  regular : Bytes → Option (ℤ × ℤ)
  /-- `read_bounded` -/
  readBounded : Bytes → ℕ → ReadResult
  /-- `is_within` -/
  isWithin : Bytes → Bytes → Bool

/-- A disk without files. -/
def emptyDisk : Disk where
  isDirectory _ := false
  regular _ := none
  readBounded _ _ := ⟨.notFound, []⟩
  isWithin _ _ := true

structure StaticOptions where
  index : Bytes := bytes "index.html"
  spa : Bool := false
  cache : Bool := true
  maxAge : ℤ := 0
  maxFileBytes : ℕ := 32*1024*1024

/-- A mount. Its prefix starts with a slash. -/
structure StaticMount where
  mount : Bytes
  dir : Bytes
  options : StaticOptions
  rooted : mount.head? = some SLASH

/-- The prefix with one slash in front and none at the end, the root apart. -/
def normalizeMount (mount : Bytes) : Bytes :=
  let mount := if mount.head? = some SLASH then mount else SLASH :: mount
  SLASH :: mount.tail.rdropWhile (· == SLASH)

def StaticMount.make (mount dir : Bytes) (options : StaticOptions) : StaticMount where
  mount := normalizeMount mount
  dir := if dir = [] then [DOT] else dir
  options := options
  rooted := rfl

/-- `mime::detail::table` -/
def mimeTable : List (String × String) :=
  [("html", "text/html"), ("htm", "text/html"), ("css", "text/css"), ("csv", "text/csv"),
    ("tsv", "text/tab-separated-values"), ("txt", "text/plain"), ("md", "text/markdown"),
    ("markdown", "text/markdown"), ("rtf", "text/rtf"), ("vtt", "text/vtt"),
    ("yaml", "application/yaml"), ("yml", "application/yaml"), ("xml", "application/xml"),
    ("json", "application/json"), ("map", "application/json"), ("jsonld", "application/ld+json"),
    ("ndjson", "application/x-ndjson"), ("js", "application/javascript"),
    ("mjs", "application/javascript"), ("cjs", "application/javascript"),
    ("pdf", "application/pdf"), ("epub", "application/epub+zip"), ("zip", "application/zip"),
    ("gz", "application/gzip"), ("bz2", "application/x-bzip2"), ("zst", "application/zstd"),
    ("tar", "application/x-tar"), ("rar", "application/vnd.rar"),
    ("7z", "application/x-7z-compressed"), ("wasm", "application/wasm"),
    ("bin", "application/octet-stream"), ("sql", "application/sql"),
    ("graphql", "application/graphql"), ("jar", "application/java-archive"),
    ("apk", "application/vnd.android.package-archive"), ("doc", "application/msword"),
    ("docx", "application/vnd.openxmlformats-officedocument.wordprocessingml.document"),
    ("docm", "application/vnd.ms-word.document.macroEnabled.12"),
    ("xls", "application/vnd.ms-excel"),
    ("xlsx", "application/vnd.openxmlformats-officedocument.spreadsheetml.sheet"),
    ("xlsm", "application/vnd.ms-excel.sheet.macroEnabled.12"),
    ("ppt", "application/vnd.ms-powerpoint"),
    ("pptx", "application/vnd.openxmlformats-officedocument.presentationml.presentation"),
    ("pptm", "application/vnd.ms-powerpoint.presentation.macroEnabled.12"),
    ("odt", "application/vnd.oasis.opendocument.text"),
    ("ods", "application/vnd.oasis.opendocument.spreadsheet"),
    ("odp", "application/vnd.oasis.opendocument.presentation"), ("png", "image/png"),
    ("jpg", "image/jpeg"), ("jpeg", "image/jpeg"), ("gif", "image/gif"), ("apng", "image/apng"),
    ("bmp", "image/bmp"), ("svg", "image/svg+xml"), ("ico", "image/x-icon"),
    ("webp", "image/webp"), ("avif", "image/avif"), ("heic", "image/heic"),
    ("heif", "image/heif"), ("jxl", "image/jxl"), ("tif", "image/tiff"), ("tiff", "image/tiff"),
    ("mp3", "audio/mpeg"), ("aac", "audio/aac"), ("flac", "audio/flac"), ("m4a", "audio/mp4"),
    ("mid", "audio/midi"), ("midi", "audio/midi"), ("wav", "audio/wav"), ("ogg", "audio/ogg"),
    ("opus", "audio/opus"), ("mp4", "video/mp4"), ("m4v", "video/mp4"), ("webm", "video/webm"),
    ("ogv", "video/ogg"), ("avi", "video/x-msvideo"), ("mkv", "video/x-matroska"),
    ("3gp", "video/3gpp"), ("ts", "video/mp2t"), ("mpeg", "video/mpeg"), ("mpg", "video/mpeg"),
    ("mov", "video/quicktime"), ("ttf", "font/ttf"), ("otf", "font/otf"), ("woff", "font/woff"),
    ("woff2", "font/woff2"), ("eot", "application/vnd.ms-fontobject"), ("ics", "text/calendar"),
    ("sh", "application/octet-stream"), ("php", "application/octet-stream"),
    ("ps", "application/postscript"), ("eps", "application/postscript")]

def DEFAULT_MIME : Bytes := bytes "application/octet-stream"

/-- `mime::of`: the type of the extension of a path. -/
def mimeOf (path : Bytes) : Bytes :=
  let filename := path.takeWhile fun c => c ≠ QUESTION ∧ c ≠ 35
  let ext := filename.rtakeWhile (· ≠ DOT)
  if ¬filename.contains DOT ∨ ext = [] then DEFAULT_MIME
  else if ext.contains SLASH ∨ ext.contains Json.BACKSLASH then DEFAULT_MIME
  else
    match mimeTable.find? fun entry => bytes entry.1 = lower ext with
    | some entry => bytes entry.2
    | none => DEFAULT_MIME

/-- Blanks of a list item in `If-None-Match`. -/
def isItemBlank (c : UInt8) : Bool := c == SP || c == HTAB

/-- `etag_matches` -/
def etagMatches (header etag : Bytes) : Bool :=
  !header.isEmpty && !etag.isEmpty && (header.splitOn Json.COMMA).any fun item =>
    let item := (item.dropWhile isItemBlank).rdropWhile isItemBlank
    item == [STAR] || (if (bytes "W/").isPrefixOf item then item.drop 2 else item) == etag

def makeEtag (size mtime : ℤ) : Bytes :=
  bytes "\"" ++ toCharsInt size ++ bytes "-" ++ toCharsInt mtime ++ bytes "\""

/-- A `..` between slashes. -/
def hasParentSegment (rel : Bytes) : Bool := (rel.splitOn SLASH).contains [DOT, DOT]

/-- `StaticMount::respond`, before the response is taken apart for the wire. -/
def staticResponse (status : ℤ) (body mime cacheControl etag : Bytes) : Response :=
  let response := (((({} : Response).status status).type mime).setBody body)
  let response := if cacheControl ≠ [] then response.set (bytes "Cache-Control") cacheControl
    else response
  if etag ≠ [] then response.set (bytes "ETag") etag else response

def respond (status : ℤ) (body mime cacheControl etag : Bytes) : WireResponse :=
  wire (staticResponse status body mime cacheControl etag)

namespace StaticMount
variable (disk : Disk) (m : StaticMount)

/-- `under_mount` -/
def underMount (decoded : Bytes) : Bool :=
  m.mount == [SLASH] || decoded == m.mount ||
    (decoded.length > m.mount.length && decoded.take m.mount.length == m.mount
      && decoded.getD m.mount.length 0 == SLASH)

def covers (path : Bytes) : Bool := m.underMount (percentDecode path)

def cacheControlHeader : Bytes :=
  if !m.options.cache then [] else bytes "public, max-age=" ++ toCharsInt m.options.maxAge

/-- The directory of the mount, which is the jail of its paths. -/
def root : Bytes := if m.dir = [] then [DOT] else m.dir

/-- A path with a slash at its end. -/
def withSlash (path : Bytes) : Bytes :=
  if path.getLast? = some SLASH then path else path ++ [SLASH]

/-- A path below the directory of the mount. -/
def full (rel : Bytes) : Bytes := withSlash m.root ++ rel

/-- The path below the mount, without slashes at its ends. -/
def relative (decoded : Bytes) : Bytes :=
  let rel := if m.mount = [SLASH] then decoded else decoded.drop m.mount.length
  (rel.dropWhile (· == SLASH)).rdropWhile (· == SLASH)

/-- The file for a path below the mount: a directory's is its index. -/
def target (rel : Bytes) : Bytes :=
  if disk.isDirectory (m.full rel) ∨ rel = [] then withSlash (m.full rel) ++ m.options.index
  else m.full rel

def notFound : WireResponse :=
  respond 404 (bytes "Vermell: 404 Not Found") (bytes "text/plain") [] []
def forbidden : WireResponse :=
  respond 403 (bytes "Vermell: forbidden path") (bytes "text/plain") [] []

/-- The answer for a resolved file, with the answer for one that is not there as a parameter. -/
def serveFile (full ifNoneMatch : Bytes) (missing : WireResponse) : WireResponse :=
  let read := disk.readBounded full m.options.maxFileBytes
  match read.err with
  | .notFound => missing
  | .forbidden => forbidden
  | .tooLarge => respond 413 (bytes "Vermell: file too large") (bytes "text/plain") [] []
  | .ioError => respond 500 (bytes "Vermell: internal error") (bytes "text/plain") [] []
  | .ok =>
    if m.options.cache then
      let etag := match disk.regular full with
        | some (size, mtime) => makeEtag size mtime
        | none => []
      if etag ≠ [] ∧ etagMatches ifNoneMatch etag then
        respond 304 [] (mimeOf full) m.cacheControlHeader etag
      else respond 200 read.data (mimeOf full) m.cacheControlHeader etag
    else respond 200 read.data (mimeOf full) m.cacheControlHeader []

def serveIndex (ifNoneMatch : Bytes) : WireResponse :=
  if !disk.isWithin m.root (m.full m.options.index) then forbidden
  else m.serveFile disk (m.full m.options.index) ifNoneMatch notFound

def servePath (full ifNoneMatch : Bytes) : WireResponse :=
  m.serveFile disk full ifNoneMatch
    (if m.options.spa then m.serveIndex disk ifNoneMatch else notFound)

/-- `serve`: `none` where the method or the path is not the mount's. -/
def serve (path method ifNoneMatch : Bytes) : Option WireResponse :=
  if method ≠ bytes "GET" ∧ method ≠ bytes "HEAD" then none
  else if !m.underMount (percentDecode path) then none
  else
    let rel := m.relative (percentDecode path)
    if rel.contains 0 || hasParentSegment rel then some forbidden
    else if !disk.isWithin m.root (m.target disk rel) then some forbidden
    else some (m.servePath disk (m.target disk rel) ifNoneMatch)

end StaticMount
end Vermell.Router
