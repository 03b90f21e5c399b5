import Vermell.Router.DataRender
import Vermell.Router.SecureRender

/-! `VerReader`, which fills the module tags `#[name];` of a template with the files that stand next
to it. -/
namespace Vermell.Router
open Http Text

/-- `notify::noPath` -/
def noPath (path : Bytes) : Bytes :=
  bytes "Can't get path file. '" ++ escapeHtml path ++ bytes "',  "

/-- `notify_html::badName` -/
def badName (name : Bytes) : Bytes :=
  bytes "Vermell: nombre de modulo no permitido " ++ escapeHtml name ++
    bytes " <br/> Vermell: module name not allowed " ++ escapeHtml name

def noSafe : Bytes :=
  bytes ("Vermell: error de sintaxis no <strong>'];'</strong>  <br/> " ++
    "Vermell: sintax error whiout closing the tag with <strong>'];'</strong>  ")

/-- `status_of` -/
def statusOf : ReadErr → Bytes
  | .notFound => bytes "404"
  | .forbidden => bytes "403"
  | .tooLarge => bytes "413"
  | .ioError => bytes "500"
  | .ok => bytes "200"

def HASH : UInt8 := 35
def OPEN : Bytes := [HASH, OPEN_BRACKET]
def CLOSE : Bytes := [CLOSE_BRACKET, SEMICOLON]

def MAX_PASSES : ℤ := 64

/-- `std::filesystem::path::parent_path` -/
def parentPath (path : Bytes) : Bytes :=
  if path.all (· == SLASH) then path
  else
    let parent := (path.rdropWhile (· ≠ SLASH)).rdropWhile (· == SLASH)
    if parent = [] ∧ path.head? = some SLASH then [SLASH] else parent

def folderBase (path : Bytes) : Bytes :=
  if parentPath path = [] then [DOT] else parentPath path

/-- The scan of `tratament`: every opening counts until the first closing. -/
def scanTag (iter : ℕ) (opening : Option ℕ) : Bytes → Option ℕ × Option ℕ
  | a :: b :: s =>
    let opening := if a = HASH ∧ b = OPEN_BRACKET then some iter else opening
    if a = CLOSE_BRACKET ∧ b = SEMICOLON then (opening, some iter)
    else scanTag (iter + 1) opening (b :: s)
  | _ => (opening, none)

def findTag (body : Bytes) : Marker :=
  match scanTag 0 none body with
  | (none, none) => .absent
  | (some opening, some closing) =>
    if closing < opening then .unclosed else .found opening closing
  | _ => .unclosed

inductive Tag
  | done | ok | unclosed | badName | notFound | tooLarge | ioError
  deriving DecidableEq, Repr

/-- What `tratament` returns, and the paths that it gave to `read_bounded`. -/
structure Expansion where
  tag : Tag
  out : Bytes
  opened : List Bytes := []

/-- What `processing` returns, the paths that it gave to `read_bounded` in order, and how many tags
it filled. -/
structure Composition where
  page : Bytes
  status : Bytes
  opened : List Bytes := []
  expansions : ℕ := 0

/-- A module was filled in before. -/
def Composition.behind (opened : List Bytes) (c : Composition) : Composition where
  page := c.page
  status := c.status
  opened := opened ++ c.opened
  expansions := c.expansions + 1

variable (disk : Disk) (sec : RenderSecurity)

/-- `tratament` -/
def tratament (folder body : Bytes) : Expansion :=
  match findTag body with
  | .absent => { tag := .done, out := [] }
  | .unclosed => { tag := .unclosed, out := [] }
  | .found opening closing =>
    let name := (body.drop (opening + 2)).take (closing - opening - 2)
    if !validIncludeName name then { tag := .badName, out := name }
    else
      let target := folder ++ SLASH :: name
      if !disk.isWithin folder target then { tag := .badName, out := name }
      else
        let read := disk.readBounded target sec.maxFileBytes
        match read.err with
        | .ok => ⟨.ok, body.take opening ++ read.data ++ body.drop (closing + 2), [target]⟩
        | .notFound => ⟨.notFound, name, [target]⟩
        | .tooLarge => ⟨.tooLarge, name, [target]⟩
        | _ => ⟨.notFound, name, [target]⟩

/-- The loop of `processing`. -/
def composePasses (folder : Bytes) : ℕ → Bytes → Composition
  | 0, body => { page := body, status := bytes "200" }
  | n + 1, body =>
    let e := tratament disk sec folder body
    match e.tag with
    | .done => { page := body, status := bytes "200", opened := e.opened }
    | .ok =>
      if e.out.length > sec.maxFileBytes then
        ⟨bytes "Vermell: the composed page exceeds the allowed size", bytes "413", e.opened, 1⟩
      else (composePasses folder n e.out).behind e.opened
    | .unclosed => { page := noSafe, status := bytes "400", opened := e.opened }
    | .badName => { page := badName e.out, status := bytes "403", opened := e.opened }
    | .tooLarge =>
      { page := bytes "Vermell: a module exceeds the allowed size", status := bytes "413",
        opened := e.opened }
    | .notFound => { page := noFile e.out, status := bytes "404", opened := e.opened }
    | .ioError =>
      { page := bytes "Vermell: internal error while composing", status := bytes "500",
        opened := e.opened }

def passesOf (reserve : ℤ) : ℕ :=
  (if reserve < 0 then 0 else if reserve > MAX_PASSES then MAX_PASSES else reserve).toNat

/-- `processing` -/
def processing (path : Bytes) (reserve : ℤ) : Composition :=
  if !disk.isWithin (effectiveRoot sec) path then { page := noPath path, status := bytes "403" }
  else
    let read := disk.readBounded path sec.maxFileBytes
    if read.err ≠ .ok then
      { page := noPath path, status := statusOf read.err, opened := [path] }
    else
      let c := composePasses disk sec (folderBase path) (passesOf reserve) read.data
      { c with opened := path :: c.opened }

end Vermell.Router
