import Vermell.Assoc
import Vermell.Router.StaticMount

/-! `dataRender`, which fills the markers `[[name]]` of a template file with variables. -/
namespace Vermell.Router
open Http

structure RenderSecurity where
  root : Bytes := []
  maxFileBytes : ℕ := 32*1024*1024

/-- `effective_root` -/
def effectiveRoot (sec : RenderSecurity) : Bytes := if sec.root = [] then [DOT] else sec.root

/-- The cases of `escape_html`. Other control characters are dropped. -/
def escapeByte (c : UInt8) : Bytes :=
  if c = 38 then bytes "&amp;"
  else if c = 60 then bytes "&lt;"
  else if c = 62 then bytes "&gt;"
  else if c = QUOTE then bytes "&quot;"
  else if c = 39 then bytes "&#39;"
  else if c ≥ 0x20 ∨ c = LF ∨ c = HTAB then [c]
  else []

def escapeHtml (s : Bytes) : Bytes := s.flatMap escapeByte

/-- `notify_html::noFIle` -/
def noFile (name : Bytes) : Bytes :=
  bytes "Vermell: error no se puedo encontrar el archivo " ++ escapeHtml name ++
    bytes " <br/> Vermell: error cant get the file  " ++ escapeHtml name

def noSafeData : Bytes :=
  bytes ("Vermell: error de sintaxis no <strong>']]'</strong>  <br/> " ++
    "Vermell: sintax error whiout closing the tag with <strong>']]'</strong>  ")

def OPEN_BRACKET : UInt8 := 91
def CLOSE_BRACKET : UInt8 := 93
def OPEN_DATA : Bytes := [OPEN_BRACKET, OPEN_BRACKET]
def CLOSE_DATA : Bytes := [CLOSE_BRACKET, CLOSE_BRACKET]

/-- The scan of `body_tratament`: every opening counts until the first closing. -/
def scanMarker (iter : ℕ) (opening : Option ℕ) : Bytes → Option ℕ × Option ℕ
  | a :: b :: s =>
    if a = OPEN_BRACKET ∧ b = OPEN_BRACKET then scanMarker (iter + 1) (some iter) (b :: s)
    else if a = CLOSE_BRACKET ∧ b = CLOSE_BRACKET then (opening, some iter)
    else scanMarker (iter + 1) opening (b :: s)
  | _ => (opening, none)

inductive Marker
  | absent
  | unclosed
  | found (opening closing : ℕ)
  deriving DecidableEq, Repr

def findMarker (body : Bytes) : Marker :=
  match scanMarker 0 none body with
  | (none, none) => .absent
  | (some opening, some closing) =>
    if closing < opening then .unclosed else .found opening closing
  | _ => .unclosed

/-- The variables, in the order of their registration. -/
abbrev Variables := List (Bytes × Bytes)

/-- The value of a name: its first registration. -/
def valueOf (vars : Variables) (name : Bytes) : Bytes :=
  (Assoc.get id name vars).getD (bytes "error")

/-- `body_tratament`: one marker is replaced. -/
def bodyTratament (vars : Variables) (body : Bytes) : Bytes :=
  match findMarker body with
  | .absent => body
  | .unclosed => noSafeData
  | .found opening closing =>
    let name := (body.drop (opening + 2)).take (closing - opening - 2)
    body.take opening ++ escapeHtml (valueOf vars name) ++ body.drop (closing + 2)

/-- The loop of `render`. -/
def renderPasses (vars : Variables) : ℕ → Bytes → Bytes
  | 0, body => body
  | n + 1, body => renderPasses vars n (bodyTratament vars body)

/-- A pass for each variable. -/
def renderBody (vars : Variables) (body : Bytes) : Bytes :=
  renderPasses vars vars.length body

def render (disk : Disk) (sec : RenderSecurity) (vars : Variables)
    (path : Bytes) : Bytes :=
  if !disk.isWithin (effectiveRoot sec) path then noFile path
  else
    let read := disk.readBounded path sec.maxFileBytes
    if read.err ≠ .ok then noFile path else renderBody vars read.data

end Vermell.Router
