import Vermell.Http.Message
import Vermell.Router.Prepare

/-! `Query`, the handler's side of a request, and the run of a route's middlewares over one. A
handler is known here by the calls it makes and by how it ends. -/
namespace Vermell.Router
open Http

/-- `HEADERS::generate` -/
def generate (box : List Bytes) : Bytes := box.flatMap (· ++ [LF])

structure Query where
  nextEnable : Bool := false
  timeKey : ℤ := 0
  headers : Bytes := []
  guardMsg : Bytes := []
  last : WireResponse := {}

namespace Query

/-- What a handler may call. A file answer carries what the readers found: the content, the type of
the path and the status. -/
inductive Call
  | setHeaders (header : Bytes)
  | setHeadersBox (box : List Bytes)
  | json (text : Bytes) (status : ℤ)
  | html (text : Bytes) (status : ℤ)
  | send (text : Bytes) (status : ℤ)
  | file (data type : Bytes) (status : ℤ)
  | guard (key : ℤ) (customMsg : Bytes)
  | next

def setHeaders (q : Query) (header : Bytes) : Query :=
  { q with headers := q.headers ++ (header ++ [LF]) }

def setHeadersBox (q : Query) (box : List Bytes) : Query :=
  { q with headers := q.headers ++ generate box }

/-- What every answering call does. -/
def answer (q : Query) (body type : Bytes) (status : ℤ) : Query :=
  { q with last := prepare body type q.headers status }

def json (q : Query) (text : Bytes) (status : ℤ) : Query :=
  q.answer text (bytes "application/json") status
def html (q : Query) (text : Bytes) (status : ℤ) : Query := q.answer text (bytes "text/html") status
def send (q : Query) (text : Bytes) (status : ℤ) : Query :=
  q.answer text (bytes "text/plain") status
def file (q : Query) (data type : Bytes) (status : ℤ) : Query := q.answer data type status

def guard (q : Query) (key : ℤ) (customMsg : Bytes) : Query :=
  { q with guardMsg := if customMsg ≠ [] then customMsg else q.guardMsg, timeKey := key }

def next (q : Query) : Query := { q with nextEnable := true }

def lock (q : Query) : Query := { q with nextEnable := false }

def apply (q : Query) : Call → Query
  | .setHeaders header => q.setHeaders header
  | .setHeadersBox box => q.setHeadersBox box
  | .json text status => q.json text status
  | .html text status => q.html text status
  | .send text status => q.send text status
  | .file data type status => q.file data type status
  | .guard key customMsg => q.guard key customMsg
  | .next => q.next

/-- The query after the calls of a handler. -/
def after (q : Query) (calls : List Call) : Query := calls.foldl apply q

/-- The header strings that a call passes. -/
def Call.strings : Call → List Bytes
  | .setHeaders header => [header]
  | .setHeadersBox box => box
  | _ => []

theorem headers_after (q : Query) (calls : List Call) :
    (q.after calls).headers = q.headers ++ generate (calls.flatMap Call.strings) := by
  unfold after
  induction calls generalizing q with
  | nil => simp [generate]
  | cons call rest ih =>
    rw [List.foldl_cons, ih]
    cases call <;>
      simp [apply, setHeaders, setHeadersBox, json, html, send, file, answer, guard, next,
        Call.strings, generate]

end Query

/-- How a handler ends: it returns, or throws a `std::exception` or something else. -/
inductive Ending
  | returns
  | throws
  | throwsOther
  deriving DecidableEq, Repr

/-- One run of a handler. -/
structure HandlerRun where
  calls : List Query.Call
  ending : Ending

/-- A handler sees the request, the route parameters and the query as it stands. -/
abbrev Middleware := Message → List (Bytes × Bytes) → Query → HandlerRun

/-- The loop of `execute`: the middlewares in order, as long as each calls `next`. -/
def runMiddlewares (message : Message) (params : List (Bytes × Bytes)) (q : Query) :
    List Middleware → Except Ending Query
  | [] => .ok q
  | f :: rest =>
    let run := f message params q.lock
    let q := q.lock.after run.calls
    if run.ending ≠ .returns then .error run.ending
    else if q.nextEnable then runMiddlewares message params q rest
    else .ok q

/-- `Core_init_t::execute`: the response, the cooldown and the guard message that goes with it. -/
def execute (functions : List Middleware) (message : Message) (params : List (Bytes × Bytes)) :
    Except Ending (WireResponse × ℤ × Option Bytes) := do
  let q ← runMiddlewares message params {} functions
  return (q.last, q.timeKey, if q.timeKey > 0 then some q.guardMsg else none)

end Vermell.Router
