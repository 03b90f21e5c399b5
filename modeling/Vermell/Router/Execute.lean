import Vermell.Router.Query
import Vermell.Router.StaticMount

/-! The route tables, and `ExecuteRoute` up to the bytes that it hands to the socket. -/
namespace Vermell.Router
open Http Text

/-- The part of `listen_routes` that requests change. Times are ticks of a nanosecond, and 0 is the
default time point. -/
structure Cooldown where
  timeKey : ℤ := 0
  timePoint : ℤ := 0
  guardMsg : Option Bytes := none

/-- `listen_routes` -/
structure Route where
  path : Bytes
  middlewares : List Middleware
  method : Bytes
  cooldown : Cooldown := {}

structure PatternRoute where
  segments : List Bytes
  impl : Route

structure Tables where
  routes : List (Bytes × Route) := []
  patternRoutes : List PatternRoute := []
  mounts : List StaticMount := []

/-- `http_response` -/
def Tables.httpResponse (t : Tables) (r : Route) : Tables :=
  if isPatternRoute r.path then
    { t with patternRoutes := t.patternRoutes ++ [⟨splitPath r.path, r⟩] }
  else { t with routes := Assoc.put id (routeKey r.path r.method) r t.routes }

/-- `staticX` -/
def Tables.staticX (t : Tables) (m : StaticMount) : Tables := { t with mounts := t.mounts ++ [m] }

/-- What a request meets outside: the disk, and the clock at the guard and behind the handler. -/
structure World where
  disk : Disk
  now : ℤ
  finish : ℤ

/-- `TimeGuard`. The distance is a `double` in seconds there, which agrees with whole nanoseconds
on every distance below `2^53` of them, 104 days. -/
def timeGuard (now : ℤ) (c : Cooldown) : Bool :=
  c.timeKey > 0 && c.timePoint != 0 && now - c.timePoint < c.timeKey*10^9

/-- A route answers: with its guard page, or with what its handlers leave. -/
def Route.answer (w : World) (r : Route) (message : Message) (params : List (Bytes × Bytes)) :
    Except Ending (WireResponse × Cooldown) :=
  if timeGuard w.now r.cooldown then
    .ok (guardRoute r.cooldown.timeKey (r.cooldown.guardMsg.getD []), r.cooldown)
  else do
    let (data, timeKey, guardMsg) ← execute r.middlewares message params
    return (data, if timeKey > 0 then ⟨timeKey, w.finish, guardMsg⟩ else r.cooldown)

/-- Where an answer comes from. -/
inductive Answerer
  | exact (r : Route)
  | pattern (r : Route) (params : List (Bytes × Bytes))
  | mount (m : StaticMount)
  | notDefined
  | malformed

structure Served where
  answerer : Answerer
  response : WireResponse
  cooldown : Option Cooldown := none

/-- The loop over the pattern routes, up to the first that matches. -/
def servePatterns (w : World) (message : Message) :
    List PatternRoute → Except Ending (Option Served)
  | [] => .ok none
  | pr :: rest =>
    if pr.impl.method ≠ message.method then servePatterns w message rest
    else
      match matchPattern pr.segments (splitPath message.path) with
      | none => servePatterns w message rest
      | some captured => do
        let (response, cooldown) ← pr.impl.answer w message captured
        return some ⟨.pattern pr.impl captured, response, some cooldown⟩

/-- The loop over the mounts: a longer mount replaces the best one so far. -/
def bestMount (path : Bytes) (mounts : List StaticMount) : Option StaticMount :=
  mounts.foldl (fun best m =>
    if m.covers path ∧ m.mount.length > (best.map fun b => b.mount.length).getD 0 then some m
    else best) none

/-- The branches of `ExecuteRoute` for a parsed request. -/
def serveRoutes (w : World) (t : Tables) (message : Message) : Except Ending (Option Served) :=
  match Assoc.get id (routeKey message.path message.method) t.routes with
  | some r => do
    let (response, cooldown) ← r.answer w message []
    return some ⟨.exact r, response, some cooldown⟩
  | none =>
    if t.patternRoutes ≠ [] then servePatterns w message t.patternRoutes
    else
      match bestMount message.path t.mounts with
      | none => .ok none
      | some m => .ok ((m.serve w.disk message.path message.method
          (message.header (bytes "If-None-Match"))).map fun response => ⟨.mount m, response, none⟩)

/-- The page of a request that nothing answered. -/
def errorPage (status : ℤ) (error : String) : Response :=
  ((({} : Response).status status).type (bytes "application/json")).setBody
    (bytes "\x7b\"error\":\"" ++ bytes error ++ bytes "\"\x7d")

def notDefinedPage : WireResponse := wire (errorPage 404 "this route is not defined")
def malformedPage : WireResponse := wire (errorPage 400 "malformed request")

/-- A parsed request: the branches, with a `std::exception` caught, and the 404 page. -/
def serveMessage (w : World) (t : Tables) (message : Message) : Except Ending Served :=
  match serveRoutes w t message with
  | .ok (some served) => .ok served
  | .ok none => .ok ⟨.notDefined, notDefinedPage, none⟩
  | .error .throwsOther => .error .throwsOther
  | .error _ => .ok ⟨.notDefined, notDefinedPage, none⟩

/-- `keep_alive_requested` -/
def keepAliveRequested (message : Message) : Bool :=
  let conn := message.header (bytes "Connection")
  if iequals conn (bytes "close") then false
  else if iequals conn (bytes "keep-alive") then true
  else !(bytes "HTTP/1.0").isPrefixOf message.version

def CONNECTION_CLOSE : Bytes := bytes "Connection: close"
def CONNECTION_KEEP_ALIVE : Bytes := bytes "Connection: keep-alive"

/-- The end of `ExecuteRoute`: whether the connection is kept, and the head that says so. -/
def settleConnection (requested allow : Bool) (head : Bytes) : Bool × Bytes :=
  let keepAlive := requested && allow && (find CONNECTION_CLOSE head).isNone
  (keepAlive,
    if keepAlive then head
    else
      match find CONNECTION_KEEP_ALIVE head with
      | none => head
      | some pos => head.take (pos + 12) ++ bytes "close" ++ head.drop (pos + 12 + 10))

/-- What `ExecuteRoute` sends and returns. -/
structure Executed where
  head : Bytes
  body : Bytes
  keepAlive : Bool
  deriving DecidableEq, Repr

def executeRoute (w : World) (t : Tables) (allow : Bool) (raw : Bytes) : Except Ending Executed :=
  match parse raw with
  | none =>
    let settled := settleConnection false allow malformedPage.head
    .ok ⟨settled.2, malformedPage.body, settled.1⟩
  | some message => do
    let served ← serveMessage w t message
    let settled := settleConnection (keepAliveRequested message) allow served.response.head
    let body := if message.method = bytes "HEAD" then [] else served.response.body
    return ⟨settled.2, body, settled.1⟩

end Vermell.Router
