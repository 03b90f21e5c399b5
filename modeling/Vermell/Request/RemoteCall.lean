import Vermell.Json.Settled
import Vermell.Request.Conversation
import Vermell.Router.Consume

/-! A function of JSON documents behind a route. A client that sends documents and reads the replies
has called the function: the stream of requests, their parsing, the route, the handler, the response
and its reading leave nothing of themselves in the results. -/
namespace Vermell.Request
open Http Text Router Runs RequestIO

section
variable {δ : Type} (lib : Doubles δ)

/-- A handler as the ones of the documentation: the body is parsed, and what the function makes of
the document is the answer. -/
def jsonHandler (f : Json δ → Json δ) : Middleware := fun message _ _ =>
  match Json.parse lib (({} : Router.Request).consume message).body with
  | none => ⟨[.json (bytes "\x7b\"error\":\"invalid json\"\x7d") 400], .returns⟩
  | some j => ⟨[.json (Json.dump lib (f j)) 200], .returns⟩

/-- The exact route of the path answers POST requests with the function, and never cools down. -/
def Hosts (f : Json δ → Json δ) (path : Bytes) (t : Tables) : Prop :=
  ∃ r, Assoc.get id (routeKey path (bytes "POST")) t.routes = some r ∧
    r.middlewares = [jsonHandler lib f] ∧ r.cooldown.timeKey = 0

/-- A request that carries a document to a path. -/
structure DocumentCall (path : Bytes) extends SentRequest where
  document : Json δ
  method : head.method = bytes "POST"
  target : (splitTarget head.target).1 = path
  serialized : body = Json.dump lib document
  depth : document.enclosure ≤ 256

end

theorem consume_body (r : Router.Request) (msg : Message) : (r.consume msg).body = msg.body := by
  unfold Router.Request.consume
  simp only
  cases msg.contentTypeParam (bytes "boundary") <;> split_ifs <;> rfl

theorem message_path (q : RequestText) (body : Bytes) :
    (q.message body).path = (splitTarget q.target).1 := by
  obtain ⟨_, _, h⟩ := Message.parseContentType_eq _
  rw [RequestText.message, h]

/-- The socket takes the response whole. -/
def Turn.Sends (turn : Turn) (raw : Bytes) : Prop :=
  sendResponse (turn.executed raw).head (turn.executed raw).body turn.outcomes =
    some ((turn.executed raw).head ++ (turn.executed raw).body)

namespace DocumentCall
variable {δ : Type} {lib : Doubles δ} {path : Bytes} (f : Json δ → Json δ)
  (c : DocumentCall lib path)

/-- The document that the function returns, as the server holds it. -/
def result : Json δ := f (Json.settle lib c.document)

/-- The response to a call. -/
def response : Response :=
  prepared (Json.dump lib (c.result f)) (bytes "application/json") [] 200

theorem parsed : parse c.text = some c.message := by
  have hread := (c.toSentRequest.read []).2
  rwa [List.append_nil] at hread

theorem delimited : Delimited (c.response f) :=
  delimited_prepared (by simp [blockEntries, entryOf]) (.page (by decide) (by decide) _)

variable {c} in
/-- Whatever the query holds, the handler answers with the result. -/
theorem handled (hlib : lib.Lawful) (params : List (Bytes × Bytes)) (q : Query) :
    jsonHandler lib f c.message params q =
      ⟨[.json (Json.dump lib (c.result f)) 200], .returns⟩ := by
  have hbody : (({} : Router.Request).consume c.message).body = Json.dump lib c.document := by
    rw [consume_body, SentRequest.message, message_body, c.serialized]
  have hdocument : Json.parse lib (Json.dump lib c.document) =
      some (Json.settle lib c.document) :=
    Json.parse_word lib (Json.value_dump_settle hlib c.document)
      (by rw [Json.enclosure_settle]; exact c.depth)
  unfold jsonHandler
  rw [hbody, hdocument]
  rfl

/-- What is sent for a call. -/
def executed (allow : Bool) : Executed :=
  let settled := settleConnection (keepAliveRequested c.message) allow (c.response f).head
  ⟨settled.2, (c.response f).body, settled.1⟩

variable {c} in
theorem executes (hlib : lib.Lawful) {t : Tables} (hosts : Hosts lib f path t) (w : World)
    (allow : Bool) : executeRoute w t allow c.text = .ok (c.executed f allow) := by
  obtain ⟨r, hget, hmiddlewares, hkey⟩ := hosts
  have hpath : c.message.path = path := (message_path _ _).trans c.target
  have hmethod : c.message.method = bytes "POST" := (message_method _ _).trans c.method
  have hguard : timeGuard w.now r.cooldown = false := by simp [timeGuard, hkey]
  let q := ({} : Query).json (Json.dump lib (c.result f)) 200
  have hrun : runMiddlewares c.message [] {} r.middlewares = .ok q := by
    rw [hmiddlewares, runMiddlewares, handled f hlib]
    rfl
  have hanswer : r.answer w c.message [] = .ok (wire (c.response f), r.cooldown) := by
    have hlast : q.last = wire (c.response f) := rfl
    have hcold : q.timeKey = 0 := rfl
    simp [Route.answer, hguard, execute, hrun, hlast, hcold, Bind.bind, Except.bind, Pure.pure,
      Except.pure]
  have hserved : serveMessage w t c.message =
      .ok ⟨.exact r, wire (c.response f), some r.cooldown⟩ := by
    simp [serveMessage, serveRoutes, hpath, hmethod, hget, hanswer, Bind.bind, Except.bind,
      Pure.pure, Except.pure]
  have hhead : c.message.method ≠ bytes "HEAD" := by
    rw [hmethod]
    decide
  simp only [executeRoute, c.parsed, hserved, if_neg hhead, Bind.bind, Except.bind, Pure.pure,
    Except.pure]
  rfl

theorem headOnly_eq : headOnly c.text = false := by
  have hmethod : c.message.method = bytes "POST" := (message_method _ _).trans c.method
  rw [headOnly, c.parsed, Option.any_some, hmethod]
  decide

variable {c} in
/-- A client reads the result off the response. -/
theorem read (hlib : lib.Lawful) {turn : Turn} (hosts : Hosts lib f path turn.tables)
    (hsends : turn.Sends c.text) (hdepth : (c.result f).enclosure ≤ 256) (s : Bytes) :
    ∃ reply, Reply.read (headOnly c.text) (turn.wire c.text ++ s) = some (reply, s) ∧
      reply.code = 200 ∧ Json.parse lib reply.body = some (Json.settle lib (c.result f)) := by
  have hexecuted : turn.executed c.text = c.executed f turn.allow := by
    rw [Turn.executed, executes f hlib hosts turn.world turn.allow]
  have hwire : turn.wire c.text =
      (c.executed f turn.allow).head ++ (c.executed f turn.allow).body := by
    rw [Turn.wire, hsends, hexecuted, Option.getD_some]
  obtain ⟨sent, -, -, hread⟩ :=
    (c.delimited f).read_sent (keepAliveRequested c.message) turn.allow false s
  rw [c.headOnly_eq, hwire]
  exact ⟨_, hread, rfl, Json.parse_word lib (Json.value_dump_settle hlib (c.result f))
    (by rw [Json.enclosure_settle]; exact hdepth)⟩

end DocumentCall

/-- A client that sends documents to a function on a connection of a server without a pool, in any
segments, and reads the replies, has called the function on the first of them, in order; as long as
the connection is open every document that is received in full has got its reply. Documents and
results are as they settle. -/
theorem remote_calls {δ : Type} (lib : Doubles δ) (hlib : lib.Lawful) (f : Json δ → Json δ)
    (hdepth : ∀ j, j.enclosure ≤ 256 → (f j).enclosure ≤ 256) (path : Bytes) (turns : ℕ → Turn)
    (hosts : ∀ i, Hosts lib f path (turns i).tables) (io io' : RequestIO)
    (a : Accepted) (hpool : io.pool = false) (steps : List ConnectionStep)
    (hrun : exec (converse turns a.fd) (io.acceptOne a) steps = some io')
    (calls : List (DocumentCall lib path))
    (hreceived : (io'.history a.fd).received <+: (calls.map (·.text)).flatten)
    (hsends : ∀ i raw, (io'.history a.fd).handed[i]? = some raw → (turns i).Sends raw) :
    let handed := (io'.history a.fd).handed
    (∃ replies, Reply.readAll (List.replicate handed.length false) (output turns handed) =
        some (replies, []) ∧
      replies.map (fun r => (r.code, Json.parse lib r.body)) = (calls.take handed.length).map
        fun c => (200, some (Json.settle lib (f (Json.settle lib c.document))))) ∧
      (a.fd ∈ io'.openFds → io'.unwinding = false → ∀ k ≤ calls.length,
        ((calls.take k).map (·.text)).flatten <+: (io'.history a.fd).received →
          k ≤ handed.length) := by
  intro handed
  have hconversed : io'.Conversed turns a.fd :=
    (along_of_invariant (fun _ _ _ h hs => Conversed.step h hs)
      (conversed_accept hpool a) steps).exec hrun
  have harrived := hconversed.arrived
  have htexts (l : List (DocumentCall lib path)) :
      (l.map DocumentCall.toSentRequest).map SentRequest.text = l.map (·.text) := by
    rw [List.map_map]
    rfl
  have hfirst : handed <+: (calls.map DocumentCall.toSentRequest).map SentRequest.text :=
    harrived.first (by rwa [htexts])
  have hhanded : handed = (calls.take handed.length).map (·.text) := by
    rw [List.map_take, ← htexts]
    exact List.prefix_iff_eq_take.mp hfirst
  constructor
  · obtain ⟨replies, hread, hforall⟩ := output_read turns (·.text)
      (fun _ c reply => reply.code = 200 ∧
        Json.parse lib reply.body = some (Json.settle lib (c.result f)))
      (calls.take handed.length) (fun i c hc s => by
        have hraw : handed[i]? = some c.text := by rw [hhanded, List.getElem?_map, hc]; rfl
        exact DocumentCall.read f hlib (hosts i) (hsends i _ hraw)
          (hdepth _ (by rw [Json.enclosure_settle]; exact c.depth)) s)
    have hheads : (calls.take handed.length).map (fun c => headOnly c.text) =
        List.replicate handed.length false := by
      have hcount := congrArg List.length hhanded
      rw [List.length_map] at hcount
      rw [List.eq_replicate_iff, List.length_map]
      refine ⟨hcount.symm, fun b hb => ?_⟩
      obtain ⟨c, -, rfl⟩ := List.mem_map.mp hb
      exact c.headOnly_eq
    have hresults : List.Forall₂ Eq
        ((calls.take handed.length).zipIdx.map fun p =>
          (200, some (Json.settle lib (p.1.result f))))
        (replies.map fun r => (r.code, Json.parse lib r.body)) := by
      rw [List.forall₂_map_left_iff, List.forall₂_map_right_iff]
      exact hforall.imp fun p r h => by rw [h.1, h.2]
    rw [hheads, ← hhanded] at hread
    refine ⟨replies, hread, ?_⟩
    rw [List.forall₂_eq_eq_eq] at hresults
    rw [← hresults, ← List.zipIdx_map_fst 0 (calls.take handed.length), List.map_map]
    simp [DocumentCall.result]
  · intro hopen hcalm k hk hwhole
    apply handed_of_waits hfirst (harrived.stream hopen).bytes (harrived.waits hopen hcalm)
    · rwa [List.length_map]
    · rwa [← List.map_take, htexts]

/-- A function that increments integers, called on 41 and on a half in one segment. -/
theorem remote_calls_increment :
    let lib : Doubles Unit :=
      ⟨fun _ => some (bytes "0.5"), fun w => if w = bytes "0.5" then some ((), []) else none,
        fun _ => true⟩
    let f (j : Json Unit) : Json Unit := match j with | .int v => .int (v + 1) | j => j
    let turns (_ : ℕ) : Turn :=
      ⟨⟨emptyDisk, 1, 1⟩,
        ({} : Tables).httpResponse ⟨bytes "/inc", [jsonHandler lib f], bytes "POST", {}⟩, true,
        [.sent 100, .again true, .sent 68, .sent 1]⟩
    let post := bytes "POST /inc HTTP/1.1\r\nHost: a\r\nContent-Length: 2\r\n\r\n41"
    let half := bytes "POST /inc HTTP/1.1\r\nHost: a\r\nContent-Length: 3\r\n\r\n0.5"
    ∃ replies, Reply.readAll [false, false] (output turns [post, half]) = some (replies, []) ∧
      replies.map (fun r => (r.code, Json.parse lib r.body)) =
        [(200, some (.int 42)), (200, some (.double ()))] := by
  intro lib f turns post half
  have hlib : lib.Lawful := by
    have hdigits : Json.Digits [53] := ⟨by decide, List.forall_mem_singleton.mpr (by decide)⟩
    exact ⟨fun _ _ => ⟨bytes "0.5", rfl,
      .mk (Or.inl rfl) (Or.inl rfl) (Or.inr ⟨_, rfl, hdigits⟩) (Or.inl rfl), rfl⟩⟩
  have hosts : ∀ i, Hosts lib f (bytes "/inc") (turns i).tables := fun i => ⟨_, rfl, rfl, rfl⟩
  let fields (n : String) : List (Bytes × Bytes) :=
    [(bytes "Host", bytes "a"), (bytes "Content-Length", bytes n)]
  obtain ⟨first, hfirst, hfirstDocument⟩ :
      ∃ c : DocumentCall lib (bytes "/inc"), c.text = post ∧ c.document = .int 41 :=
    ⟨⟨⟨⟨bytes "POST", bytes "/inc", bytes "HTTP/1.1", fields "2"⟩, bytes "41", bytes "41",
        ⟨by decide, by decide, by decide, by decide, by decide, by decide, by decide, by decide⟩,
        .counted (f := (bytes "Content-Length", bytes "2")) (by decide) (by decide)
          ⟨by decide, List.all_eq_true.mp (by decide)⟩ (by decide), by decide⟩,
      .int 41, rfl, by decide, by decide, by decide⟩, by decide, rfl⟩
  obtain ⟨second, hsecond, hsecondDocument⟩ :
      ∃ c : DocumentCall lib (bytes "/inc"), c.text = half ∧ c.document = .double () :=
    ⟨⟨⟨⟨bytes "POST", bytes "/inc", bytes "HTTP/1.1", fields "3"⟩, bytes "0.5", bytes "0.5",
        ⟨by decide, by decide, by decide, by decide, by decide, by decide, by decide, by decide⟩,
        .counted (f := (bytes "Content-Length", bytes "3")) (by decide) (by decide)
          ⟨by decide, List.all_eq_true.mp (by decide)⟩ (by decide), by decide⟩,
      .double (), rfl, by decide, by decide, by decide⟩, by decide, rfl⟩
  let env : ReadEnv := { recvs := [.data (post ++ half) 1] }
  let io := acceptOne { cfg := {}, pool := false, listenerFd := 3, notifyFd := 4 }
    ⟨5, true, 1⟩
  have hhanded : ((io.handleReadable 5 env).history 5).handed = [post, half] := by decide +kernel
  have hgo : 5 ∈ io.openFds ∧ io.unwinding = false ∧ io.Follows turns 5 env := by decide +kernel
  have hrun : exec (converse turns 5) io [.readable env] =
      some (io.handleReadable 5 env) := by
    simp only [exec, converse]
    rw [if_pos hgo]
    rfl
  have hsends : ∀ i raw, ((io.handleReadable 5 env).history 5).handed[i]? = some raw →
      (turns i).Sends raw := by
    intro i raw hraw
    rw [hhanded] at hraw
    unfold Turn.Sends
    rcases i with _ | _ | i
    · cases hraw
      decide +kernel
    · cases hraw
      decide +kernel
    · simp at hraw
  have hdepth : ∀ j : Json Unit, j.enclosure ≤ 256 → (f j).enclosure ≤ 256 := by
    intro j hj
    cases j <;> exact hj
  obtain ⟨⟨replies, hread, hresults⟩, -⟩ := remote_calls lib hlib f hdepth (bytes "/inc") turns
    hosts _ (io.handleReadable 5 env) ⟨5, true, 1⟩ rfl [.readable env] hrun [first, second] (by
      simp only [List.map_cons, List.map_nil, hfirst, hsecond]
      decide +kernel) hsends
  rw [hhanded] at hread hresults
  have hhalf : Json.settle lib (.double ()) = .double () := by
    have hreal : Json.integerOf (bytes "0.5") = none := by decide
    simp [Json.settle, Json.settleDouble, lib, hreal]
  refine ⟨replies, hread, hresults.trans ?_⟩
  simp [hfirstDocument, hsecondDocument, Json.settle, hhalf, f]

end Vermell.Request
