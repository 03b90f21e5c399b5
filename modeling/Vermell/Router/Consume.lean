import Vermell.Http.MediaType
import Vermell.Request.Arrival
import Vermell.Router.UrlEncoded

/-! `Request`, what a handler sees of a message, and the submissions that a client may send: in a
query, as a form in either coding, or as any other body. -/
namespace Vermell.Router
open Http Text Runs
open Vermell.Request (ReadEnv RequestIO ConnectionStep)
open Vermell.Request.RequestIO (visit arrived_exec)

def TYPE_FORM_URLENCODED : Bytes := bytes "application/x-www-form-urlencoded"
def TYPE_MULTIPART : Bytes := bytes "multipart/form-data"

structure Request where
  parameters : List (Bytes × Bytes) := []
  headers : List (Bytes × Bytes) := []
  body : Bytes := []
  contentType : Bytes := []
  files : List UploadedFile := []
  deriving DecidableEq, Repr

namespace Request

/-- Fills the whole object from a parsed message. -/
def consume (r : Request) (msg : Message) : Request :=
  let r := { r with
    parameters := [], headers := msg.headers, body := msg.body,
    contentType := msg.contentType, files := [] }
  if msg.method = bytes "GET" then
    if msg.query ≠ [] then { r with parameters := parseQuery msg.query } else r
  else if msg.contentType = [] then r
  else if msg.contentType = TYPE_FORM_URLENCODED then
    if msg.body ≠ [] then { r with parameters := parseQuery msg.body } else r
  else if msg.contentType = TYPE_MULTIPART then
    match msg.contentTypeParam (bytes "boundary") with
    | none => r
    | some boundary =>
      if msg.body ≠ [] then
        let form := parseMultipart msg.body boundary
        { r with parameters := form.fields, files := form.files }
      else r
  else
    let data := if msg.body = [] then bytes "null" else msg.body
    { r with parameters := r.parameters ++ [(bytes "data", data)] }

end Request

def isContentType (f : Bytes × Bytes) : Bool := iequals f.1 (bytes "Content-Type")

/-- The first Content-Type field of the head. -/
def Typed (q : RequestText) (t : MediaType) : Prop :=
  ∃ name, q.fields.find? isContentType = some (name, t.text)

/-- The parameters and the files that a request stands for. -/
inductive Submits (q : RequestText) : Bytes → List (Bytes × Bytes) → List UploadedFile → Prop
  | query {body path raw : Bytes} {pairs : List (Bytes × Bytes)} (get : q.method = bytes "GET")
    (target : q.target = path ++ QUESTION :: raw) (path_plain : QUESTION ∉ path)
    (rendering : Rendering pairs raw) : Submits q body pairs []
  | bare {body : Bytes} (get : q.method = bytes "GET") (target : QUESTION ∉ q.target) :
    Submits q body [] []
  | urlencoded {body : Bytes} {pairs : List (Bytes × Bytes)} {t : MediaType}
    (other : q.method ≠ bytes "GET") (typed : Typed q t)
    (type : iequals t.type TYPE_FORM_URLENCODED = true) (rendering : Rendering pairs body) :
    Submits q body pairs []
  | multipart {epilogue : Bytes} {b : Boundary} {parts : List FormPart} {t : MediaType}
    {p : TypeParam} (other : q.method ≠ bytes "GET") (typed : Typed q t)
    (type : iequals t.type TYPE_MULTIPART = true)
    (param : t.params.find? (fun p => iequals p.key (bytes "boundary")) = some p)
    (boundary : p.value = b.text) (fits : ∀ p ∈ parts, p.Fits b)
    (free : ∀ p ∈ parts, ¬delimiter b.text <:+: p.content) :
    Submits q (encodeForm b parts ++ epilogue) (decodedForm parts).fields (decodedForm parts).files
  | data {body : Bytes} {t : MediaType} (other : q.method ≠ bytes "GET") (typed : Typed q t)
    (type : iequals t.type TYPE_FORM_URLENCODED = false ∧ iequals t.type TYPE_MULTIPART = false) :
    Submits q body [(bytes "data", if body = [] then bytes "null" else body)] []
  | untyped {body : Bytes} (other : q.method ≠ bytes "GET")
    (typeless : q.fields.find? isContentType = none) : Submits q body [] []

theorem parseQuery_segments {segments : List Bytes} (h : ∀ s ∈ segments, AMPERSAND ∉ s) :
    parseQuery ([AMPERSAND].intercalate segments) =
      (segments.filter (· ≠ [])).map queryPair := by
  cases segments with
  | nil => rfl
  | cons s rest =>
    unfold parseQuery
    rw [List.splitOn_intercalate AMPERSAND h (List.cons_ne_nil s rest)]

theorem Rendering.parsed {pairs : List (Bytes × Bytes)} {raw : Bytes} (h : Rendering pairs raw) :
    parseQuery raw = pairs := by
  obtain ⟨segments, rfl, hpairs⟩ := h
  rw [parseQuery_segments, map_queryPair hpairs]
  intro s hs
  by_cases hempty : s = []
  · simp [hempty]
  · exact ampersand_not_mem hpairs s (List.mem_filter.mpr ⟨hs, by simpa using hempty⟩)

section
variable (q : RequestText) (body : Bytes)

theorem message_method : (q.message body).method = q.method := by
  obtain ⟨_, _, h⟩ := Message.parseContentType_eq _
  rw [RequestText.message, h]

theorem message_query : (q.message body).query = (splitTarget q.target).2 := by
  obtain ⟨_, _, h⟩ := Message.parseContentType_eq _
  rw [RequestText.message, h]

theorem message_headers : (q.message body).headers = q.fields := Message.parseContentType_headers _

theorem message_body : (q.message body).body = body := Message.parseContentType_body _

end

theorem Typed.message {q : RequestText} {t : MediaType} (h : Typed q t) (body : Bytes) :
    (q.message body).contentType = lower t.type ∧
      (q.message body).contentTypeParams = t.params.map fun p => (lower p.key, p.value) := by
  obtain ⟨name, hfind⟩ := h
  unfold isContentType at hfind
  rw [RequestText.message, parseContentType_text (t := t) (by simp [Message.header, hfind])]
  exact ⟨rfl, rfl⟩

theorem message_untyped {q : RequestText} (h : q.fields.find? isContentType = none)
    (body : Bytes) : (q.message body).contentType = [] := by
  unfold isContentType at h
  rw [RequestText.message, parseContentType_untyped (by simp [Message.header, h])]

theorem lower_eq_iff {s type : Bytes} (htype : lower type = type) :
    lower s = type ↔ iequals s type = true := by
  rw [iequals_iff, htype]

theorem Typed.contentTypeParam {q : RequestText} {t : MediaType} (h : Typed q t) (body : Bytes) :
    (q.message body).contentTypeParam (bytes "boundary") =
      (t.params.find? fun p => iequals p.key (bytes "boundary")).map (·.value) := by
  have hkey (p : TypeParam) :
      decide (lower p.key = bytes "boundary") = iequals p.key (bytes "boundary") := by
    rw [Bool.eq_iff_iff, decide_eq_true_iff, lower_eq_iff (by decide)]
  rw [Message.contentTypeParam, (h.message body).2, List.find?_map, Option.map_map]
  simp only [Function.comp_def, hkey]

theorem lower_full {s : Bytes} (h : s ≠ []) : lower s ≠ [] := by
  unfold lower
  rwa [ne_eq, List.map_eq_nil_iff]

/-- Whatever the object has held before. -/
theorem Submits.consumed {q : RequestText} {body : Bytes} {pairs : List (Bytes × Bytes)}
    {files : List UploadedFile} (h : Submits q body pairs files) (r : Request) :
    r.consume (q.message body) =
      ⟨pairs, q.fields, body, (q.message body).contentType, files⟩ := by
  unfold Request.consume
  simp only [message_method, message_query, message_headers, message_body]
  have hurlencoded : lower TYPE_FORM_URLENCODED = TYPE_FORM_URLENCODED := by decide
  have hmultipart : lower TYPE_MULTIPART = TYPE_MULTIPART := by decide
  cases h with
  | @query _ path raw _ get target path_plain rendering =>
    have hraw : (splitTarget q.target).2 = raw := by
      simp [splitTarget, target, idxOf?_append_cons path_plain]
    have hparsed := rendering.parsed
    rw [if_pos get, hraw]
    split_ifs with hempty
    · rw [hparsed]
    · rw [not_not.mp hempty] at hparsed
      rw [← hparsed]
      rfl
  | bare get target =>
    have hnone : (splitTarget q.target).2 = [] := by
      simp [splitTarget, List.idxOf?_eq_none_iff.mpr target]
    rw [if_pos get, hnone, if_neg (by simp)]
  | urlencoded other typed type rendering =>
    have htype : (q.message body).contentType = TYPE_FORM_URLENCODED := by
      rw [(typed.message body).1, lower_eq_iff hurlencoded, type]
    have hparsed := rendering.parsed
    rw [if_neg other, htype, if_neg (by decide), if_pos rfl]
    split_ifs with hempty
    · rw [hparsed]
    · rw [not_not.mp hempty] at hparsed
      rw [← hparsed]
      rfl
  | @multipart epilogue b parts t p other typed type param boundary fits free =>
    have htype : (q.message (encodeForm b parts ++ epilogue)).contentType = TYPE_MULTIPART := by
      rw [(typed.message _).1, lower_eq_iff hmultipart, type]
    have hparam : (q.message (encodeForm b parts ++ epilogue)).contentTypeParam
        (bytes "boundary") = some b.text := by
      rw [typed.contentTypeParam, param, Option.map_some, boundary]
    have hbody : encodeForm b parts ++ epilogue ≠ [] := by simp [encodeForm, bytes]
    have hform : parseMultipart (encodeForm b parts ++ epilogue) b.text = decodedForm parts := by
      rw [parseMultipart_encodeForm, (multipartLoop_iff fits {} epilogue).mpr free]
      rfl
    rw [if_neg other, htype, if_neg (by decide), if_neg (by decide), if_pos rfl, hparam]
    simp only [if_pos hbody, hform]
  | data other typed type =>
    have hfull := (typed.message body).1 ▸ lower_full (MediaType.full _)
    have hnoForm : (q.message body).contentType ≠ TYPE_FORM_URLENCODED := by
      rw [(typed.message body).1, ne_eq, lower_eq_iff hurlencoded, type.1]
      decide
    have hnoParts : (q.message body).contentType ≠ TYPE_MULTIPART := by
      rw [(typed.message body).1, ne_eq, lower_eq_iff hmultipart, type.2]
      decide
    rw [if_neg other, if_neg hfull, if_neg hnoForm, if_neg hnoParts]
    rfl
  | untyped other typeless => rw [if_neg other, if_pos (message_untyped typeless body)]

/-- A request that submits parameters and files. -/
structure Submission extends SentRequest where
  parameters : List (Bytes × Bytes)
  files : List UploadedFile
  submits : Submits head body parameters files

/-- What the handler of a submission is to see. -/
def Submission.request (s : Submission) : Request :=
  ⟨s.parameters, s.head.fields, s.body, s.message.contentType, s.files⟩

/-- Whatever a client submits on one connection of a server without a pool, in whatever codings and
segments: the handlers see the parameters and the files of the first submissions, one by one. -/
theorem submissions_reach_handlers (io io' : RequestIO) (a : RequestIO.Accepted)
    (hpool : io.pool = false) (steps : List ConnectionStep)
    (hrun : exec (visit a.fd) (io.acceptOne a) steps = some io')
    (sent : List Submission)
    (hreceived : (io'.history a.fd).received <+: (sent.map (·.text)).flatten) :
    (io'.history a.fd).handed.map (fun raw => (parse raw).map ({} : Request).consume) <+:
      sent.map fun s => some s.request := by
  have hfirst : (io'.history a.fd).handed <+:
      (sent.map Submission.toSentRequest).map SentRequest.text := by
    apply (arrived_exec hpool hrun).first
    rwa [List.map_map]
  have hseen : ((sent.map Submission.toSentRequest).map SentRequest.text).map
      (fun raw => (parse raw).map ({} : Request).consume) = sent.map fun s => some s.request := by
    rw [List.map_map, List.map_map]
    apply List.map_congr_left
    intro s _
    have hparsed := (s.read []).2
    rw [List.append_nil] at hparsed
    simp only [Function.comp_apply, hparsed, Option.map_some]
    exact congrArg some (s.submits.consumed {})
  exact hseen ▸ hfirst.map _

/-- A form with a field and a file, its boundary in quotes, in front of a query. -/
theorem submissions_reach_handlers_form :
    let post : RequestText := ⟨bytes "POST", bytes "/u", bytes "HTTP/1.1",
      [(bytes "Host", bytes "b"), (bytes "Content-Type",
        bytes "Multipart/Form-Data; boundary=\"----vermellTestBoundary\""),
      (bytes "Content-Length", bytes "255")]⟩
    let get : RequestText :=
      ⟨bytes "GET", bytes "/?a=1+2", bytes "HTTP/1.1", [(bytes "Host", bytes "b")]⟩
    let env : ReadEnv :=
      { recvs := [.data (post.head ++ encodeForm testBoundary testForm ++ get.head.take 9) 1] }
    let io := RequestIO.acceptOne { cfg := {}, pool := false, listenerFd := 3, notifyFd := 4 }
      ⟨5, true, 1⟩
    ∃ request : Request, request.parameters = (decodedForm testForm).fields ∧
      request.files = (decodedForm testForm).files ∧
      ((io.handleReadable 5 env).history 5).handed.map
        (fun raw => (parse raw).map ({} : Request).consume) = [some request] := by
  intro post get env io
  obtain ⟨sentPost, hpost, hfields, hfiles⟩ : ∃ sent : Submission,
      sent.text = post.head ++ encodeForm testBoundary testForm ∧
      sent.parameters = (decodedForm testForm).fields ∧
      sent.files = (decodedForm testForm).files := by
    let boundary : TypeParam :=
      ⟨bytes "boundary", testBoundary.text, true, bytes " ", [], by decide, by decide, by decide,
        List.all_eq_true.mp (by decide), by decide⟩
    let form : MediaType :=
      ⟨bytes "Multipart/Form-Data", [], [boundary], by decide, by decide,
        List.all_eq_true.mp (by decide), by decide⟩
    have hsubmits := @Submits.multipart post [] testBoundary testForm form boundary
      (by decide) ⟨bytes "Content-Type", by decide⟩ (by decide) rfl rfl testForm_fits testForm_free
    rw [List.append_nil] at hsubmits
    exact ⟨⟨⟨post, encodeForm testBoundary testForm, encodeForm testBoundary testForm,
      ⟨by decide, by decide, by decide, by decide, by decide, by decide, by decide, by decide⟩,
      .counted (f := (bytes "Content-Length", bytes "255")) (by decide) (by decide)
        ⟨by decide, List.all_eq_true.mp (by decide)⟩ (by decide +kernel), by decide +kernel⟩, _, _,
      hsubmits⟩, rfl, rfl, rfl⟩
  obtain ⟨sentGet, hget⟩ : ∃ sent : Submission, sent.text = get.head := by
    have hrendering : Rendering [(bytes "a", bytes "1 2")] (bytes "a=1+2") := by
      have hkey : Encoded (bytes "a") ([97] ++ []) := .cons (.literal (by decide)) .nil
      have hvalue : Encoded (bytes "1 2") ([49] ++ ([43] ++ ([50] ++ []))) :=
        .cons (.literal (by decide)) (.cons (.plus rfl) (.cons (.literal (by decide)) .nil))
      exact ⟨[bytes "a=1+2"], rfl, .cons ⟨_, _, hkey, hvalue, rfl⟩ .nil⟩
    have hsubmits := @Submits.query get [] (bytes "/") _ _ rfl rfl (by decide) hrendering
    exact ⟨⟨⟨get, [], [],
      ⟨by decide, by decide, by decide, by decide, by decide, by decide, by decide, by decide⟩,
      .bodyless (by decide), by decide⟩, _, _, hsubmits⟩, List.append_nil _⟩
  have hgo : 5 ∈ io.openFds ∧ io.unwinding = false := by decide +kernel
  have hhanded : ((io.handleReadable 5 env).history 5).handed.length = 1 := by decide +kernel
  have hrun : exec (visit 5) io [.readable env] = some (io.handleReadable 5 env) := by
    simp only [exec, visit, if_pos hgo, Option.bind_some]
  have hreceived : ((io.handleReadable 5 env).history 5).received <+:
      ([sentPost, sentGet].map (·.text)).flatten := by
    simp only [List.map_cons, List.map_nil, hpost, hget]
    decide +kernel
  generalize io.handleReadable 5 env = served at hhanded hrun hreceived ⊢
  have hseen := submissions_reach_handlers _ served ⟨5, true, 1⟩ rfl [.readable env] hrun
    [sentPost, sentGet] hreceived
  have hfirst := List.prefix_iff_eq_take.mp hseen
  rw [List.length_map, hhanded] at hfirst
  exact ⟨sentPost.request, hfields, hfiles, hfirst⟩

end Vermell.Router
