import Mathlib.Data.List.MinMax
import Vermell.Http.FieldGrammar
import Vermell.Router.Execute

/-! Which route or mount answers a request. The order that is meant is stated on what was
registered; the tables and the branches over them are compared with it. -/
namespace Vermell.Router
open Http Text

/-- The tables behind registrations. The cooldown of a route is the one it has when the request is
served. -/
def registered (regs : List Route) (mounts : List StaticMount) : Tables :=
  mounts.foldl Tables.staticX (regs.foldl Tables.httpResponse {})

/-- The exact route that was registered last for a path and a method. -/
def exactRoute (regs : List Route) (path method : Bytes) : Option Route :=
  regs.reverse.find? fun r => !isPatternRoute r.path && r.path == path && r.method == method

/-- The first pattern route of the method that matches, with what it captures. -/
def matchingRoute (regs : List Route) (path method : Bytes) :
    Option (Route × List (Bytes × Bytes)) :=
  regs.findSome? fun r =>
    if isPatternRoute r.path ∧ r.method = method then
      (matchPattern (splitPath r.path) (splitPath path)).map (r, ·)
    else none

/-- The first of the longest mounts that cover a path. -/
def longestMount (mounts : List StaticMount) (path : Bytes) : Option StaticMount :=
  (mounts.filter fun m => m.covers path).argmax fun m => m.mount.length

/-- Exact routes first, then patterns, then mounts. -/
def resolve (regs : List Route) (mounts : List StaticMount) (path method : Bytes) : Answerer :=
  match exactRoute regs path method with
  | some r => .exact r
  | none =>
    match matchingRoute regs path method with
    | some (r, params) => .pattern r params
    | none =>
      match longestMount mounts path with
      | some m => .mount m
      | none => .notDefined

/-- A response is the answerer's own. -/
def Answerer.Gives (w : World) (message : Message) (response : WireResponse) : Answerer → Prop
  | .exact r => ∃ cooldown, r.answer w message [] = .ok (response, cooldown)
  | .pattern r params => ∃ cooldown, r.answer w message params = .ok (response, cooldown)
  | .mount m => m.serve w.disk message.path message.method
      (message.header (bytes "If-None-Match")) = some response
  | .notDefined => response = notDefinedPage
  | .malformed => response = malformedPage

/-- The handlers of a route return, or its guard keeps them from running. -/
def Route.Returns (w : World) (message : Message) (params : List (Bytes × Bytes)) (r : Route) :
    Prop :=
  timeGuard w.now r.cooldown = true ∨ ∃ q, runMiddlewares message params {} r.middlewares = .ok q

theorem Route.returns_iff {w : World} {message : Message} {params : List (Bytes × Bytes)}
    {r : Route} : r.Returns w message params ↔ ∃ a, r.answer w message params = .ok a := by
  unfold Route.Returns Route.answer
  cases hguard : timeGuard w.now r.cooldown with
  | true => simp
  | false =>
    cases hrun : runMiddlewares message params {} r.middlewares with
    | error e => simp [execute, hrun, Bind.bind, Except.bind]
    | ok q => simp [execute, hrun, Bind.bind, Except.bind, Pure.pure, Except.pure]

theorem registered_eq (regs : List Route) (mounts : List StaticMount) : registered regs mounts =
    { routes := Assoc.putAll id ((regs.filter fun r => !isPatternRoute r.path).map
        fun r => (routeKey r.path r.method, r)) []
      patternRoutes := (regs.filter fun r => isPatternRoute r.path).map
        fun r => ⟨splitPath r.path, r⟩
      mounts } := by
  have hroutes (t : Tables) : regs.foldl Tables.httpResponse t =
      { t with
        routes := Assoc.putAll id ((regs.filter fun r => !isPatternRoute r.path).map
          fun r => (routeKey r.path r.method, r)) t.routes
        patternRoutes := t.patternRoutes ++ (regs.filter fun r => isPatternRoute r.path).map
          fun r => ⟨splitPath r.path, r⟩ } := by
    induction regs generalizing t with
    | nil => simp [Assoc.putAll]
    | cons r rest ih =>
      rw [List.foldl_cons, ih]
      cases h : isPatternRoute r.path <;> simp [Tables.httpResponse, h, Assoc.putAll]
  have hmounts (t : Tables) : mounts.foldl Tables.staticX t =
      { t with mounts := t.mounts ++ mounts } := by
    induction mounts generalizing t with
    | nil => simp
    | cons m rest ih =>
      rw [List.foldl_cons, ih]
      simp [Tables.staticX]
  rw [registered, hroutes, hmounts]
  simp

theorem splitTarget_subset (target : Bytes) : (splitTarget target).1 ⊆ target := by
  have hdrop (path : Bytes) (h : path ⊆ target) :
      (if path.length > 1 ∧ path.getLast? = some SLASH then path.dropLast else path) ⊆ target := by
    split_ifs
    · exact List.Subset.trans (List.dropLast_subset path) h
    · exact h
  unfold splitTarget
  cases target.idxOf? QUESTION with
  | none => exact hdrop target (List.Subset.refl _)
  | some q => exact hdrop (target.take q) (List.take_subset q target)

/-- No byte of a request's path or method is the separator of route keys. -/
theorem parse_no_separator {raw : Bytes} {message : Message} (h : parse raw = some message) :
    KEY_SEPARATOR ∉ message.path ∧ KEY_SEPARATOR ∉ message.method := by
  obtain ⟨_, _, method, target, _, _, _, _, _, _, _, _, _, hline, -, -, -, rfl⟩ :=
    (parse_eq_some_iff raw message).mp h
  simp only [parseRequestLine, Option.bind_eq_bind, Option.bind_eq_some_iff, Option.guard_eq_some',
    Option.pure_def, Option.some.injEq, Prod.mk.injEq] at hline
  obtain ⟨_, -, -, -, _, -, -, -, -, -, -, ⟨htoken, htarget, -⟩, rfl, rfl, -⟩ := hline
  obtain ⟨type, params, heq⟩ := Message.parseContentType_eq _
  rw [heq]
  constructor
  · intro hmem
    have hvalid := (Bool.and_eq_true _ _ ▸ htarget).2
    have := List.all_eq_true.mp hvalid _ (splitTarget_subset _ hmem)
    exact absurd this (by decide)
  · intro hmem
    exact absurd ((isToken_iff _).mp htoken |>.2 _ hmem) (by decide)

theorem get_map_key {α κ : Type*} [DecidableEq κ] (f : α → κ) (k : κ) (l : List α) :
    Assoc.get id k (l.map fun a => (f a, a)) = l.find? fun a => f a = k := by
  induction l with
  | nil => rfl
  | cons a rest ih =>
    by_cases h : f a = k <;> simp [Assoc.get, h, ih]

/-- The lookup finds the exact route that was registered last. -/
theorem get_registered (regs : List Route) (mounts : List StaticMount) {path method : Bytes}
    (hpath : KEY_SEPARATOR ∉ path) (hmethod : KEY_SEPARATOR ∉ method) :
    Assoc.get id (routeKey path method) (registered regs mounts).routes =
      exactRoute regs path method := by
  have hsame : (fun r : Route => decide ((!isPatternRoute r.path) = true ∧
        decide (routeKey r.path r.method = routeKey path method) = true)) =
      fun r => !isPatternRoute r.path && r.path == path && r.method == method := by
    funext r
    have hkey : routeKey r.path r.method = routeKey path method ↔
        r.path = path ∧ r.method = method := by
      constructor
      · exact routeKey_inj hpath hmethod
      · rintro ⟨rfl, rfl⟩
        rfl
    rw [Bool.eq_iff_iff]
    simp [hkey, and_assoc]
  rw [registered_eq, Assoc.get_putAll, ← List.map_reverse, get_map_key, ← List.filter_reverse,
    List.find?_filter, hsame]
  exact Option.or_none

/-- A route answers for an answerer. -/
def Route.served (w : World) (message : Message) (params : List (Bytes × Bytes)) (r : Route)
    (answerer : Answerer) : Except Ending (Option Served) := do
  let (response, cooldown) ← r.answer w message params
  return some ⟨answerer, response, some cooldown⟩

/-- The loop over the pattern routes serves the first that matches. -/
theorem servePatterns_eq (w : World) (message : Message) (regs : List Route) :
    servePatterns w message ((regs.filter fun r => isPatternRoute r.path).map
        fun r => ⟨splitPath r.path, r⟩) =
      match matchingRoute regs message.path message.method with
      | some (r, params) => r.served w message params (.pattern r params)
      | none => .ok none := by
  induction regs with
  | nil => rfl
  | cons r rest ih =>
    by_cases hpattern : isPatternRoute r.path = true
    · by_cases hmethod : r.method = message.method
      · cases hmatch : matchPattern (splitPath r.path) (splitPath message.path) with
        | none =>
          simp [servePatterns, matchingRoute, hpattern, hmethod, hmatch] at ih ⊢
          exact ih
        | some params =>
          simp [servePatterns, matchingRoute, hpattern, hmethod, hmatch, Route.served]
      · simp [servePatterns, matchingRoute, hpattern, hmethod] at ih ⊢
        exact ih
    · simp [matchingRoute, hpattern] at ih ⊢
      exact ih

/-- The loop over the mounts finds the first of the longest. -/
theorem bestMount_eq (path : Bytes) (mounts : List StaticMount) :
    bestMount path mounts = longestMount mounts path := by
  unfold bestMount longestMount
  induction mounts using List.reverseRecOn with
  | nil => rfl
  | append_singleton mounts m ih =>
    rw [List.foldl_append, ih, List.filter_append]
    by_cases hcovers : m.covers path = true
    · have hpos : 0 < m.mount.length := by
        cases hmount : m.mount with
        | nil => simpa [hmount] using m.rooted
        | cons c mount => simp
      have hlast : [m].filter (fun m => m.covers path) = [m] := by simp [hcovers]
      rw [hlast, List.argmax_concat]
      cases hbest : (mounts.filter fun m => m.covers path).argmax fun m => m.mount.length with
      | none => simp [hcovers, hpos]
      | some best => simp [hcovers]
    · simp [hcovers]

/-- A mount that covers the path answers a GET or a HEAD, if only with an error page. -/
theorem serve_covered (disk : Disk) {m : StaticMount} {path method : Bytes} (ifNoneMatch : Bytes)
    (hcovers : m.covers path = true) (hmethod : method = bytes "GET" ∨ method = bytes "HEAD") :
    ∃ response, m.serve disk path method ifNoneMatch = some response := by
  have hno : ¬(method ≠ bytes "GET" ∧ method ≠ bytes "HEAD") := by tauto
  unfold StaticMount.covers at hcovers
  unfold StaticMount.serve
  simp only [if_neg hno, hcovers, Bool.not_true, Bool.false_eq_true, if_false]
  split_ifs <;> exact ⟨_, rfl⟩

/-- The handlers of the route that is meant to answer return, if a route is. -/
def HandlersReturn (w : World) (message : Message) : Answerer → Prop
  | .exact r => r.Returns w message []
  | .pattern r params => r.Returns w message params
  | _ => True

/-- The mounts are asked wherever they are meant to answer: a route does, or no pattern route is
registered, or no mount covers the path. -/
def MountsAsked (regs : List Route) (mounts : List StaticMount) (path method : Bytes) : Prop :=
  exactRoute regs path method ≠ none ∨ matchingRoute regs path method ≠ none ∨
    (∀ r ∈ regs, isPatternRoute r.path = false) ∨ ∀ m ∈ mounts, m.covers path = false

/-- The request is answered by the answerer that is meant to, with its own response. -/
def AnsweredBy (w : World) (t : Tables) (message : Message) (answerer : Answerer) : Prop :=
  ∃ served, serveMessage w t message = .ok served ∧ served.answerer = answerer ∧
    answerer.Gives w message served.response

theorem answeredBy_route {w : World} {t : Tables} {message : Message} {r : Route}
    {params : List (Bytes × Bytes)} {answerer : Answerer}
    (hserve : serveRoutes w t message = r.served w message params answerer)
    (hdefined : answerer ≠ .notDefined)
    (hgives : ∀ response, answerer.Gives w message response ↔
      ∃ cooldown, r.answer w message params = .ok (response, cooldown)) :
    AnsweredBy w t message answerer ↔ r.Returns w message params := by
  rw [Route.returns_iff]
  cases hanswer : r.answer w message params with
  | ok a =>
    obtain ⟨response, cooldown⟩ := a
    have hserved : serveMessage w t message = .ok ⟨answerer, response, some cooldown⟩ := by
      simp [serveMessage, hserve, Route.served, hanswer, Bind.bind, Except.bind, Pure.pure,
        Except.pure]
    simp only [Except.ok.injEq, exists_eq', iff_true]
    exact ⟨_, hserved, rfl, (hgives response).mpr ⟨cooldown, hanswer⟩⟩
  | error e =>
    have hserved : serveRoutes w t message = .error e := by
      simp [hserve, Route.served, hanswer, Bind.bind, Except.bind]
    simp only [reduceCtorEq, exists_false, iff_false]
    rintro ⟨served, hmessage, rfl, -⟩
    cases e <;> simp [serveMessage, hserved] at hmessage
    all_goals
      subst hmessage
      exact hdefined rfl

theorem answeredBy_none {w : World} {t : Tables} {message : Message} {answerer : Answerer}
    (hserve : serveRoutes w t message = .ok none) :
    AnsweredBy w t message answerer ↔ answerer = .notDefined := by
  have hserved : serveMessage w t message = .ok ⟨.notDefined, notDefinedPage, none⟩ := by
    simp [serveMessage, hserve]
  constructor
  · rintro ⟨served, hmessage, rfl, -⟩
    cases hserved.symm.trans hmessage
    rfl
  · rintro rfl
    exact ⟨_, hserved, rfl, rfl⟩

theorem answeredBy_mount {w : World} {t : Tables} {message : Message} {m : StaticMount}
    (hcovers : m.covers message.path = true)
    (hmethod : message.method = bytes "GET" ∨ message.method = bytes "HEAD")
    (hserve : serveRoutes w t message = .ok ((m.serve w.disk message.path message.method
      (message.header (bytes "If-None-Match"))).map fun response => ⟨.mount m, response, none⟩)) :
    AnsweredBy w t message (.mount m) := by
  obtain ⟨response, hresponse⟩ := serve_covered w.disk
    (message.header (bytes "If-None-Match")) hcovers hmethod
  refine ⟨⟨.mount m, response, none⟩, ?_, rfl, hresponse⟩
  simp [serveMessage, hserve, hresponse]

section
variable {w : World} {regs : List Route} {mounts : List StaticMount} {message : Message}
  (hexact : Assoc.get id (routeKey message.path message.method)
    (registered regs mounts).routes = none)
include hexact

/-- Where a pattern route is registered, requests without an exact route go to the patterns
alone. -/
theorem serveRoutes_patterns (hsome : ∃ r ∈ regs, isPatternRoute r.path = true) :
    serveRoutes w (registered regs mounts) message =
      match matchingRoute regs message.path message.method with
      | some (r, params) => r.served w message params (.pattern r params)
      | none => .ok none := by
  obtain ⟨r, hr, hpattern⟩ := hsome
  have htable := congrArg Tables.patternRoutes (registered_eq regs mounts)
  have hne : (registered regs mounts).patternRoutes ≠ [] := by
    simp only [htable, ne_eq, List.map_eq_nil_iff, List.filter_eq_nil_iff, not_forall]
    exact ⟨r, hr, by simp [hpattern]⟩
  simp only [serveRoutes, hexact]
  rw [if_pos hne, htable]
  exact servePatterns_eq w message regs

theorem serveRoutes_mounts (hnone : ∀ r ∈ regs, isPatternRoute r.path = false) :
    serveRoutes w (registered regs mounts) message =
      match longestMount mounts message.path with
      | none => .ok none
      | some m => .ok ((m.serve w.disk message.path message.method
          (message.header (bytes "If-None-Match"))).map fun response =>
            ⟨.mount m, response, none⟩) := by
  have hempty : (registered regs mounts).patternRoutes = [] := by
    simp only [registered_eq, List.map_eq_nil_iff, List.filter_eq_nil_iff]
    intro r hr
    simp [hnone r hr]
  have hmounts := congrArg Tables.mounts (registered_eq regs mounts)
  have hbest : bestMount message.path (registered regs mounts).mounts =
      longestMount mounts message.path := by
    rw [hmounts]
    exact bestMount_eq _ _
  unfold serveRoutes
  cases hlongest : longestMount mounts message.path with
  | none => simp [hexact, hempty, hbest, hlongest]
  | some m => simp [hexact, hempty, hbest, hlongest]

end

theorem longestMount_eq_none_iff {mounts : List StaticMount} {path : Bytes} :
    longestMount mounts path = none ↔ ∀ m ∈ mounts, m.covers path = false := by
  simp [longestMount, List.filter_eq_nil_iff]

theorem covers_of_longestMount {mounts : List StaticMount} {path : Bytes} {m : StaticMount}
    (h : longestMount mounts path = some m) : m.covers path = true :=
  (List.mem_filter.mp (List.argmax_mem h)).2

theorem exists_pattern_of_matchingRoute {regs : List Route} {path method : Bytes}
    {found : Route × List (Bytes × Bytes)} (h : matchingRoute regs path method = some found) :
    ∃ r ∈ regs, isPatternRoute r.path = true := by
  obtain ⟨r, hr, hsome⟩ := List.exists_of_findSome?_eq_some h
  by_cases hpattern : isPatternRoute r.path = true
  · exact ⟨r, hr, hpattern⟩
  · simp [hpattern] at hsome

/-- Requests are answered in the order that is meant exactly where the route that is meant to answer
returns and the mounts are asked. -/
theorem answered_in_order_iff (w : World) (regs : List Route) (mounts : List StaticMount)
    (raw : Bytes) (message : Message) (hparse : parse raw = some message)
    (hmethod : message.method = bytes "GET" ∨ message.method = bytes "HEAD") :
    AnsweredBy w (registered regs mounts) message
        (resolve regs mounts message.path message.method) ↔
      HandlersReturn w message (resolve regs mounts message.path message.method) ∧
        MountsAsked regs mounts message.path message.method := by
  obtain ⟨hpath, hmeth⟩ := parse_no_separator hparse
  have hget := get_registered regs mounts hpath hmeth
  cases hexact : exactRoute regs message.path message.method with
  | some r =>
    have hserve : serveRoutes w (registered regs mounts) message =
        r.served w message [] (.exact r) := by
      simp only [serveRoutes, hget, hexact]
      rfl
    have hasked : MountsAsked regs mounts message.path message.method :=
      Or.inl (by simp [hexact])
    simp only [resolve, hexact, HandlersReturn, hasked, and_true]
    exact answeredBy_route hserve (by simp) fun response => Iff.rfl
  | none =>
    rw [hexact] at hget
    cases hmatch : matchingRoute regs message.path message.method with
    | some found =>
      obtain ⟨r, params⟩ := found
      have hserve := serveRoutes_patterns (w := w) hget (exists_pattern_of_matchingRoute hmatch)
      rw [hmatch] at hserve
      have hasked : MountsAsked regs mounts message.path message.method :=
        Or.inr (Or.inl (by simp [hmatch]))
      simp only [resolve, hexact, hmatch, HandlersReturn, hasked, and_true]
      exact answeredBy_route hserve (by simp) fun response => Iff.rfl
    | none =>
      by_cases hnone : ∀ r ∈ regs, isPatternRoute r.path = false
      · have hserve := serveRoutes_mounts (w := w) hget hnone
        have hasked : MountsAsked regs mounts message.path message.method :=
          Or.inr (Or.inr (Or.inl hnone))
        cases hbest : longestMount mounts message.path with
        | none =>
          rw [hbest] at hserve
          simp only [resolve, hexact, hmatch, hbest, HandlersReturn, hasked, and_true, iff_true]
          exact (answeredBy_none hserve).mpr rfl
        | some m =>
          rw [hbest] at hserve
          simp only [resolve, hexact, hmatch, hbest, HandlersReturn, hasked, and_true, iff_true]
          exact answeredBy_mount (covers_of_longestMount hbest) hmethod hserve
      · -- the pattern routes keep the request from the mounts
        have hsome : ∃ r ∈ regs, isPatternRoute r.path = true := by simpa using hnone
        have hserve := serveRoutes_patterns (w := w) hget hsome
        rw [hmatch] at hserve
        rw [answeredBy_none hserve]
        have hasked : MountsAsked regs mounts message.path message.method ↔
            longestMount mounts message.path = none := by
          simp only [MountsAsked, hexact, hmatch, ne_eq, not_true_eq_false, false_or, hnone,
            longestMount_eq_none_iff]
        rw [hasked]
        cases hbest : longestMount mounts message.path <;>
          simp [resolve, hexact, hmatch, hbest, HandlersReturn]

/-- The mount answers for a path beside the one of the exact route. -/
theorem answered_in_order_mount :
    let w : World := ⟨emptyDisk, 1, 1⟩
    let regs : List Route := [⟨bytes "/b", [], bytes "GET", {}⟩]
    let mounts := [StaticMount.make (bytes "/") (bytes "dist") {}]
    ∃ message, parse (bytes "GET /a HTTP/1.0\r\n\r\n") = some message ∧
      AnsweredBy w (registered regs mounts) message
        (resolve regs mounts message.path message.method) := by
  intro w regs mounts
  have hasked : ∀ r ∈ regs, isPatternRoute r.path = false :=
    List.forall_mem_singleton.mpr (by decide)
  exact ⟨_, rfl, (answered_in_order_iff w regs mounts (bytes "GET /a HTTP/1.0\r\n\r\n") _ rfl
    (Or.inl rfl)).mpr ⟨trivial, Or.inr (Or.inr (Or.inl hasked))⟩⟩

/-- A pattern route that does not match keeps a request from the mount that covers its path. -/
theorem pattern_hides_mount :
    let w : World := ⟨emptyDisk, 1, 1⟩
    let regs : List Route := [⟨bytes "/api/:id", [], bytes "GET", {}⟩]
    let mounts := [StaticMount.make (bytes "/") (bytes "dist") {}]
    ∃ message, parse (bytes "GET /a HTTP/1.0\r\n\r\n") = some message ∧
      ¬AnsweredBy w (registered regs mounts) message
        (resolve regs mounts message.path message.method) := by
  intro w regs mounts
  refine ⟨_, rfl, ?_⟩
  rw [answeredBy_none rfl]
  intro h
  cases h

end Vermell.Router
