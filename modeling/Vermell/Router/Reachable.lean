import Vermell.Http.ParseFraming
import Vermell.Router.Resolution

/-! Whether a registered exact route can be reached. Registration keeps the endpoint as it is given,
while `parse` takes one trailing slash off the path of a request. -/
namespace Vermell.Router
open Http Text

/-- A path in origin form that is registered as an exact route. -/
def OriginPath (p : Bytes) : Prop :=
  p.head? = some SLASH ∧ QUESTION ∉ p ∧ isPatternRoute p = false ∧
    ∀ c ∈ p, ¬(c ≤ 0x20 ∨ c = 0x7f)

instance (p : Bytes) : Decidable (OriginPath p) :=
  decidable_of_iff (p.head? = some SLASH ∧ QUESTION ∉ p ∧ isPatternRoute p = false ∧
    p.all (fun c => !(c ≤ 0x20 || c == 0x7f)) = true) (by simp [OriginPath])

/-- A complete request with the request line `method p HTTP/1.1`, header lines that parse and one
Host among them. -/
def RequestFor (method p raw : Bytes) : Prop :=
  ∃ headEnd separator headers, headBounds raw = some (headEnd, separator) ∧
    (inspect raw).framing = .complete ∧
    stripCr (requestLine (raw.take headEnd)) = method ++ SP :: p ++ SP :: bytes "HTTP/1.1" ∧
    parseFields (headerLines (raw.take headEnd)) = some headers ∧ headers.countP isHost = 1

def memcpy (buf : Bytes) (pos : ℕ) (src : Bytes) : Bytes :=
  buf.take pos ++ src ++ buf.drop (pos + src.length)

/-- The key that `ExecuteRoute` writes into a stack buffer of 64 bytes, whatever is in it, or into
heap memory where that is too short. -/
def requestKey (stack path method : Bytes) : Bytes :=
  let keyLen := path.length + 1 + method.length
  let key := if keyLen ≤ stack.length then stack else List.replicate keyLen 0
  let key := (memcpy key 0 path).set path.length KEY_SEPARATOR
  (memcpy key (path.length + 1) method).take keyLen

/-- The lookup of `ExecuteRoute` finds this route for the request. -/
def DispatchedTo (t : Tables) (raw : Bytes) (r : Route) : Prop :=
  ∃ message, parse raw = some message ∧ ∀ stack : Bytes, stack.length = 64 →
    Assoc.get id (requestKey stack message.path message.method) t.routes = some r

/-- Both buffers end up with the key of the registration. -/
theorem requestKey_eq (stack path method : Bytes) :
    requestKey stack path method = routeKey path method := by
  unfold requestKey
  simp only
  generalize hkey : (if path.length + 1 + method.length ≤ stack.length then stack
    else List.replicate (path.length + 1 + method.length) 0) = key
  have hlen : path.length + 1 + method.length ≤ key.length := by
    rw [← hkey]
    split_ifs with h
    · exact h
    · rw [List.length_replicate]
  obtain ⟨c, rest, hrest⟩ := List.exists_cons_of_ne_nil
    (List.length_pos_iff.mp (by rw [List.length_drop]; omega : 0 < (key.drop path.length).length))
  have hset : (memcpy key 0 path).set path.length KEY_SEPARATOR =
      path ++ KEY_SEPARATOR :: rest := by
    unfold memcpy
    rw [List.take_zero, List.nil_append, Nat.zero_add, hrest]
    simp
  rw [hset]
  unfold memcpy routeKey
  have hfront : (path ++ KEY_SEPARATOR :: rest).take (path.length + 1) =
      path ++ [KEY_SEPARATOR] := by
    rw [List.append_cons, List.take_left' (by simp)]
  rw [hfront, List.take_left' (by simp; omega)]
  simp

/-- The version behind the last space of a line, with the CR that may follow it. -/
theorem exists_version_tail {line front : Bytes} (h : stripCr line = front ++ bytes "HTTP/1.1") :
    ∃ tail, line = front ++ tail ∧ SP ∉ tail ∧ stripCr tail = bytes "HTTP/1.1" := by
  unfold stripCr at h
  split_ifs at h with hcr
  · obtain ⟨init, rfl⟩ := List.getLast?_eq_some_iff.mp hcr
    rw [List.dropLast_concat] at h
    exact ⟨bytes "HTTP/1.1" ++ [CR], by rw [h, List.append_assoc], by decide, by decide⟩
  · exact ⟨bytes "HTTP/1.1", h, by decide, by decide⟩

section
variable {method p raw : Bytes} (hmethod : isToken method = true) (hp : OriginPath p)
include hmethod hp

/-- The request line of such a request is read back. -/
theorem parseRequestLine_of_origin {line : Bytes}
    (hline : stripCr line = method ++ SP :: p ++ SP :: bytes "HTTP/1.1") :
    parseRequestLine line = some (method, p, bytes "HTTP/1.1") := by
  obtain ⟨hslash, -, -, hchars⟩ := hp
  have hne : p ≠ [] := by
    rintro rfl
    simp at hslash
  have hspm : SP ∉ method := by
    intro hmem
    exact absurd (((isToken_iff _).mp hmethod).2 _ hmem) (by decide)
  have hspp : SP ∉ p := fun hmem => hchars _ hmem (Or.inl (by decide))
  have htarget : isValidTarget p = true := by
    simpa [isValidTarget, hne] using hchars
  have hfront : stripCr line = method ++ SP :: (p ++ [SP]) ++ bytes "HTTP/1.1" := by
    simpa using hline
  obtain ⟨tail, rfl, hsp, hversion⟩ := exists_version_tail hfront
  have hsplit : method ++ SP :: (p ++ [SP]) ++ tail = method ++ SP :: (p ++ SP :: tail) := by simp
  have hrest : (method ++ SP :: (p ++ SP :: tail)).drop (method.length + 1) = p ++ SP :: tail := by
    rw [List.append_cons, List.drop_left' (by simp)]
  have hlast : (p ++ SP :: tail).drop (p.length + 1) = tail := by
    rw [List.append_cons, List.drop_left' (by simp)]
  have hmpos : method.length ≠ 0 := by
    have := ((isToken_iff _).mp hmethod).1
    simpa using this
  have hv : isValidVersion (bytes "HTTP/1.1") = true := by decide
  rw [hsplit]
  simp only [parseRequestLine, idxOf?_append_cons hspm, hrest, idxOf?_append_cons hspp, hlast,
    List.take_left, hversion, Option.bind_eq_bind, Option.bind_some]
  simp [hmpos, hne, hsp, hmethod, htarget, hv, guard]

/-- It is accepted, with one slash off the end of its path. -/
theorem parse_of_requestFor (hlen : raw.length < npos) (h : RequestFor method p raw) :
    ∃ message, parse raw = some message ∧ message.method = method ∧ message.path =
      if p.length > 1 ∧ p.getLast? = some SLASH then p.dropLast else p := by
  obtain ⟨headEnd, separator, headers, hb, hi, hline, hf, hhost⟩ := h
  have hrl := parseRequestLine_of_origin hmethod hp hline
  have hok : hostOk headers (bytes "HTTP/1.1") = true := by simp [hostOk, hhost]
  obtain ⟨body, contentLength, hparse⟩ := parse_of_complete hlen hb hi hrl hf hok
  refine ⟨_, hparse, ?_⟩
  obtain ⟨type, params, heq⟩ := Message.parseContentType_eq
    { method, target := p, path := (splitTarget p).1, query := (splitTarget p).2,
      version := bytes "HTTP/1.1", body, headers, contentLength }
  rw [heq]
  refine ⟨rfl, ?_⟩
  simp [splitTarget, List.idxOf?_eq_none_iff.mpr hp.2.1]

end

/-- The route that is registered last for a path and a method is reached by every request for them
exactly when the path is the root or has no slash at its end. -/
theorem exact_route_reachable_iff (regs : List Route) (mounts : List StaticMount)
    (method p : Bytes) (r : Route) (raw : Bytes) (hlen : raw.length < npos)
    (hmethod : isToken method = true) (hp : OriginPath p) (hr : exactRoute regs p method = some r)
    (hraw : RequestFor method p raw) :
    DispatchedTo (registered regs mounts) raw r ↔ (p.getLast? = some SLASH → p = [SLASH]) := by
  obtain ⟨message, hparse, hm, hpath⟩ := parse_of_requestFor hmethod hp hlen hraw
  obtain ⟨hsep, hsepm⟩ := parse_no_separator hparse
  have hget := get_registered regs mounts hsep hsepm
  have hdispatch : DispatchedTo (registered regs mounts) raw r ↔
      exactRoute regs message.path method = some r := by
    unfold DispatchedTo
    rw [hparse]
    simp only [requestKey_eq, Option.some.injEq]
    rw [← hm, ← hget]
    constructor
    · rintro ⟨_, rfl, hall⟩
      exact hall (List.replicate 64 0) List.length_replicate
    · intro hfound
      exact ⟨_, rfl, fun _ _ => hfound⟩
  rw [hdispatch]
  have hfound (path : Bytes) (h : exactRoute regs path method = some r) : r.path = path := by
    have := List.find?_some h
    simp only [Bool.and_eq_true, beq_iff_eq] at this
    exact this.1.2
  constructor
  · intro h hslash
    -- the route keeps its endpoint, so the path of the request is not cut
    have hsame := (hfound _ h).symm.trans (hfound _ hr)
    rw [hpath] at hsame
    by_contra hroot
    have hlong : p.length > 1 := by
      obtain ⟨t, rfl⟩ := List.head?_eq_some_iff.mp hp.1
      cases t with
      | nil => exact absurd rfl hroot
      | cons c t => simp
    rw [if_pos ⟨hlong, hslash⟩] at hsame
    have hshort := congrArg List.length hsame
    rw [List.length_dropLast] at hshort
    omega
  · intro hroot
    rw [hpath, if_neg, hr]
    rintro ⟨hlong, hslash⟩
    rw [hroot hslash] at hlong
    simp at hlong

/-- Where the lookup finds a route, its guard or its middlewares answer. -/
theorem DispatchedTo.served {t : Tables} {raw : Bytes} {r : Route} (h : DispatchedTo t raw r)
    (w : World) : ∃ message, parse raw = some message ∧
      serveRoutes w t message = r.served w message [] (.exact r) := by
  obtain ⟨message, hparse, hall⟩ := h
  have hget := hall (List.replicate 64 0) List.length_replicate
  rw [requestKey_eq] at hget
  refine ⟨message, hparse, ?_⟩
  simp only [serveRoutes, hget]
  rfl

theorem requestFor_plain : RequestFor (bytes "GET") (bytes "/a")
    (bytes "GET /a HTTP/1.1\r\nHost: x\r\n\r\n") :=
  ⟨24, 4, [(bytes "Host", bytes "x")], by decide, by decide, by decide, by decide, by decide⟩

theorem exact_route_reachable_plain :
    DispatchedTo (registered [⟨bytes "/a", [], bytes "GET", {}⟩] [])
      (bytes "GET /a HTTP/1.1\r\nHost: x\r\n\r\n") ⟨bytes "/a", [], bytes "GET", {}⟩ := by
  have hslash : (bytes "/a").getLast? ≠ some SLASH := by decide
  exact (exact_route_reachable_iff [⟨bytes "/a", [], bytes "GET", {}⟩] [] (bytes "GET")
    (bytes "/a") _ _ (by decide) (by decide) (by decide) rfl requestFor_plain).mpr
    fun h => absurd h hslash

/-- An endpoint with a slash at its end is registered and never found. -/
theorem trailing_slash_unreachable : ¬ ∀ regs mounts method p r raw, isToken method = true →
    OriginPath p → exactRoute regs p method = some r → RequestFor method p raw →
      DispatchedTo (registered regs mounts) raw r := by
  intro hall
  have hraw : RequestFor (bytes "GET") (bytes "/a/")
      (bytes "GET /a/ HTTP/1.1\r\nHost: x\r\n\r\n") :=
    ⟨25, 4, [(bytes "Host", bytes "x")], by decide, by decide, by decide, by decide, by decide⟩
  obtain ⟨message, hparse, hget⟩ := hall [⟨bytes "/a/", [], bytes "GET", {}⟩] [] _ _ _ _
    (by decide) (by decide) rfl hraw
  obtain ⟨m, hparse', hm, hpath⟩ := parse_of_requestFor (by decide) (by decide) (by decide) hraw
  obtain rfl : m = message := Option.some.inj (hparse'.symm.trans hparse)
  have hnone := hget (List.replicate 64 0) List.length_replicate
  rw [requestKey_eq, hm, hpath] at hnone
  cases hnone

end Vermell.Router
