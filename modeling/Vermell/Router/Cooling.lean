import Vermell.Router.Execute
import Vermell.Runs
import Vermell.Threads

/-! A route with a cooldown, under requests that are served at the same time. The guard and the
update are each one step under `route_mutex`, and the handler runs between them. -/
namespace Vermell.Router
open Http Runs Threads

/-- Where a request is in its branch of `ExecuteRoute`. -/
inductive ServePhase
  | idle
  | admitted
  | running (start : ℤ)
  | failed (start : ℤ)
  | answered
  deriving DecidableEq, Repr

/-- The start of a handler run that recorded no cooldown: it still runs, or it threw. -/
def ServePhase.unrecorded : ServePhase → Option ℤ
  | .running start => some start
  | .failed start => some start
  | _ => none

/-- What happens to a request. -/
inductive CoolingEvent (R : Type*)
  | guarded (r : R) (time : ℤ) (page : WireResponse)
  | admitted (r : R) (time : ℤ)
  | started (r : R) (time : ℤ)
  | answered (r : R) (data : WireResponse)

def CoolingEvent.start {R : Type*} : CoolingEvent R → Option ℤ
  | .started _ time => some time
  | _ => none

def CoolingEvent.response {R : Type*} : CoolingEvent R → Option WireResponse
  | .guarded _ _ page => some page
  | .answered _ data => some data
  | _ => none

/-- One route and its requests. The log has the newest event first. -/
structure Cooling (R : Type*) where
  now : ℤ
  cooldown : Cooldown := {}
  phase : R → ServePhase := fun _ => .idle
  log : List (CoolingEvent R) := []

inductive CoolingStep (R : Type*)
  | wait (ticks : ℕ)
  | check (r : R)
  | start (r : R)
  | finish (r : R)

/-- The starts of handler runs in a log. -/
def starts {R : Type*} (log : List (CoolingEvent R)) : List ℤ := log.filterMap CoolingEvent.start

/-- Whoever is let in, and whichever handler starts, does so `t` seconds behind every earlier
start. -/
def KeepsCooldown {R : Type*} (t : ℤ) : List (CoolingEvent R) → Prop
  | [] => True
  | .admitted _ time :: earlier =>
    (∀ a ∈ starts earlier, a + t*10^9 ≤ time) ∧ KeepsCooldown t earlier
  | .started _ time :: earlier =>
    (∀ a ∈ starts earlier, a + t*10^9 ≤ time) ∧ KeepsCooldown t earlier
  | .guarded _ _ _ :: earlier => KeepsCooldown t earlier
  | .answered _ _ :: earlier => KeepsCooldown t earlier

/-- Every run of the handlers that returns has called `guard` with `t` last. -/
def AlwaysGuards (t : ℤ) (middlewares : List Middleware) : Prop :=
  ∀ message params q, runMiddlewares message params {} middlewares = .ok q → q.timeKey = t

namespace Cooling
variable {R : Type*} [DecidableEq R] (middlewares : List Middleware)
  (visit : R → Message × List (Bytes × Bytes)) (s : Cooling R) (r : R)

def wait (ticks : ℕ) : Cooling R := { s with now := s.now + ticks }

/-- `TimeGuard` and the guard page. -/
def check : Cooling R :=
  if timeGuard s.now s.cooldown then
    { s with
      phase := Function.update s.phase r .answered
      log :=
        .guarded r s.now (guardRoute s.cooldown.timeKey (s.cooldown.guardMsg.getD [])) :: s.log }
  else
    { s with
      phase := Function.update s.phase r .admitted
      log := .admitted r s.now :: s.log }

def start : Cooling R :=
  { s with
    phase := Function.update s.phase r (.running s.now)
    log := .started r s.now :: s.log }

/-- The handlers return, and the cooldown is recorded. -/
def record (data : WireResponse) (timeKey : ℤ) (guardMsg : Option Bytes) : Cooling R :=
  { s with
    cooldown := if timeKey > 0 then ⟨timeKey, s.now, guardMsg⟩ else s.cooldown
    phase := Function.update s.phase r .answered
    log := .answered r data :: s.log }

/-- The handlers end with an exception, which skips the update. -/
def fail (start : ℤ) : Cooling R :=
  { s with phase := Function.update s.phase r (.failed start) }

def finish (start : ℤ) : Cooling R :=
  match execute middlewares (visit r).1 (visit r).2 with
  | .ok (data, timeKey, guardMsg) => s.record r data timeKey guardMsg
  | .error _ => s.fail r start

/-- A step, where its request stands in front of it. -/
def step (s : Cooling R) : CoolingStep R → Option (Cooling R)
  | .wait ticks => some (s.wait ticks)
  | .check r => if s.phase r = .idle then some (s.check r) else none
  | .start r => if s.phase r = .admitted then some (s.start r) else none
  | .finish r =>
    match s.phase r with
    | .running start => some (s.finish middlewares visit r start)
    | _ => none

/-- A request that is alone gets the answer of `Route.answer`, and leaves its cooldown. -/
theorem exec_of_answer {visit} {s : Cooling R} {r : R} {w : World} {route : Route} {d : ℕ}
    (hnow : s.now = w.now) (hcooldown : s.cooldown = route.cooldown) (hr : s.phase r = .idle)
    (hfinish : w.finish = w.now + d) {data : WireResponse} {c : Cooldown}
    (h : route.answer w (visit r).1 (visit r).2 = .ok (data, c)) :
    ∃ steps u, exec (step route.middlewares visit) s steps = some u ∧ u.cooldown = c ∧
      u.log.head?.bind CoolingEvent.response = some data := by
  unfold Route.answer at h
  by_cases hguard : timeGuard w.now route.cooldown
  · rw [if_pos hguard] at h
    obtain ⟨rfl, rfl⟩ := Prod.mk.inj (Except.ok.inj h)
    refine ⟨[.check r], s.check r, ?_, ?_⟩
    · simp [exec, step, hr]
    · simp [check, hnow, hcooldown, hguard, CoolingEvent.response]
  · rw [if_neg hguard] at h
    cases hexecute : execute route.middlewares (visit r).1 (visit r).2 with
    | error ending =>
      rw [hexecute] at h
      cases h
    | ok left =>
      rw [hexecute] at h
      obtain ⟨rfl, rfl⟩ := Prod.mk.inj (Except.ok.inj h)
      refine ⟨[.check r, .start r, .wait d, .finish r],
        (((s.check r).start r).wait d).record r left.1 left.2.1 left.2.2, ?_, ?_⟩
      · simp [exec, step, check, start, wait, finish, hr, hnow, hcooldown, hguard, hexecute]
      · simp [check, start, wait, record, hnow, hcooldown, hguard, hfinish, CoolingEvent.response]

/-- A check that lets its request in finds no other request between its check and its start, and no
start less than `t` seconds ago whose cooldown is not recorded; and no cooldown is recorded at the
time point that stands for none. -/
def Alone (t : ℤ) (s : Cooling R) : CoolingStep R → Prop
  | .check _ => timeGuard s.now s.cooldown = false →
      ∀ v, s.phase v ≠ .admitted ∧ ∀ a ∈ (s.phase v).unrecorded, a + t*10^9 ≤ s.now
  | .finish _ => s.now ≠ 0
  | _ => True

instance [Fintype R] (t : ℤ) (s : Cooling R) : ∀ l, Decidable (s.Alone t l)
  | .wait _ => isTrue trivial
  | .check _ => by unfold Alone; infer_instance
  | .start _ => isTrue trivial
  | .finish _ => by unfold Alone; infer_instance

/-- Every start is behind a running or failed handler, or the cooldown of its end or of a later one
stands; and the one request that may be let in can start at once. -/
structure Cooled (t : ℤ) (s : Cooling R) : Prop where
  keeps : KeepsCooldown t s.log
  past : ∀ a ∈ starts s.log, a ≤ s.now
  point : s.cooldown.timePoint ≤ s.now ∨ s.cooldown.timePoint = 0
  recorded : ∀ a ∈ starts s.log, (∃ v, (s.phase v).unrecorded = some a) ∨
    a ≤ s.cooldown.timePoint ∧ s.cooldown.timeKey = t ∧ s.cooldown.timePoint ≠ 0
  alone : ∀ v w, s.phase v = .admitted → s.phase w = .admitted → v = w
  due : ∀ v, s.phase v = .admitted → ∀ a ∈ starts s.log, a + t*10^9 ≤ s.now

omit [DecidableEq R] in
theorem cooled_start (t now : ℤ) : Cooled t ({ now := now } : Cooling R) where
  keeps := trivial
  past _ ha := absurd ha List.not_mem_nil
  point := Or.inr rfl
  recorded _ ha := absurd ha List.not_mem_nil
  alone _ _ hv := ServePhase.noConfusion hv
  due _ hv := ServePhase.noConfusion hv

section
variable {middlewares visit} {s : Cooling R} {r : R} {t : ℤ}

omit [DecidableEq R] in
theorem Cooled.wait (h : Cooled t s) (ticks : ℕ) : Cooled t (s.wait ticks) where
  keeps := h.keeps
  past a ha := (h.past a ha).trans (by simp [Cooling.wait])
  point := h.point.imp_left fun hle => hle.trans (by simp [Cooling.wait])
  recorded := h.recorded
  alone := h.alone
  due v hv a ha := (h.due v hv a ha).trans (by simp [Cooling.wait])

/-- A request that moves to a phase without a start, from one without, leaves the starts behind the
others. -/
theorem unrecorded_update {p : ServePhase} {a : ℤ} (hr : (s.phase r).unrecorded = none)
    (h : ∃ v, (s.phase v).unrecorded = some a) :
    ∃ v, (Function.update s.phase r p v).unrecorded = some a :=
  (exists_update_iff_of_not s.phase r p (Q := fun q => q.unrecorded = some a)
    (by simp [hr])).mpr (Or.inr h)

theorem admitted_of_update {p : ServePhase} (hp : p ≠ .admitted) {v : R}
    (hv : Function.update s.phase r p v = .admitted) : s.phase v = .admitted := by
  by_cases heq : v = r
  · subst heq
    rw [Function.update_self] at hv
    exact absurd hv hp
  · rwa [Function.update_of_ne heq] at hv

omit [DecidableEq R] in
/-- Past the guard, a start whose cooldown is recorded is long enough ago. -/
theorem due_of_recorded (ht : 0 < t)
    (hguard : timeGuard s.now s.cooldown = false) {a : ℤ} (ha : a ≤ s.cooldown.timePoint)
    (hkey : s.cooldown.timeKey = t) (hpoint : s.cooldown.timePoint ≠ 0) : a + t*10^9 ≤ s.now := by
  simp only [timeGuard, hkey, Bool.and_eq_false_iff, decide_eq_false_iff_not, bne_eq_false_iff_eq]
    at hguard
  omega

/-- Whoever passes the guard alone is behind every start. -/
theorem Cooled.check (h : Cooled t s) (ht : 0 < t) (hr : s.phase r = .idle)
    (hc : s.Alone t (.check r)) : Cooled t (s.check r) := by
  have hnone : (s.phase r).unrecorded = none := by rw [hr]; rfl
  unfold Cooling.check
  split
  · exact ⟨h.keeps, h.past, h.point,
      fun a ha => (h.recorded a ha).imp_left (unrecorded_update hnone),
      fun v w hv hw => h.alone v w (admitted_of_update (by simp) hv)
        (admitted_of_update (by simp) hw),
      fun v hv => h.due v (admitted_of_update (by simp) hv)⟩
  · rename_i hguard
    rw [Bool.not_eq_true] at hguard
    have hdue : ∀ a ∈ starts s.log, a + t*10^9 ≤ s.now := by
      intro a ha
      obtain ⟨v, hv⟩ | ⟨hle, hkey, hpoint⟩ := h.recorded a ha
      · exact (hc hguard v).2 a hv
      · exact due_of_recorded ht hguard hle hkey hpoint
    have halone : ∀ v, Function.update s.phase r .admitted v = .admitted → v = r := by
      intro v hv
      by_contra hne
      rw [Function.update_of_ne hne] at hv
      exact (hc hguard v).1 hv
    exact ⟨⟨hdue, h.keeps⟩, h.past, h.point,
      fun a ha => (h.recorded a ha).imp_left (unrecorded_update hnone),
      fun v w hv hw => (halone v hv).trans (halone w hw).symm, fun _ _ => hdue⟩

theorem Cooled.start (h : Cooled t s) (hr : s.phase r = .admitted) : Cooled t (s.start r) where
  keeps := ⟨h.due r hr, h.keeps⟩
  past := List.forall_mem_cons.mpr ⟨le_rfl, h.past⟩
  point := h.point
  recorded := by
    refine List.forall_mem_cons.mpr ⟨Or.inl ⟨r, ?_⟩, fun a ha => ?_⟩
    · change (Function.update s.phase r (.running s.now) r).unrecorded = _
      rw [Function.update_self]
      rfl
    · refine (h.recorded a ha).imp_left (unrecorded_update ?_)
      rw [hr]
      rfl
  alone v w hv hw := h.alone v w (admitted_of_update (by simp) hv) (admitted_of_update (by simp) hw)
  due v hv := by
    have hadmitted : s.phase v = .admitted := admitted_of_update (by simp) hv
    obtain rfl := h.alone v r hadmitted hr
    change Function.update s.phase v (.running s.now) v = .admitted at hv
    rw [Function.update_self] at hv
    cases hv

/-- The recorded cooldown stands for every start there is. -/
theorem Cooled.record (h : Cooled t s) (ht : 0 < t) (hnow : s.now ≠ 0) (data : WireResponse)
    (guardMsg : Option Bytes) : Cooled t (s.record r data t guardMsg) where
  keeps := h.keeps
  past := h.past
  point := by simp [Cooling.record, ht]
  recorded a ha := by
    right
    simpa [Cooling.record, ht, hnow] using h.past a ha
  alone v w hv hw := h.alone v w (admitted_of_update (by simp) hv) (admitted_of_update (by simp) hw)
  due v hv := h.due v (admitted_of_update (by simp) hv)

/-- A handler that throws keeps its start. -/
theorem Cooled.fail (h : Cooled t s) {start : ℤ} (hr : s.phase r = .running start) :
    Cooled t (s.fail r start) where
  keeps := h.keeps
  past := h.past
  point := h.point
  recorded a ha := by
    refine (h.recorded a ha).imp_left ?_
    rintro ⟨v, hv⟩
    by_cases heq : v = r
    · subst heq
      refine ⟨v, ?_⟩
      rw [hr] at hv
      change (Function.update s.phase v (.failed start) v).unrecorded = some a
      rw [Function.update_self]
      exact hv
    · exact ⟨v, by simpa [Cooling.fail, heq] using hv⟩
  alone v w hv hw := h.alone v w (admitted_of_update (by simp) hv) (admitted_of_update (by simp) hw)
  due v hv := h.due v (admitted_of_update (by simp) hv)

theorem Cooled.finish (h : Cooled t s) (ht : 0 < t) (hguards : AlwaysGuards t middlewares)
    {start : ℤ} (hr : s.phase r = .running start) (hnow : s.now ≠ 0) :
    Cooled t (s.finish middlewares visit r start) := by
  unfold Cooling.finish execute
  cases hrun : runMiddlewares (visit r).1 (visit r).2 {} middlewares with
  | error ending => exact h.fail hr
  | ok q =>
    have hkey := hguards _ _ q hrun
    subst hkey
    exact h.record ht hnow q.last _

theorem Cooled.step (h : Cooled t s) (ht : 0 < t) (hguards : AlwaysGuards t middlewares)
    {l : CoolingStep R} (hc : s.Alone t l) {u : Cooling R}
    (hu : Cooling.step middlewares visit s l = some u) : Cooled t u := by
  cases l with
  | wait ticks =>
    obtain rfl := Option.some.inj hu
    exact h.wait ticks
  | check r =>
    obtain ⟨hr, hu⟩ := Option.ite_none_right_eq_some.mp hu
    obtain rfl := Option.some.inj hu
    exact h.check ht hr hc
  | start r =>
    obtain ⟨hr, hu⟩ := Option.ite_none_right_eq_some.mp hu
    obtain rfl := Option.some.inj hu
    exact h.start hr
  | finish r =>
    simp only [Cooling.step] at hu
    cases hr : s.phase r with
    | running start =>
      rw [hr] at hu
      obtain rfl := Option.some.inj hu
      exact h.finish ht hguards hr hc
    | _ => simp [hr] at hu

/-- Where every check is alone, the cooldown is kept along the run. -/
theorem cooldown_kept {t : ℤ} (ht : 0 < t) (hguards : AlwaysGuards t middlewares) (clock : ℤ)
    (steps : List (CoolingStep R))
    (h : Guarded (step middlewares visit) (Alone t) { now := clock } steps) :
    Along (step middlewares visit) (fun s => KeepsCooldown t s.log) { now := clock } steps := by
  have hrun : Along (step middlewares visit) (Cooled t) { now := clock } steps :=
    along_of_guarded (fun s l u hs hc hu => hs.step ht hguards hc hu) (cooled_start t clock) h
  exact hrun.mono fun s hs => hs.keeps

end

/-- A handler that asks for five seconds. -/
def coolingHandler : Middleware := fun _ _ _ =>
  ⟨[.guard 5 [], .send (bytes "ok") 200], .returns⟩

def coolingVisit : Message × List (Bytes × Bytes) :=
  ({ method := bytes "GET", target := bytes "/", path := bytes "/", query := []
     version := bytes "HTTP/1.1", body := [], headers := [], contentLength := 0 }, [])

theorem alwaysGuards_coolingHandler : AlwaysGuards 5 [coolingHandler] := by
  intro message params q hq
  obtain rfl := Except.ok.inj hq
  rfl

/-- One request is served, one comes too early, and one comes five seconds later. -/
theorem cooldown_kept_in_turn :
    let steps : List (CoolingStep (Fin 3)) :=
      [.check 0, .start 0, .finish 0, .check 1, .wait (5*10^9), .check 2, .start 2]
    Guarded (step [coolingHandler] fun _ => coolingVisit) (Alone 5) { now := 1 } steps ∧
      Along (step [coolingHandler] fun _ => coolingVisit) (fun s => KeepsCooldown 5 s.log)
        { now := 1 } steps := by
  have h : Guarded (step [coolingHandler] fun _ => coolingVisit) (Alone 5) { now := 1 }
      ([.check 0, .start 0, .finish 0, .check 1, .wait (5*10^9), .check 2, .start 2] :
        List (CoolingStep (Fin 3))) := by decide
  exact ⟨h, cooldown_kept (by decide) alwaysGuards_coolingHandler 1 _ h⟩

/-- Two requests pass the guard before either handler has returned. -/
theorem cooldown_not_kept : AlwaysGuards 5 [coolingHandler] ∧
    ¬Along (step [coolingHandler] fun _ => coolingVisit) (fun s => KeepsCooldown 5 s.log)
      ({ now := 1 } : Cooling Bool) [.check false, .check true, .start false, .start true] := by
  refine ⟨alwaysGuards_coolingHandler, fun h => ?_⟩
  have hkept := Along.exec h rfl
  have hfirst : (1 : ℤ) + 5*10^9 ≤ 1 := hkept.1 1 (by decide)
  omega

end Cooling
end Vermell.Router
