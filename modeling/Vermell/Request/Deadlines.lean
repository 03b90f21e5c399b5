import Vermell.Request.Loop
import Vermell.Request.Refresh

/-! One connection under a monotone clock, with a pool or without, and the 408s that it gets for
its `request_timeout`. -/
namespace Vermell.Request
open Http Runs

/-- A 408 for the total deadline: when it was judged, against which limit, and the later of the
accept and the completion of the last request served. -/
structure Timeout where
  now : Ticks
  limit : Ticks
  since : Ticks
  deriving DecidableEq, Repr

/-- The connection, the last reading of the clock, the later of its accept and its last completion,
and its 408s. -/
structure Clocked where
  io : RequestIO
  clock : Ticks
  since : Ticks
  timeouts : List Timeout := []

/-- The steps of a connection, with the times at which its handlers were done. -/
inductive ClockedStep
  | config (cfg : Config)
  | event (readable hangup : Bool) (env : ReadEnv) (done : Ticks)
  | take
  | finish (i : ℕ) (handler : Handler) (now : Ticks)
  | drain (envs : ℕ → RequestIO.DrainEnv)
  | sweep (now : Ticks)

/-- `request_timeout` is over. -/
def totalOver (cfg : Config) (now start : Ticks) : Bool :=
  cfg.requestTimeout > 0 && now - start > cfg.requestTimeout

namespace Clocked
section
variable (s : Clocked) (fd : ℕ)

/-- `HandleReadable`, in which the last handler, if there is one, is done at `done`. -/
def read (env : ReadEnv) (done : Ticks) : Clocked :=
  let out := s.io.readOutcome fd env
  let since := if s.io.served out = [] then s.since else done
  { io := s.io.handleReadable fd env
    clock := env.finish
    since := since
    timeouts :=
      if out.stop = .rejected requestTimedOut ∧
          totalOver s.io.cfg env.now (s.io.startOf fd env) = true then
        s.timeouts ++ [⟨env.now, s.io.cfg.requestTimeout, since⟩]
      else s.timeouts }

/-- An event of the connection; with a pool it disarms the descriptor. -/
def event (readable hangup : Bool) (env : ReadEnv) (done : Ticks) : Clocked :=
  let io := if s.io.pool then s.io.disarm fd else s.io
  { if readable then read { s with io := io } fd env done else s with
    io := (io.dispatchClient ⟨fd, readable, hangup⟩ env).unwind }

/-- `RearmConnection`, or the close of a connection that is not kept. -/
def drainOne (c : Completion) (env : RequestIO.DrainEnv) : Clocked :=
  if c.keepAlive then
    let s := { s with io := s.io.rearmed c.fd env.now, clock := env.now }
    if (s.io.pendingSlot c.fd).buffer ≠ [] then s.read c.fd env.read env.read.now else s
  else { s with io := s.io.retire c.fd, clock := env.now }

/-- `SweepStale`. -/
def sweep (now : Ticks) : Clocked :=
  { s with
    io := s.io.sweepStale now
    clock := now
    timeouts :=
      match s.io.slot fd with
      | none => s.timeouts
      | some st =>
        if RequestIO.stale s.io.cfg now st ∧ totalOver s.io.cfg now st.start = true then
          s.timeouts ++ [⟨now, s.io.cfg.requestTimeout, s.since⟩]
        else s.timeouts }

end

/-- The loop of `DrainCompletions`, where the clock does not run backwards. -/
def drainEach (s : Clocked) (envs : ℕ → RequestIO.DrainEnv) :
    List Completion → Option Clocked
  | [] => some s
  | c :: rest =>
    let env := envs 0
    if s.clock ≤ env.now ∧ env.now ≤ env.read.now ∧ env.read.now ≤ env.read.finish then
      drainEach (s.drainOne c env) (fun i => envs (i + 1)) rest
    else none

theorem drainOne_io (s : Clocked) (c : Completion) (env : RequestIO.DrainEnv) :
    (s.drainOne c env).io = s.io.drainOne c env := by
  unfold drainOne RequestIO.drainOne RequestIO.rearmConnection
  simp only
  split_ifs <;> rfl

/-- The readings of the clock leave the completions to `DrainCompletions`. -/
theorem drainEach_io {s t : Clocked} {envs : ℕ → RequestIO.DrainEnv} {done : List Completion}
    (h : drainEach s envs done = some t) : t.io = RequestIO.drainEach envs done s.io := by
  induction done generalizing s envs with
  | nil =>
    cases h
    rfl
  | cons c rest ih =>
    simp only [drainEach] at h
    split_ifs at h
    rw [ih h, drainOne_io]
    rfl

/-- One step: an event needs a registered descriptor, and time goes on. -/
def step (fd : ℕ) (s : Clocked) : ClockedStep → Option Clocked
  | .config cfg => some { s with io := { s.io with cfg := cfg } }
  | .event readable hangup env done =>
    if fd ∈ s.io.armed ∧ s.clock ≤ env.now ∧ env.now ≤ done ∧ done ≤ env.finish then
      some (s.event fd readable hangup env done)
    else none
  | .take => s.io.take.map fun io => { s with io := io }
  | .finish i handler now =>
    if s.clock ≤ now then
      (s.io.serveRequest i handler).map fun io =>
        { s with
          io := io
          clock := now
          since := handler.since s.since now }
    else none
  | .drain envs => drainEach { s with io := { s.io with completed := [] } } envs s.io.completed
  | .sweep now => if s.clock ≤ now then some (s.sweep fd now) else none

/-- The connection as it was accepted. -/
def accepted (cfg : Config) (pool : Bool) (a : RequestIO.Accepted) : Clocked where
  io := RequestIO.acceptOne { cfg, pool, listenerFd := 0, notifyFd := 0 } a
  clock := a.now
  since := a.now

/-- Every 408 came when more than its limit had passed since the accept and the last request. -/
def Honest (s : Clocked) : Prop := ∀ t ∈ s.timeouts, t.limit < t.now - t.since

end Clocked

/-- No input event finds a task of the connection queued, running or undrained; without a pool, no
call leaves a part of a request behind requests that it has served. -/
def Separate (fd : ℕ) (s : Clocked) : ClockedStep → Prop
  | .event true _ env _ =>
    if s.io.pool then s.io.outstanding = 0 else ¬ s.io.LeavesPart fd env
  | _ => True

/-- The event is a call, if it brings input, and perhaps a reject behind it. -/
theorem RequestIO.dispatchClient_eq (io : RequestIO) (fd : ℕ) (readable hangup : Bool)
    (env : ReadEnv) :
    let io' := if readable then io.handleReadable fd env else io
    io.dispatchClient ⟨fd, readable, hangup⟩ env = io' ∨
      io.dispatchClient ⟨fd, readable, hangup⟩ env = io'.reject fd := by
  intro io'
  have hrest : (if io'.unwinding then io' else if io'.hasPending fd then io'.reject fd else io') =
        io' ∨
      (if io'.unwinding then io' else if io'.hasPending fd then io'.reject fd else io') =
        io'.reject fd := by
    split_ifs
    · exact Or.inl rfl
    · exact Or.inr rfl
    · exact Or.inl rfl
  cases hangup with
  | false => exact Or.inl rfl
  | true => exact hrest

namespace Clocked
open RequestIO

/-- The invariant of a run. -/
structure Timely (s : Clocked) (fd : ℕ) : Prop where
  honest : s.Honest
  past : s.since ≤ s.clock
  fresh : s.io.Fresh fd s.since

section
variable {s : Clocked} {fd : ℕ}

theorem Honest.append (h : s.Honest) {t : Timeout} (ht : t.limit < t.now - t.since) :
    ∀ t' ∈ s.timeouts ++ [t], t'.limit < t'.now - t'.since := by
  intro t' ht'
  cases List.mem_append.mp ht' with
  | inl ht' =>
    exact h t' ht'
  | inr ht' =>
    rw [List.mem_singleton.mp ht']
    exact ht

/-- A deadline that is over since the start is over since any earlier time. -/
theorem limit_lt {cfg : Config} {now start since : Ticks} (h : totalOver cfg now start = true)
    (hsince : since ≤ start) : cfg.requestTimeout < now - since := by
  simp only [totalOver, Bool.and_eq_true, decide_eq_true_eq] at h
  exact lt_of_lt_of_le h.2 (sub_le_sub_left hsince now)

theorem Timely.read (h : s.Timely fd) (hidle : s.io.outstanding = 0) {env : ReadEnv}
    (hrestarts : s.io.Restarts fd env (s.io.readOutcome fd env)) {done : Ticks}
    (hnow : s.clock ≤ env.now) (hdone : env.now ≤ done) (hfinish : done ≤ env.finish) :
    (s.read fd env done).Timely fd := by
  have hpast := h.past.trans hnow
  refine ⟨?_, ?_, h.fresh.handleReadable hidle hrestarts hpast hdone hfinish⟩
  · unfold Honest Clocked.read
    simp only
    split_ifs with hlate hserved
    · exact h.honest.append (limit_lt hlate.2 (h.fresh.startOf hidle hpast))
    · exact absurd (hrestarts.timeout hlate.1) hserved
    · exact h.honest
  · simp only [Clocked.read]
    split_ifs
    · exact (hpast.trans hdone).trans hfinish
    · exact hfinish

theorem Timely.unwound (h : s.Timely fd) {io : RequestIO} (hio : io = s.io ∨ io = s.io.reject fd) :
    ({ s with io := io.unwind } : Clocked).Timely fd := by
  refine ⟨h.honest, h.past, ?_⟩
  have hfresh : io.Fresh fd s.since := by
    rcases hio with rfl | rfl
    · exact h.fresh
    · exact h.fresh.reject
  unfold unwind
  split_ifs
  · exact hfresh.congr rfl rfl
  · exact hfresh

theorem Timely.event (h : s.Timely fd) {readable hangup : Bool} {env : ReadEnv} {done : Ticks}
    (hsep : Separate fd s (.event readable hangup env done)) (hnow : s.clock ≤ env.now)
    (hdone : env.now ≤ done) (hfinish : done ≤ env.finish) :
    (s.event fd readable hangup env done).Timely fd := by
  set io := if s.io.pool then s.io.disarm fd else s.io with hio
  have hs : ({ s with io := io } : Clocked).Timely fd := by
    refine ⟨h.honest, h.past, ?_⟩
    simp only [hio]
    split_ifs
    · exact h.fresh.congr rfl rfl
    · exact h.fresh
  have hclient := io.dispatchClient_eq fd readable hangup env
  cases readable with
  | false => exact hs.unwound hclient
  | true =>
    simp only [Separate] at hsep
    have hread : (({ s with io := io } : Clocked).read fd env done).Timely fd := by
      cases hpool : s.io.pool with
      | true =>
        rw [if_pos hpool] at hsep hio
        exact hs.read (by rw [hio]; exact hsep)
          (restarts_pool _ fd env (by rw [hio]; exact hpool) hs.fresh.sound)
          hnow hdone hfinish
      | false =>
        rw [if_neg (by simp [hpool])] at hsep hio
        rw [hio] at hs ⊢
        exact hs.read (h.fresh.inline hpool)
          (restarts_inline _ fd env hpool h.fresh.sound hsep) hnow hdone hfinish
    exact hread.unwound hclient

/-- A completion is drained when nothing else is outstanding. -/
theorem Timely.drainOne {since : Ticks} (honest : s.Honest) (hpast : s.since ≤ s.clock)
    (hfresh : s.io.Fresh fd since) (hidle : s.io.outstanding = 0) (hpool : s.io.pool = true)
    {keepAlive : Bool} {env : DrainEnv} (hnow : s.clock ≤ env.now)
    (hread : env.now ≤ env.read.now) (hfinish : env.read.now ≤ env.read.finish) :
    (s.drainOne ⟨fd, keepAlive⟩ env).Timely fd := by
  replace hpast := hpast.trans hnow
  unfold Clocked.drainOne
  cases keepAlive with
  | false => exact ⟨honest, hpast, hfresh.retire⟩
  | true =>
    have hs : ({ s with io := s.io.rearmed fd env.now, clock := env.now } : Clocked).Timely fd :=
      ⟨honest, hpast, hfresh.rearmed hidle hpast⟩
    obtain ⟨p, armed, heq, -⟩ := s.io.rearmed_eq fd env.now
    have hidle' : (s.io.rearmed fd env.now).outstanding = 0 := by
      rw [heq]
      exact hidle
    have hpool' : (s.io.rearmed fd env.now).pool = true := by
      rw [heq]
      exact hpool
    simp only [if_true]
    split_ifs
    · exact hs.read hidle' (restarts_pool _ fd env.read hpool' hs.fresh.sound) hread
        (le_refl _) hfinish
    · exact hs

theorem Timely.drain (h : s.Timely fd) {envs : ℕ → DrainEnv} {t : Clocked}
    (hs : drainEach { s with io := { s.io with completed := [] } } envs s.io.completed = some t) :
    t.Timely fd := by
  have hone := h.fresh.one
  unfold outstanding at hone
  cases hc : s.io.completed with
  | nil =>
    rw [hc] at hs
    cases hs
    exact ⟨h.honest, h.past, h.fresh.congr (by simp [hc]) rfl⟩
  | cons c rest =>
    rw [hc, List.length_cons] at hone
    obtain rfl : rest = [] := List.length_eq_zero_iff.mp (by omega)
    obtain ⟨g, keepAlive⟩ := c
    obtain rfl : g = fd := h.fresh.completions ⟨g, keepAlive⟩ (by simp [hc])
    rw [hc] at hs
    simp only [drainEach] at hs
    split_ifs at hs with htimes
    cases hs
    obtain ⟨since, hfresh⟩ := h.fresh.drained
    have hpool : s.io.pool = true := by
      by_contra hinline
      have hzero := h.fresh.inline (by simpa using hinline)
      simp [outstanding, hc] at hzero
    refine Timely.drainOne (s := { s with io := { s.io with completed := [] } }) h.honest h.past
      hfresh ?_ hpool htimes.1 htimes.2.1 htimes.2.2
    simp only [outstanding, List.length_nil]
    omega

/-- A slot that the sweep finds late is not marked, so nothing is outstanding. -/
theorem Timely.sweep (h : s.Timely fd) {now : Ticks} (hnow : s.clock ≤ now) :
    (s.sweep fd now).Timely fd := by
  refine ⟨?_, h.past.trans hnow, h.fresh.sweepStale now⟩
  unfold Honest Clocked.sweep
  simp only
  cases hslot : s.io.slot fd with
  | none => exact h.honest
  | some st =>
    simp only
    split_ifs with hlate
    · apply h.honest.append
      have hunmarked : st.dispatching = false := by
        have := hlate.1
        simp only [stale, Bool.and_eq_true, Bool.not_eq_true'] at this
        exact this.1
      have hidle : s.io.outstanding = 0 := by
        by_contra hbusy
        have := h.fresh.marked st hslot (Nat.pos_of_ne_zero hbusy)
        rw [hunmarked] at this
        cases this
      have hdrained := (outstanding_eq_zero_iff.mp hidle).2.2
      exact limit_lt hlate.2 (h.fresh.started st hslot hdrained)
    · exact h.honest

theorem timely_step {l : ClockedStep} {t : Clocked} (h : s.Timely fd) (hsep : Separate fd s l)
    (hs : s.step fd l = some t) : t.Timely fd := by
  cases l with
  | config cfg =>
    cases hs
    exact ⟨h.honest, h.past, h.fresh.congr rfl rfl⟩
  | event readable hangup env done =>
    simp only [step] at hs
    split_ifs at hs with hgo
    cases hs
    exact h.event hsep hgo.2.1 hgo.2.2.1 hgo.2.2.2
  | take =>
    obtain ⟨io, hio, rfl⟩ := Option.map_eq_some_iff.mp hs
    exact ⟨h.honest, h.past, h.fresh.take hio⟩
  | finish i handler now =>
    simp only [step] at hs
    split_ifs at hs with hgo
    obtain ⟨io, hio, rfl⟩ := Option.map_eq_some_iff.mp hs
    refine ⟨h.honest, ?_, h.fresh.serveRequest hio⟩
    cases handler with
    | returns keepAlive => exact le_refl now
    | escapes => exact h.past.trans hgo
  | drain envs => exact h.drain hs
  | sweep now =>
    simp only [step] at hs
    split_ifs at hs with hgo
    cases hs
    exact h.sweep hgo

theorem timely_accepted (cfg : Config) (pool : Bool) (a : Accepted) :
    (accepted cfg pool a).Timely a.fd := by
  refine ⟨by simp [Honest, accepted], le_refl _, ?_⟩
  have hfresh {p : Slots} {active : UInt64} {openFds armed : Finset ℕ} {closes : List Close}
      {hist : ℕ → History}
      (hslot : ∀ st, p.get a.fd = some st → st = { start := a.now, lastActivity := a.now }) :
      Fresh {
        cfg, pool, listenerFd := 0, notifyFd := 0, pending := p, active, openFds, armed,
        closes, history := hist } a.fd a.now := by
    refine ⟨Nat.zero_le _, by simp, by simp, fun _ => rfl, ?_, ?_, ?_⟩
    · simp only [pendingSlot, slot]
      cases hp : p.get a.fd with
      | none => exact ConnState.sound_default
      | some st =>
        rw [hslot st hp]
        exact ⟨by simp, by simp⟩
    · intro st _ hbusy
      simp [outstanding] at hbusy
    · intro st hst _
      rw [hslot st hst]
  unfold accepted acceptOne
  simp only
  split_ifs
  · exact hfresh (by simp [Slots.get])
  · exact hfresh (by simp [Slots.get])
  · apply hfresh
    intro st hst
    simp only [setSlot, Slots.get_put, if_true, Option.some.injEq] at hst
    exact hst.symm

end

/-- Along every run in which no input event finds a task of the connection outstanding and, without
a pool, no call leaves a part of a request behind requests it has served, each 408 comes later than
`request_timeout` after the accept and the last request. -/
theorem request_timeout_honest (cfg : Config) (pool : Bool) (a : Accepted)
    (ls : List ClockedStep) (h : Guarded (step a.fd) (Separate a.fd) (accepted cfg pool a) ls) :
    Along (step a.fd) Honest (accepted cfg pool a) ls := by
  apply Along.mono fun (s : Clocked) (h : s.Timely a.fd) => h.honest
  exact along_of_guarded (fun _ _ _ hs hsep => timely_step hs hsep) (timely_accepted cfg pool a) h

/-- Half a request, and a sweep long behind it. -/
theorem request_timeout_honest_swept :
    Along (step 5) Honest (accepted {} true ⟨5, true, 1⟩)
      [.event true false { recvs := [.data (bytes "GET") 1] } 1, .sweep (70*10^9)] :=
  request_timeout_honest {} true ⟨5, true, 1⟩ _ fun _ _ => ⟨rfl, fun _ _ => ⟨trivial, trivial⟩⟩

/-- A request that is served three seconds after the accept, with the start of the next one behind
it, which goes on two seconds later. -/
def pipelinedClock : List ClockedStep :=
  let first : Recv := .data (bytes "GET / HTTP/1.1\r\nHost: a\r\n\r\nGET") (3*10^9)
  let second : Recv := .data (bytes " /") (5*10^9)
  [.event true false { now := 3*10^9, recvs := [first], finish := 3*10^9 } (3*10^9),
    .event true false { now := 5*10^9, recvs := [second], finish := 5*10^9 } (5*10^9)]

/-- With a limit of four seconds the second request is timed out after two. -/
theorem request_timeout_early : ¬ ∀ (cfg : Config) (pool : Bool) (a : Accepted)
    (ls : List ClockedStep), Along (step a.fd) Honest (accepted cfg pool a) ls := by
  intro hall
  have hrun : (exec (step 5) (accepted { requestTimeout := 4*10^9 } false ⟨5, true, 1⟩)
      pipelinedClock).map (·.timeouts) = some [⟨5*10^9, 4*10^9, 3*10^9⟩] := by decide +kernel
  obtain ⟨s, hs, htimeouts⟩ := Option.map_eq_some_iff.mp hrun
  have hhonest := (hall { requestTimeout := 4*10^9 } false ⟨5, true, 1⟩ pipelinedClock).exec hs
  have hlimit := hhonest ⟨5*10^9, 4*10^9, 3*10^9⟩ (by rw [htimeouts]; simp)
  exact absurd hlimit (by decide)

end Clocked
end Vermell.Request
