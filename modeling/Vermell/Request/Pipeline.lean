import Vermell.Request.Stream
import Vermell.Runs

/-! One pipelined client connection in pool mode. `RearmConnection` arms the descriptor before it
dispatches the bytes it kept, so an event can find a task of the connection in flight; the runs in
which no such event completes a request are the serial ones. -/
namespace Vermell.Request
open Http Runs

/-- The connection, and the bytes that have arrived and were not received yet. -/
structure Link where
  io : RequestIO
  inbox : Bytes := []

inductive LinkStep
  | arrive (bytes : Bytes)
  | readable (env : ReadEnv)
  | take
  | finish (i : ℕ) (keepAlive : Bool)
  | drain (envs : ℕ → RequestIO.DrainEnv)

namespace Link

/-- What a step received has to be what arrived. -/
def receive (s : Link) (fd : ℕ) (io : RequestIO) : Option Link :=
  let got := (io.history fd).received.drop (s.io.history fd).received.length
  if got <+: s.inbox then some ⟨io, s.inbox.drop got.length⟩ else none

/-- One step: an event is delivered to an armed descriptor only, and disarms it. -/
def step (fd : ℕ) (s : Link) : LinkStep → Option Link
  | .arrive bytes => some { s with inbox := s.inbox ++ bytes }
  | .readable env =>
    if fd ∈ s.io.armed then
      s.receive fd ((s.io.disarm fd).handleReadable fd env)
    else none
  | .take => s.io.take.map fun io => { s with io := io }
  | .finish i keepAlive =>
    (s.io.serveRequest i (.returns keepAlive)).map fun io => { s with io := io }
  | .drain envs => s.receive fd (s.io.drainCompletions envs)

/-- The connection as it was accepted. -/
def accepted (cfg : Config) (a : RequestIO.Accepted) : Link where
  io := RequestIO.acceptOne { cfg, pool := true, listenerFd := 0, notifyFd := 0 } a

end Link

namespace RequestIO

/-- Tasks queued or running, and completions that wait to be drained. -/
def outstanding (io : RequestIO) : ℕ :=
  io.queue.length + io.running.length + io.completed.length

/-- At most one task is outstanding, so no two workers run, and the responses written answer the
requests in the order in which they were handed over. -/
structure Serial (io : RequestIO) (fd : ℕ) : Prop where
  one : io.outstanding ≤ 1
  worker : io.running.length ≤ 1
  order : (io.history fd).written <+: (io.history fd).handed

end RequestIO

/-- An event finds nothing outstanding, or the bytes in the buffer and on the socket make no request
that the pool takes. -/
def Prompt (fd : ℕ) (s : Link) : LinkStep → Prop
  | .readable env =>
    s.io.outstanding = 0 ∨ env.accepted = false ∨ ¬ s.io.Completes fd env
  | _ => True

namespace RequestIO

/-- What holds of a connection between the steps of a serial run. -/
structure Lone (io : RequestIO) (fd : ℕ) : Prop where
  pool : io.pool = true
  one : io.outstanding ≤ 1
  tasks : ∀ t ∈ io.running ++ io.queue, t.fd = fd
  completions : ∀ c ∈ io.completed, c.fd = fd
  sound : (io.pendingSlot fd).Sound
  armed : fd ∈ io.armed → fd ∈ io.openFds
  closed : fd ∉ io.openFds → (io.pendingSlot fd).buffer = []
  order : (io.history fd).written ++ (io.running ++ io.queue).map Task.raw <+:
    (io.history fd).handed
  whole : fd ∈ io.openFds →
    (io.history fd).written ++ (io.running ++ io.queue).map Task.raw = (io.history fd).handed

theorem Lone.serial {io : RequestIO} {fd : ℕ} (h : io.Lone fd) : io.Serial fd := by
  have hone := h.one
  unfold outstanding at hone
  exact ⟨h.one, by omega, (List.prefix_append _ _).trans h.order⟩

/-- A request is only dispatched when nothing is outstanding. -/
theorem Lone.room {io : RequestIO} {fd : ℕ} (h : io.Lone fd) {env : ReadEnv}
    (hprompt : io.outstanding = 0 ∨ env.accepted = false ∨ ¬ io.Completes fd env)
    (hends : (io.readOutcome fd env).stop.ends env.accepted = false) :
    io.outstanding + (io.readOutcome fd env).handed.length ≤ 1 := by
  have hone := h.one
  rcases io.readOutcome_pool fd env h.pool with hdispatched | ⟨hhanded, -⟩
  · have hcompletes := (io.dispatched_iff fd env h.pool h.sound).mp hdispatched
    obtain ⟨raw, st, hhanded, hstop⟩ := hdispatched
    rw [hhanded]
    rcases hprompt with hzero | hrefused | hquiet
    · simp [hzero]
    · rw [hstop, hrefused] at hends
      cases hends
    · exact absurd hcompletes hquiet
  · rw [hhanded]
    exact hone

/-- A connection that ends stays alone: its slot is gone, and what was outstanding still is. -/
theorem Lone.ended {io : RequestIO} {fd : ℕ} (h : io.Lone fd) {p : Slots} {sc : ℕ}
    {n active : UInt64} {closes : List Close} {hist : ℕ → History}
    (hp : ∀ g, p.get g = if g = fd then none else io.pending.get g)
    (horder : (hist fd).written ++ (io.running ++ io.queue).map Task.raw <+: (hist fd).handed) :
    Lone { io with
      pending := p, scratch := sc, handled := n, active := active,
      openFds := io.openFds.erase fd, armed := io.armed.erase fd, closes := closes,
      history := hist } fd := by
  have hslot : p.get fd = none := by rw [hp, if_pos rfl]
  refine ⟨h.pool, h.one, h.tasks, h.completions, ?_, ?_, ?_, horder, ?_⟩
  · simp only [pendingSlot, slot, hslot]
    exact ConnState.sound_default
  · intro harmed
    exact absurd harmed (Finset.notMem_erase _ _)
  · simp [pendingSlot, slot, hslot]
  · intro hopen
    exact absurd hopen (Finset.notMem_erase _ _)

/-- A call on an open connection keeps it alone, if it does not dispatch past a task. -/
theorem Lone.handleReadable {io : RequestIO} {fd : ℕ} (h : io.Lone fd) (hopen : fd ∈ io.openFds)
    {env : ReadEnv}
    (hprompt : io.outstanding = 0 ∨ env.accepted = false ∨ ¬ io.Completes fd env) :
    (io.handleReadable fd env).Lone fd := by
  have hhistory := io.handleReadable_history fd env
  have hserved : io.served (io.readOutcome fd env) = [] := by simp [served, h.pool]
  rw [hserved, List.append_nil] at hhistory
  cases hends : (io.readOutcome fd env).stop.ends env.accepted with
  | true =>
    obtain ⟨p, n, hist, heq, hp⟩ := io.handleReadable_ended fd env hends
    rw [heq] at hhistory ⊢
    apply h.ended hp
    change hist fd = _ at hhistory
    rw [hhistory]
    exact h.order.trans (List.prefix_append _ _)
  | false =>
    have htasks := readable_pool_tasks io.cfg io.bufsz env (io.pendingSlot fd) fd
    rw [← h.pool] at htasks
    change (io.readOutcome fd env).stop.tasks fd = (io.readOutcome fd env).handed.map _ at htasks
    obtain ⟨p, armed, u, n, hist, heq, hp, harmed, -⟩ := io.handleReadable_kept fd env hends
    rw [htasks] at heq
    have hopen' : fd ∈ (io.handleReadable fd env).openFds := by
      rw [heq]
      exact hopen
    have hsound := io.handleReadable_sound fd env h.sound hopen'
    have hone := h.room hprompt hends
    have hline : (io.history fd).written ++ ((io.running ++ (io.queue ++
        (io.readOutcome fd env).handed.map (Task.mk fd))).map Task.raw) =
          (io.history fd).handed ++ (io.readOutcome fd env).handed := by
      rw [← h.whole hopen]
      simp [Function.comp_def]
    rw [heq] at hhistory hsound hopen' ⊢
    refine ⟨h.pool, ?_, ?_, h.completions, hsound, fun _ => hopen', ?_, ?_, ?_⟩
    · simp only [outstanding, List.length_append, List.length_map] at hone ⊢
      omega
    · intro t ht
      simp only [List.mem_append, List.mem_map] at ht
      rcases ht with ht | ht | ⟨raw, -, rfl⟩
      · exact h.tasks t (List.mem_append_left _ ht)
      · exact h.tasks t (List.mem_append_right _ ht)
      · rfl
    · exact fun hfd => absurd hopen' hfd
    · rw [hhistory]
      exact hline ▸ List.prefix_rfl
    · intro _
      rw [hhistory]
      exact hline

/-- A call that completes a request adds a task to what is outstanding. -/
theorem Lone.dispatches {io : RequestIO} {fd : ℕ} (h : io.Lone fd) {env : ReadEnv}
    (haccepted : env.accepted = true) (hcompletes : io.Completes fd env) :
    (io.handleReadable fd env).outstanding = io.outstanding + 1 := by
  obtain ⟨raw, st, -, hstop⟩ := (io.dispatched_iff fd env h.pool h.sound).mpr hcompletes
  have hends : (io.readOutcome fd env).stop.ends env.accepted = false := by
    rw [hstop, haccepted]
    rfl
  obtain ⟨p, armed, u, n, hist, heq, -⟩ := io.handleReadable_kept fd env hends
  rw [heq, hstop]
  simp only [outstanding, ReadEnd.tasks, List.length_append, List.length_singleton]
  omega

theorem Lone.disarm {io : RequestIO} {fd : ℕ} (h : io.Lone fd) : (io.disarm fd).Lone fd := by
  refine ⟨h.pool, h.one, h.tasks, h.completions, h.sound, ?_, h.closed, h.order, h.whole⟩
  intro harmed
  exact h.armed (Finset.mem_of_mem_erase harmed)

theorem Lone.rearmed {io : RequestIO} {fd : ℕ} (h : io.Lone fd) (now : Ticks) :
    (io.rearmed fd now).Lone fd := by
  obtain ⟨p, armed, heq, -, harmed⟩ := io.rearmed_eq fd now
  have hslot := io.pendingSlot_rearmed fd now
  rw [heq] at hslot ⊢
  refine ⟨h.pool, h.one, h.tasks, h.completions, ?_, ?_, ?_, h.order, h.whole⟩
  · rw [hslot]
    exact ⟨h.sound.fits, by simp⟩
  · rcases harmed with rfl | ⟨-, hopen⟩
    · exact h.armed
    · exact fun _ => hopen
  · rw [hslot]
    exact h.closed

theorem Lone.retire {io : RequestIO} {fd : ℕ} (h : io.Lone fd) : (io.retire fd).Lone fd := by
  obtain ⟨p, heq, hp⟩ := io.retire_eq fd
  rw [heq]
  exact h.ended hp h.order

theorem Lone.rearmConnection {io : RequestIO} {fd : ℕ} (h : io.Lone fd) (hidle : io.outstanding = 0)
    (now : Ticks) (env : ReadEnv) : (io.rearmConnection fd now env).Lone fd := by
  have hrearmed := h.rearmed now
  have hidle' : (io.rearmed fd now).outstanding = 0 := by
    obtain ⟨p, armed, heq, -⟩ := io.rearmed_eq fd now
    rw [heq]
    exact hidle
  unfold RequestIO.rearmConnection
  simp only
  split_ifs with hbuffer
  · have hopen : fd ∈ (io.rearmed fd now).openFds := by
      by_contra hclosed
      exact hbuffer (hrearmed.closed hclosed)
    exact hrearmed.handleReadable hopen (Or.inl hidle')
  · exact hrearmed

/-- With one completion at most, draining leaves at most the task that it dispatches. -/
theorem Lone.drainCompletions {io : RequestIO} {fd : ℕ} (h : io.Lone fd) (envs : ℕ → DrainEnv) :
    (io.drainCompletions envs).Lone fd := by
  have hone := h.one
  unfold outstanding at hone
  have hdrained : RequestIO.Lone { io with completed := [] } fd :=
    ⟨h.pool, by simp only [outstanding, List.length_nil]; omega, h.tasks, by simp, h.sound, h.armed,
      h.closed, h.order, h.whole⟩
  unfold RequestIO.drainCompletions
  cases hc : io.completed with
  | nil => exact hdrained
  | cons c rest =>
    rw [hc, List.length_cons] at hone
    obtain rfl : rest = [] := List.length_eq_zero_iff.mp (by omega)
    have hfd : c.fd = fd := h.completions c (by simp [hc])
    change (drainOne { io with completed := [] } c (envs 0)).Lone fd
    unfold drainOne
    rw [hfd]
    split_ifs
    · apply hdrained.rearmConnection
      simp only [outstanding, List.length_nil]
      omega
    · exact hdrained.retire

theorem Lone.take {io io' : RequestIO} {fd : ℕ} (h : io.Lone fd) (ht : io.take = some io') :
    io'.Lone fd := by
  have hone := h.one
  have htasks := h.tasks
  have horder := h.order
  have hwhole := h.whole
  obtain ⟨t, rest, hq, rfl⟩ := take_eq_some ht
  rw [hq, List.append_cons] at htasks horder hwhole
  refine ⟨h.pool, ?_, htasks, h.completions, h.sound, h.armed, h.closed, horder, hwhole⟩
  simp only [outstanding, hq, List.length_cons, List.length_append, List.length_nil] at hone ⊢
  omega

theorem Lone.serveRequest {io io' : RequestIO} {fd i : ℕ} {keepAlive : Bool} (h : io.Lone fd)
    (hs : io.serveRequest i (.returns keepAlive) = some io') : io'.Lone fd := by
  obtain ⟨t, ht, rfl⟩ := Option.map_eq_some_iff.mp hs
  have hmem := List.mem_of_getElem? ht
  have hfd : t.fd = fd := h.tasks t (List.mem_append_left _ hmem)
  have hone := h.one
  unfold outstanding at hone
  -- the task is the only thing outstanding
  have hrunning : io.running = [t] := by
    obtain ⟨t', ht'⟩ := List.length_eq_one_iff.mp
      (show io.running.length = 1 by have := List.length_pos_of_mem hmem; omega)
    rw [ht', List.mem_singleton] at hmem
    rw [ht', hmem]
  have hi : i = 0 := by
    have hlt := (List.getElem?_eq_some_iff.mp ht).1
    rw [hrunning] at hlt
    simpa using hlt
  rw [hrunning, List.length_singleton] at hone
  have hqueue : io.queue = [] := List.length_eq_zero_iff.mp (by omega)
  have hcompleted : io.completed = [] := List.length_eq_zero_iff.mp (by omega)
  have horder := h.order
  have hwhole := h.whole
  rw [hrunning, hqueue] at horder hwhole
  subst hfd hi
  simp only [hrunning, hcompleted, List.eraseIdx_cons_zero, List.nil_append]
  refine ⟨h.pool, ?_, ?_, ?_, h.sound, h.armed, h.closed, ?_, ?_⟩
  · simp [outstanding, hqueue]
  · simp [hqueue]
  · simp
  · simpa [hqueue] using horder
  · simpa [hqueue] using hwhole

/-- A connection starts alone, whether it is kept or closed at once. -/
theorem lone_acceptOne (cfg : Config) (a : Accepted) :
    (acceptOne { cfg, pool := true, listenerFd := 0, notifyFd := 0 } a).Lone a.fd := by
  have hlone {p : Slots} {active : UInt64} {openFds armed : Finset ℕ} {closes : List Close}
      (hslot : ((p.get a.fd).getD {}).Sound ∧ ((p.get a.fd).getD {}).buffer = [])
      (harmed : a.fd ∈ armed → a.fd ∈ openFds) :
      Lone {
        cfg, pool := true, listenerFd := 0, notifyFd := 0, pending := p, active, openFds, armed,
        closes, history := Function.update (fun _ => {}) a.fd {} } a.fd := by
    refine ⟨rfl, Nat.zero_le _, ?_, ?_, hslot.1, harmed, fun _ => hslot.2, ?_, ?_⟩
    all_goals simp
  unfold acceptOne
  simp only
  split_ifs
  · exact hlone ⟨ConnState.sound_default, rfl⟩ (by simp)
  · exact hlone ⟨ConnState.sound_default, rfl⟩ (by simp)
  · apply hlone
    · simp only [setSlot, Slots.get_put, if_true, Option.getD_some]
      exact ⟨⟨by simp, by simp⟩, trivial⟩
    · exact fun _ => Finset.mem_insert_self _ _

end RequestIO

namespace Link
open RequestIO

theorem receive_io {s t : Link} {fd : ℕ} {io : RequestIO} (h : s.receive fd io = some t) :
    t.io = io := by
  unfold receive at h
  simp only at h
  split_ifs at h
  cases h
  rfl

/-- A step that meets the condition keeps the connection alone. -/
theorem lone_step {fd : ℕ} {s t : Link} {l : LinkStep} (h : s.io.Lone fd) (hc : Prompt fd s l)
    (hs : s.step fd l = some t) : t.io.Lone fd := by
  cases l with
  | arrive bytes =>
    cases hs
    exact h
  | readable env =>
    simp only [step] at hs
    split_ifs at hs with harmed
    rw [receive_io hs]
    exact h.disarm.handleReadable (h.armed harmed) hc
  | take =>
    obtain ⟨io, hio, rfl⟩ := Option.map_eq_some_iff.mp hs
    exact h.take hio
  | finish i keepAlive =>
    obtain ⟨io, hio, rfl⟩ := Option.map_eq_some_iff.mp hs
    exact h.serveRequest hio
  | drain envs =>
    rw [receive_io hs]
    exact h.drainCompletions envs

/-- A step out of the condition leaves two tasks outstanding. -/
theorem prompt_of_serial {fd : ℕ} {s t : Link} {l : LinkStep} (h : s.io.Lone fd)
    (hs : s.step fd l = some t) (ht : t.io.Serial fd) : Prompt fd s l := by
  cases l with
  | readable env =>
    simp only [step] at hs
    split_ifs at hs with harmed
    have hone := ht.one
    rw [receive_io hs] at hone
    by_contra hc
    simp only [Prompt, not_or, Bool.not_eq_false, not_not] at hc
    obtain ⟨hbusy, haccepted, hcompletes⟩ := hc
    have hnext : ((s.io.disarm fd).handleReadable fd env).outstanding = s.io.outstanding + 1 :=
      h.disarm.dispatches haccepted hcompletes
    omega
  | arrive bytes => trivial
  | take => trivial
  | finish i keepAlive => trivial
  | drain envs => trivial

/-- In a run of one pipelined connection at most one task is ever outstanding, and the responses
follow the requests, exactly when no event completes a request while a task is outstanding. -/
theorem pipelined_serial_iff (cfg : Config) (a : Accepted) (ls : List LinkStep) :
    Along (step a.fd) (fun s => s.io.Serial a.fd) (accepted cfg a) ls ↔
      Guarded (step a.fd) (Prompt a.fd) (accepted cfg a) ls :=
  along_iff_guarded (fun _ => Lone.serial) (fun _ _ _ => lone_step) (fun _ _ _ => prompt_of_serial)
    (lone_acceptOne cfg a) ls

/-- Two requests at once; the worker answers the first, the drain arms the descriptor and
dispatches the second, and a third one arrives before the second is taken. -/
def pipelinedRun : List LinkStep :=
  let r := bytes "GET / HTTP/1.1\r\nHost: a\r\n\r\n"
  [.arrive (r ++ r), .readable { recvs := [.data (r ++ r) 1] }, .take, .finish 0 true,
    .drain fun _ => ⟨1, {}⟩, .arrive r, .readable { recvs := [.data r 1] }]

/-- The third request becomes a second task beside the second one. -/
theorem pipelined_two_tasks : ¬ ∀ (cfg : Config) (a : Accepted) (ls : List LinkStep),
    Along (step a.fd) (fun s => s.io.Serial a.fd) (accepted cfg a) ls := by
  intro hall
  have hrun : (exec (step 5) (accepted {} ⟨5, true, 1⟩) pipelinedRun).map (·.io.outstanding) =
      some 2 := by decide +kernel
  obtain ⟨s, hs, htwo⟩ := Option.map_eq_some_iff.mp hrun
  have hone := ((hall {} ⟨5, true, 1⟩ pipelinedRun).exec hs).one
  omega

end Link
end Vermell.Request
