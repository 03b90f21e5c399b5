import Vermell.Request.Arrival
import Vermell.Request.Lanes

/-! Every connection of a whole run, with a pool or without and among all the others: its requests
are handed over one at a time and answered in the order of their arrival, and what is received in
full is answered when nothing of the connection is in flight. -/
namespace Vermell.Request
open Http Text Runs

section
variable (cfg : Config) (pool : Bool) (env : ReadEnv)

theorem serveLoop_escaped (peerClosed dl : Bool) (st : ConnState) (handed : List Bytes) :
    ∀ st', (serveLoop cfg pool env peerClosed dl st handed).2 = .escaped st' →
      ∃ i, env.handlers i = .escapes := by
  induction st, handed using serveLoop.induct cfg pool env peerClosed dl with
  | case1 st handed r h =>
    rw [serveLoop_eq, h]
    exact fun _ heq => by cases heq
  | case2 st handed st' h =>
    rw [serveLoop_eq, h]
    exact fun _ heq => by cases heq
  | case3 st handed raw st' h hpool =>
    rw [serveLoop_eq, h]
    simp only [hpool, if_true]
    exact fun _ heq => by cases heq
  | case4 st handed raw st' h hpool hh => exact fun _ _ => ⟨handed.length, hh⟩
  | case5 st handed raw st' h hpool hh =>
    rw [serveLoop_eq, h]
    simp only [if_neg hpool, hh]
    exact fun _ heq => by cases heq
  | case6 st handed raw st' h hpool hh hempty =>
    rw [serveLoop_eq, h]
    simp only [if_neg hpool, hh, if_pos hempty]
    exact fun _ heq => by cases heq
  | case7 st handed raw st' h hpool hh hempty ih =>
    rw [serveLoop_eq, h]
    simp only [if_neg hpool, hh, if_neg hempty]
    exact ih

/-- An exception leaves a call only out of a handler. -/
theorem readable_escaped (bufsz : ℕ) {st st' : ConnState}
    (h : (readable cfg pool bufsz env st).stop = .escaped st') :
    ∃ i, env.handlers i = .escapes := by
  unfold readable at h
  cases hr : readLoop cfg bufsz (st.started env.now) [] env.recvs with
  | reject r got =>
    rw [hr] at h
    cases h
  | ok st₁ got peerClosed =>
    rw [hr] at h
    simp only at h
    split_ifs at h with hempty
    exact serveLoop_escaped cfg pool env peerClosed _ st₁ [] st' h

end

/-- No handler of the call lets anything through but a `std::exception`. -/
def ReadEnv.Civil (env : ReadEnv) : Prop := ∀ i, env.handlers i ≠ .escapes

namespace Lane

/-- The requests handed over are whole and stand at the front of the stream; they are answered in
turn, and the last of them may be in flight. -/
structure Ordered (l : Lane) : Prop where
  whole : ∀ raw ∈ l.history.handed, inspect raw = ⟨.complete, raw.length⟩
  front : l.history.handed.flatten <+: l.history.received
  answered : l.history.written <+: l.history.handed
  last : l.history.handed.length ≤ l.history.written.length + 1
  tasks : l.isOpen → l.history.written ++ l.tasks = l.history.handed
  bytes : l.isOpen → l.history.handed.flatten ++ l.buffer = l.history.received

/-- With nothing in flight there is no complete request in the buffer. -/
structure Settled (l : Lane) : Prop extends l.Ordered where
  waits : l.isOpen → l.tasks = [] → l.completions = 0 → (l.slot.getD {}).Waits

end Lane

namespace RequestIO

section
variable {io : RequestIO} {fd : ℕ} {done : List Completion} {env : ReadEnv}

/-- With no exception on its way out, the requests of a call are answered or become its task. -/
theorem served_tasks (hcivil : env.Civil) :
    io.served (io.readOutcome fd env) ++ ((io.readOutcome fd env).stop.tasks fd).map Task.raw =
      (io.readOutcome fd env).handed := by
  cases hpool : io.pool with
  | true =>
    have htasks := readable_pool_tasks io.cfg io.bufsz env (io.pendingSlot fd) fd
    rw [← hpool] at htasks
    change (io.readOutcome fd env).stop.tasks fd = _ at htasks
    rw [served, if_pos hpool, htasks, List.map_map, List.nil_append]
    exact List.map_id _
  | false =>
    have hserved : io.served (io.readOutcome fd env) = (io.readOutcome fd env).handed := by
      unfold served
      rw [if_neg (by simp [hpool])]
      split
      · rename_i st hstop
        obtain ⟨i, hi⟩ := readable_escaped io.cfg io.pool env io.bufsz hstop
        exact absurd hi (hcivil i)
      · rfl
    have htasks : (io.readOutcome fd env).stop.tasks fd = [] := by
      rcases (io.readOutcome fd env).stop.tasks_cases fd with hnone | ⟨raw, st, hstop, -⟩
      · exact hnone
      · have := io.dispatched_pool fd env hstop
        rw [hpool] at this
        cases this
    rw [hserved, htasks, List.map_nil, List.append_nil]

/-- A call on an open connection with nothing in flight. -/
theorem Held.settled_handleReadable (h : io.Held done fd) (hl : (io.lane done fd).Ordered)
    (hcivil : env.Civil) : ((io.handleReadable fd env).lane done fd).Settled := by
  have hwritten : (io.history fd).written = (io.history fd).handed := by
    have htasks := hl.tasks h.isOpen
    rwa [(lane_idle h.idle).1, List.append_nil] at htasks
  have hbytes : (io.history fd).handed.flatten ++ (io.pendingSlot fd).buffer =
      (io.history fd).received := hl.bytes h.isOpen
  have hstream : io.Streamed fd := ⟨hl.whole, hbytes, h.sound⟩
  have hread := readable_sound io.cfg io.bufsz env io.pool h.sound
  have hserved : io.served (io.readOutcome fd env) ++
      ((io.readOutcome fd env).stop.tasks fd).map Task.raw = (io.readOutcome fd env).handed :=
    served_tasks hcivil
  have hhistory : ((io.handleReadable fd env).lane done fd).history = _ :=
    io.handleReadable_history fd env
  refine ⟨⟨?_, ?_, ?_, ?_, ?_, fun hopen => (hstream.handleReadable hopen).bytes⟩, ?_⟩
  · rw [hhistory]
    exact List.forall_mem_append.mpr ⟨hl.whole, hread.1⟩
  · rw [hhistory]
    simp only [List.flatten_append]
    rw [← hbytes, List.append_assoc]
    exact (List.prefix_append_right_inj _).mpr
      (readable_handed io.cfg io.pool io.bufsz env h.sound)
  · rw [hhistory, hwritten]
    exact (List.prefix_append_right_inj _).mpr ⟨_, hserved⟩
  · rw [hhistory, hwritten]
    have hlength := congrArg List.length hserved
    have hone : ((io.readOutcome fd env).stop.tasks fd).length ≤ 1 := by
      rcases (io.readOutcome fd env).stop.tasks_cases fd with hnone | ⟨raw, st, -, hone⟩
      · simp [hnone]
      · simp [hone]
    simp only [List.length_append, List.length_map] at hlength ⊢
    omega
  · intro hopen
    rw [hhistory, hwritten, (lane_open h.idle hopen).1, List.append_assoc, hserved]
  · intro hopen htasks _
    have hleft := lane_open h.idle hopen
    rw [hleft.1] at htasks
    change (((io.handleReadable fd env).slot fd).getD {}).Waits
    rw [hleft.2]
    obtain ⟨-, st, hst, -⟩ := finishRead_open _ fd hopen
    cases hstop : (io.readOutcome fd env).stop with
    | waits st => exact readable_waits io.cfg io.pool io.bufsz env h.sound hstop
    | rejected r =>
      rw [hstop] at hst
      cases hst
    | closed =>
      rw [hstop] at hst
      cases hst
    | dispatched raw st =>
      rw [hstop] at htasks
      cases htasks
    | escaped st =>
      obtain ⟨i, hi⟩ := readable_escaped io.cfg io.pool env io.bufsz hstop
      exact absurd hi (hcivil i)

end

/-- What is kept of a connection that is served in turn. -/
theorem turnRule : LaneRule ReadEnv.Civil False Lane.Ordered Lane.Settled where
  own h _ := ⟨h.whole, h.front, h.answered, h.last, h.tasks, h.bytes⟩
  read held henv h := held.settled_handleReadable h henv
  armed h hbuffer := by
    refine ⟨h.whole, h.front, h.answered, h.last, h.tasks, fun hopen => ?_⟩
    rw [← h.bytes hopen]
    exact congrArg _ hbuffer
  drained h hbuffer := ⟨h, fun _ _ _ => Or.inl hbuffer⟩
  closed h hhistory hclosed := by
    refine ⟨⟨?_, ?_, ?_, ?_, fun hopen => absurd hopen hclosed, fun hopen => absurd hopen hclosed⟩,
      fun hopen => absurd hopen hclosed⟩
    · exact hhistory ▸ h.whole
    · exact hhistory ▸ h.front
    · exact hhistory ▸ h.answered
    · exact hhistory ▸ h.last
  fresh hhistory htasks hbuffer := by
    refine ⟨⟨?_, ?_, ?_, ?_, ?_, ?_⟩, fun hopen _ _ => Or.inl (hbuffer hopen)⟩
    · simp [hhistory]
    · simp [hhistory]
    · simp [hhistory]
    · simp [hhistory]
    · simp [hhistory, htasks]
    · intro hopen
      simp [hhistory, hbuffer hopen]
  served h hopen htasks := by
    have hhanded := h.tasks hopen
    rw [htasks] at hhanded
    refine ⟨⟨h.whole, h.front, ?_, ?_, fun _ => ?_, h.bytes⟩, fun _ _ hdone => by cases hdone⟩
    · exact hhanded ▸ List.prefix_rfl
    · exact hhanded ▸ Nat.le_succ _
    · exact (List.append_nil _).trans hhanded
  lost hlossy := hlossy.elim

end RequestIO

open RequestIO

/-- Along every orderly run whose handlers let nothing but a `std::exception` out, each connection is
served in turn, whatever the workers and the other connections do: the requests handed over are the
first ones sent, at most the last of them is not answered yet, and an open connection with nothing
in flight has answered every request that is received in full. -/
theorem connections_served_in_turn (cfg : Config) (pool : Bool) (listenerFd notifyFd : ℕ)
    (ls : List LoopStep) (hcivil : ∀ l ∈ ls, Allows ReadEnv.Civil False l)
    (horderly : Guarded step Orderly (start cfg pool listenerFd notifyFd) ls)
    (io : RequestIO)
    (hrun : exec step (start cfg pool listenerFd notifyFd) ls = some io)
    (fd : ℕ) (sent : List SentRequest)
    (hreceived : (io.history fd).received <+: (sent.map SentRequest.text).flatten) :
    (io.history fd).handed.map parse <+: sent.map (fun r => some r.message) ∧
      (io.history fd).written <+: (io.history fd).handed ∧
      (io.history fd).handed.length ≤ (io.history fd).written.length + 1 ∧
      (fd ∈ io.openFds → io.inFlight fd = 0 → ∀ k ≤ sent.length,
        ((sent.take k).map SentRequest.text).flatten <+: (io.history fd).received →
          k ≤ (io.history fd).written.length) := by
  have hsettled := ((ruled_along turnRule cfg pool listenerFd notifyFd hcivil
    horderly).exec hrun).lanes fd
  have hfirst : (io.history fd).handed <+: sent.map SentRequest.text :=
    first_of_whole hsettled.whole (hsettled.front.trans hreceived)
  refine ⟨parsed_first hfirst, hsettled.answered, hsettled.last, ?_⟩
  intro hopen hidle k hk hwhole
  have hnone : (io.lane [] fd).tasks = [] ∧ (io.lane [] fd).completions = 0 :=
    lane_idle hidle
  have hwritten : (io.history fd).written = (io.history fd).handed := by
    have hall := hsettled.tasks hopen
    rwa [hnone.1, List.append_nil] at hall
  rw [hwritten]
  apply handed_of_waits hfirst (hsettled.bytes hopen) _ hk hwhole
  exact hsettled.waits hopen hnone.1 hnone.2

/-- A request behind which the connection is kept. -/
def keptGet : Bytes := bytes "GET / HTTP/1.1\r\nHost: a\r\n\r\n"

/-- Two connections of a pool. The first sends two requests at once, and its second is dispatched
by the drain, behind the completion of the first. -/
def pooledRun : List LoopStep :=
  let drain : List LoopStep := [.wait [⟨4, true, false⟩], .event ⟨[], fun _ => ⟨2, {}⟩⟩, .sweep 2]
  [.wait [⟨3, true, false⟩], .event ⟨[⟨5, true, 0⟩, ⟨6, true, 0⟩], fun _ => ⟨0, {}⟩⟩, .sweep 1,
    .wait [⟨5, true, false⟩, ⟨6, true, false⟩],
    .event ⟨[], fun _ => ⟨1, { recvs := [.data (keptGet ++ keptGet) 1] }⟩⟩,
    .event ⟨[], fun _ => ⟨1, { recvs := [.data keptGet 1] }⟩⟩, .sweep 1, .take, .take,
    .finish 1 (.returns true), .finish 0 (.returns true)] ++ drain ++
    [.take, .finish 0 (.returns true)] ++ drain

theorem connections_served_in_turn_pooled : ∃ io,
    exec step (start {} true 3 4) pooledRun = some io ∧
      (io.history 5).written.length = 2 := by
  have hfacts : (exec step (start {} true 3 4) pooledRun).map
      (fun io => (decide (5 ∈ io.openFds), io.inFlight 5, (io.history 5).received,
        (io.history 5).handed.length)) =
        some (true, 0, keptGet ++ keptGet, 2) := by
    decide +kernel
  obtain ⟨io, hio, hfacts⟩ := Option.map_eq_some_iff.mp hfacts
  simp only [Prod.mk.injEq, decide_eq_true_eq] at hfacts
  obtain ⟨hopen, hidle, hreceived, hhanded⟩ := hfacts
  let get : SentRequest :=
    ⟨⟨bytes "GET", bytes "/", bytes "HTTP/1.1", [(bytes "Host", bytes "a")]⟩, [], [],
      ⟨by decide, by decide, by decide, by decide, by decide, by decide, by decide, by decide⟩,
      .bodyless (by decide), by decide⟩
  have htext : ([get, get].map SentRequest.text).flatten = (io.history 5).received := by
    rw [hreceived]
    decide
  obtain ⟨-, hanswered, -, hall⟩ := connections_served_in_turn {} true 3 4 pooledRun
    (by simp [pooledRun, Allows, ReadEnv.Civil]) (by decide +kernel) io hio 5 [get, get]
    (htext ▸ List.prefix_rfl)
  have htwo := hall hopen hidle 2 (by decide) (htext ▸ List.prefix_rfl)
  have hle := hanswered.length_le
  exact ⟨io, hio, by omega⟩

end Vermell.Request
