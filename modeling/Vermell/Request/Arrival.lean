import Vermell.Http.RoundTrip
import Vermell.Request.Inline
import Vermell.Request.Stream
import Vermell.Runs

/-! Requests that arrive on one connection of a server without a pool, in any segments: each one is
handed over as soon as its last byte is received, and is parsed to what the client has sent. -/
namespace Vermell.Request
open Http Text Runs

inductive ConnectionStep
  | configure (cfg : Config)
  | readable (env : ReadEnv)

/-- An open connection is read, unless an exception is on its way out. -/
def RequestIO.visit (fd : ℕ) (io : RequestIO) : ConnectionStep → Option RequestIO
  | .configure cfg => some { io with cfg := cfg }
  | .readable env =>
    if fd ∈ io.openFds ∧ io.unwinding = false then some (io.handleReadable fd env) else none

/-- No bytes, or the front of a request that is still on the wire. -/
def ConnState.Waits (st : ConnState) : Prop :=
  st.buffer = [] ∨ (inspect st.buffer).framing = .incomplete

section
variable (cfg : Config) (pool : Bool) (env : ReadEnv) (peerClosed dl : Bool)

/-- What the loop hands over stands at the front of the buffer. -/
theorem serveLoop_handed {st : ConnState} (hst : st.Sound) (handed : List Bytes) :
    ∃ served, (serveLoop cfg pool env peerClosed dl st handed).1 = handed ++ served ∧
      served.flatten <+: st.buffer := by
  obtain ⟨served, hserved, hprefix⟩ := serveLoop_rule cfg pool env peerClosed dl
    (P := fun st served _ => st.Sound → served.flatten <+: st.buffer)
    (fun st r _ _ => List.nil_prefix) (fun st st' _ _ => List.nil_prefix)
    (fun st raw st' stop hcut _ hst => by
      obtain ⟨-, hbuffer, -⟩ := takeRequest_cut_sound _ _ _ hst hcut
      exact ⟨st'.buffer, by simpa using hbuffer⟩)
    (fun st raw st' served stop hcut hrest hst => by
      obtain ⟨-, hbuffer, hst'⟩ := takeRequest_cut_sound _ _ _ hst hcut
      obtain ⟨t, ht⟩ := hrest hst'
      exact ⟨t, by rw [List.flatten_cons, List.append_assoc, ht, hbuffer]⟩) st handed
  exact ⟨served, hserved, hprefix hst⟩

theorem takeRequest_waits {st st' : ConnState} (hst : st.Sound)
    (h : takeRequest cfg peerClosed dl st = .wait st') : st'.Waits := by
  obtain ⟨-, -, ⟨hk, hlt, rfl⟩ | ⟨-, n, hi, rfl⟩⟩ := takeRequest_wait h
  · have hknown := hst.known hk []
    rw [List.append_nil, if_neg (by omega)] at hknown
    exact Or.inr (by rw [hknown])
  · exact Or.inr (by simp only [hi])

theorem serveLoop_waits {st : ConnState} (hst : st.Sound) (handed : List Bytes) :
    ∀ st', (serveLoop cfg pool env peerClosed dl st handed).2 = .waits st' → st'.Waits := by
  obtain ⟨-, -, hwaits⟩ := serveLoop_rule cfg pool env peerClosed dl
    (P := fun st _ stop => st.Sound → ∀ st', stop = .waits st' → st'.Waits)
    (fun st r _ _ st' heq => by cases heq)
    (fun st st' hwait hst st'' heq => by
      cases heq
      exact takeRequest_waits cfg peerClosed dl hst hwait)
    (fun st raw st' stop _ hstop _ st'' heq => by
      subst heq
      cases hstop with
      | drained time hempty => exact Or.inl hempty)
    (fun st raw st' served stop hcut hrest hst => by
      obtain ⟨-, -, hst'⟩ := takeRequest_cut_sound _ _ _ hst hcut
      exact hrest hst') st handed
  exact hwaits hst

end

section
variable (cfg : Config) (pool : Bool) (bufsz : ℕ) (env : ReadEnv)

theorem readable_handed {st : ConnState} (hst : st.Sound) :
    (readable cfg pool bufsz env st).handed.flatten <+:
      st.buffer ++ (readable cfg pool bufsz env st).got := by
  unfold readable
  cases hr : readLoop cfg bufsz (st.started env.now) [] env.recvs with
  | reject r got => exact List.nil_prefix
  | ok st₁ got peerClosed =>
    obtain ⟨hst₁, more, time, hgot, hbuf⟩ := readLoop_ok (hst.started env.now) hr
    have hbuffer : st₁.buffer = st.buffer ++ got := by
      rw [hbuf, hgot, ConnState.started_buffer, List.nil_append]
    simp only
    split_ifs with hempty
    · exact List.nil_prefix
    · obtain ⟨served, hserved, hprefix⟩ :=
        serveLoop_handed cfg pool env peerClosed (deadlineOver cfg env.now st₁) hst₁ []
      rw [hserved, ← hbuffer]
      exact hprefix

/-- A call that goes back to waiting has nothing complete left in its buffer. -/
theorem readable_waits {st st' : ConnState} (hst : st.Sound)
    (h : (readable cfg pool bufsz env st).stop = .waits st') : st'.Waits := by
  unfold readable at h
  cases hr : readLoop cfg bufsz (st.started env.now) [] env.recvs with
  | reject r got =>
    rw [hr] at h
    cases h
  | ok st₁ got peerClosed =>
    obtain ⟨hst₁, -⟩ := readLoop_ok (hst.started env.now) hr
    rw [hr] at h
    simp only at h
    split_ifs at h with hempty
    · cases h
      exact Or.inl hempty
    · exact serveLoop_waits cfg pool env peerClosed _ hst₁ [] st' h

end

/-- Whole requests at the front of a stream of whole requests are the first of them. -/
theorem prefix_of_whole {handed requests : List Bytes}
    (hhanded : ∀ raw ∈ handed, inspect raw = ⟨.complete, raw.length⟩)
    (hrequests : ∀ raw ∈ requests, inspect raw = ⟨.complete, raw.length⟩ ∧ raw.length ≤ npos)
    (h : handed.flatten <+: requests.flatten) : handed <+: requests := by
  induction handed generalizing requests with
  | nil => exact List.nil_prefix
  | cons raw handed ih =>
    obtain ⟨hraw, hmore⟩ := List.forall_mem_cons.mp hhanded
    have hpos := (inspect_complete_le hraw).1
    cases requests with
    | nil =>
      rw [List.flatten_nil, List.prefix_nil, List.flatten_cons, List.append_eq_nil_iff] at h
      rw [h.1] at hpos
      cases hpos
    | cons request requests =>
      obtain ⟨⟨hrequest, hfits⟩, hrest⟩ := List.forall_mem_cons.mp hrequests
      obtain ⟨t, ht⟩ := h
      rw [List.flatten_cons, List.flatten_cons, List.append_assoc] at ht
      -- either one is complete in the other
      have hsame : raw = request := by
        rcases List.append_eq_append_iff.mp ht with ⟨u, hu, -⟩ | ⟨u, hu, -⟩
        · have hshort : raw.length ≤ npos := by
            have := congrArg List.length hu
            rw [List.length_append] at this
            omega
          have hagain := (inspect_complete_stable hshort hraw).2.1 u
          rw [← hu, hrequest] at hagain
          have hlen := congrArg List.length hu
          rw [(Inspection.mk.inj hagain).2, List.length_append] at hlen
          have hnil : u = [] := List.length_eq_zero_iff.mp (by omega)
          rw [hu, hnil, List.append_nil]
        · have hagain := (inspect_complete_stable hfits hrequest).2.1 u
          rw [← hu, hraw] at hagain
          have hlen := congrArg List.length hu
          rw [(Inspection.mk.inj hagain).2, List.length_append] at hlen
          have hnil : u = [] := List.length_eq_zero_iff.mp (by omega)
          rw [hu, hnil, List.append_nil]
      subst hsame
      have htail := List.append_cancel_left ht
      exact List.cons_prefix_cons.mpr ⟨rfl, ih hmore hrest ⟨t, htail⟩⟩

theorem first_of_whole {handed : List Bytes} {sent : List SentRequest}
    (hwhole : ∀ raw ∈ handed, inspect raw = ⟨.complete, raw.length⟩)
    (hfront : handed.flatten <+: (sent.map SentRequest.text).flatten) :
    handed <+: sent.map SentRequest.text := by
  apply prefix_of_whole hwhole _ hfront
  intro raw hraw
  obtain ⟨r, -, rfl⟩ := List.mem_map.mp hraw
  exact ⟨r.whole, r.held⟩

/-- They are parsed to what the client has sent. -/
theorem parsed_first {handed : List Bytes} {sent : List SentRequest}
    (h : handed <+: sent.map SentRequest.text) :
    handed.map parse <+: sent.map fun r => some r.message := by
  have hparsed : (sent.map SentRequest.text).map parse = sent.map fun r => some r.message := by
    rw [List.map_map]
    apply List.map_congr_left
    intro r _
    simpa using (r.read []).2
  exact hparsed ▸ h.map parse

/-- With no complete request in the buffer, every request received in full is handed over. -/
theorem handed_of_waits {handed : List Bytes} {received : Bytes} {st : ConnState}
    {sent : List SentRequest} (hfirst : handed <+: sent.map SentRequest.text)
    (hbytes : handed.flatten ++ st.buffer = received) (hwaits : st.Waits) {k : ℕ}
    (hk : k ≤ sent.length)
    (hwhole : ((sent.take k).map SentRequest.text).flatten <+: received) : k ≤ handed.length := by
  by_contra hlate
  -- the next request would be complete in the buffer
  have hn : handed.length < sent.length := by omega
  have hhanded : handed = (sent.take handed.length).map SentRequest.text := by
    rw [List.map_take]
    exact List.prefix_iff_eq_take.mp hfirst
  have hbuffer : sent[handed.length].text <+: st.buffer := by
    have hnext : ((sent.take (handed.length + 1)).map SentRequest.text).flatten <+: received := by
      refine List.IsPrefix.trans ?_ hwhole
      obtain ⟨t, ht⟩ : sent.take (handed.length + 1) <+: sent.take k :=
        List.take_prefix_take_left (by omega)
      rw [← ht, List.map_append, List.flatten_append]
      exact List.prefix_append _ _
    rw [List.take_succ_eq_append_getElem hn, List.map_append, List.flatten_append, ← hhanded,
      ← hbytes, List.prefix_append_right_inj] at hnext
    simpa using hnext
  obtain ⟨rest, hrest⟩ := hbuffer
  have hcomplete := (sent[handed.length].read rest).1
  rw [hrest] at hcomplete
  cases hwaits with
  | inl hempty =>
    have hpos := (inspect_complete_le hcomplete).2
    have hsome := (inspect_complete_le hcomplete).1
    rw [hempty] at hpos
    simp only [List.length_nil] at hpos
    omega
  | inr hincomplete =>
    rw [hcomplete] at hincomplete
    cases hincomplete

namespace RequestIO

/-- The requests handed over are whole and stand at the front of the stream, and the buffer of an
open connection is what comes behind them, with no request in it that is complete. -/
structure Arrived (fd : ℕ) (io : RequestIO) : Prop where
  inline : io.pool = false
  whole : ∀ raw ∈ (io.history fd).handed, inspect raw = ⟨.complete, raw.length⟩
  front : (io.history fd).handed.flatten <+: (io.history fd).received
  stream : fd ∈ io.openFds → io.Streamed fd
  waits : fd ∈ io.openFds → io.unwinding = false → (io.pendingSlot fd).Waits

variable {fd : ℕ} {io : RequestIO}

/-- A call that leaves the connection open, and lets no exception through, goes back to waiting. -/
theorem readOutcome_waits {env : ReadEnv} (hpool : io.pool = false)
    (hopen : fd ∈ (io.handleReadable fd env).openFds)
    (hunwinding : (io.handleReadable fd env).unwinding = false) :
    ∃ st, (io.readOutcome fd env).stop = .waits st ∧
      (io.handleReadable fd env).pendingSlot fd = st := by
  cases hstop : (io.readOutcome fd env).stop with
  | waits st =>
    refine ⟨st, rfl, ?_⟩
    simp only [hstop, RequestIO.handleReadable, finishRead, rearmWait]
    rw [if_neg (by simp [setSlot, record, hpool])]
    simp [pendingSlot, slot, setSlot, Slots.get_put]
  | rejected r =>
    simp only [hstop, RequestIO.handleReadable, finishRead] at hopen
    exact absurd hopen (Finset.notMem_erase fd _)
  | closed =>
    simp only [hstop, RequestIO.handleReadable, finishRead] at hopen
    exact absurd hopen (Finset.notMem_erase fd _)
  | dispatched raw st =>
    have hnone := readable_inline io.cfg io.bufsz env (io.pendingSlot fd) raw st
    rw [← hpool] at hnone
    exact absurd hstop hnone
  | escaped st =>
    simp only [hstop, RequestIO.handleReadable, finishRead] at hunwinding
    cases hunwinding

theorem pool_handleReadable (io : RequestIO) (fd : ℕ) (env : ReadEnv) :
    (io.handleReadable fd env).pool = io.pool :=
  congrArg (fun s => s.2.1) (io.setup_handleReadable fd env)

theorem Arrived.handleReadable (h : io.Arrived fd) (hopen : fd ∈ io.openFds) (env : ReadEnv) :
    (io.handleReadable fd env).Arrived fd := by
  have hstream := h.stream hopen
  have hhistory := io.handleReadable_history fd env
  have hinline : (io.handleReadable fd env).pool = false :=
    (io.pool_handleReadable fd env).trans h.inline
  have hread := readable_sound io.cfg io.bufsz env false hstream.sound
  have hfront := readable_handed io.cfg false io.bufsz env hstream.sound
  have hout : readable io.cfg false io.bufsz env (io.pendingSlot fd) = io.readOutcome fd env := by
    rw [readOutcome, h.inline]
  rw [hout] at hread hfront
  refine ⟨hinline, ?_, ?_, fun hstill => hstream.handleReadable hstill, ?_⟩
  · rw [hhistory]
    exact List.forall_mem_append.mpr ⟨h.whole, hread.1⟩
  · rw [hhistory]
    simp only [List.flatten_append]
    rw [← hstream.bytes, List.append_assoc]
    exact (List.prefix_append_right_inj _).mpr hfront
  · intro hstill hcalm
    obtain ⟨st, hstop, hslot⟩ := readOutcome_waits h.inline hstill hcalm
    rw [hslot]
    rw [← hout] at hstop
    exact readable_waits io.cfg false io.bufsz env hstream.sound hstop

theorem history_accept (io : RequestIO) (a : Accepted) : (io.acceptOne a).history a.fd = {} := by
  unfold acceptOne
  simp only
  split_ifs <;> simp [closeFd, setSlot]

theorem arrived_accept (hpool : io.pool = false) (a : Accepted) :
    (io.acceptOne a).Arrived a.fd := by
  have hinline : (io.acceptOne a).pool = false := by
    unfold acceptOne
    simp only
    split_ifs <;> exact hpool
  have hhistory := history_accept io a
  refine ⟨hinline, by simp [hhistory], by simp [hhistory], streamed_accept a, ?_⟩
  intro hopen _
  have hbytes := (streamed_accept a hopen).bytes
  rw [hhistory] at hbytes
  exact Or.inl hbytes

theorem Arrived.visit {io' : RequestIO} {l : ConnectionStep} (h : io.Arrived fd)
    (hs : io.visit fd l = some io') : io'.Arrived fd := by
  cases l with
  | configure cfg =>
    cases hs
    refine ⟨h.inline, h.whole, h.front, fun hopen => ?_, h.waits⟩
    obtain ⟨hwhole, hbytes, hsound⟩ := h.stream hopen
    exact ⟨hwhole, hbytes, hsound⟩
  | readable env =>
    unfold RequestIO.visit at hs
    split_ifs at hs with hgo
    cases hs
    exact h.handleReadable hgo.1 env

theorem arrived_exec {io' : RequestIO} {a : Accepted} (hpool : io.pool = false)
    {steps : List ConnectionStep} (hrun : exec (visit a.fd) (io.acceptOne a) steps = some io') :
    io'.Arrived a.fd :=
  (along_of_invariant (fun _ _ _ h hs => Arrived.visit h hs) (arrived_accept hpool a) steps).exec
    hrun

/-- Of a stream of whole requests the first ones have been handed over. -/
theorem Arrived.first (h : io.Arrived fd) {sent : List SentRequest}
    (hreceived : (io.history fd).received <+: (sent.map SentRequest.text).flatten) :
    (io.history fd).handed <+: sent.map SentRequest.text :=
  first_of_whole h.whole (h.front.trans hreceived)

end RequestIO

open RequestIO

/-- Whatever a client sends as well-formed requests with their bodies, and however it arrives: the
requests handed over are the first of them and are parsed to what they mean, and as long as the
connection is open every request that is received to its last byte has been handed over. -/
theorem requests_arrive (io io' : RequestIO) (a : Accepted) (hpool : io.pool = false)
    (steps : List ConnectionStep)
    (hrun : exec (visit a.fd) (io.acceptOne a) steps = some io')
    (sent : List SentRequest)
    (hreceived : (io'.history a.fd).received <+: (sent.map SentRequest.text).flatten) :
    (io'.history a.fd).handed <+: sent.map SentRequest.text ∧
      (io'.history a.fd).handed.map parse <+: sent.map (fun r => some r.message) ∧
      (a.fd ∈ io'.openFds → io'.unwinding = false → ∀ k ≤ sent.length,
        ((sent.take k).map SentRequest.text).flatten <+: (io'.history a.fd).received →
          k ≤ (io'.history a.fd).handed.length) := by
  have harrived := arrived_exec hpool hrun
  have hfirst := harrived.first hreceived
  refine ⟨hfirst, parsed_first hfirst, ?_⟩
  intro hopen hcalm k hk hwhole
  exact handed_of_waits hfirst (harrived.stream hopen).bytes (harrived.waits hopen hcalm) hk hwhole

/-- A request with a body in two segments, the second with the front of the next request. -/
theorem requests_arrive_split :
    let post := bytes "POST /a HTTP/1.1\r\nHost: b\r\nContent-Length: 005\r\n\r\nhello"
    let get := bytes "GET / HTTP/1.1\r\nHost: b\r\n\r\n"
    let front : ReadEnv := { recvs := [.data (post.take 51) 1] }
    let rest : ReadEnv := { recvs := [.data (post.drop 51 ++ get.take 20) 2] }
    let io := acceptOne { cfg := {}, pool := false, listenerFd := 3, notifyFd := 4 }
      ⟨5, true, 1⟩
    ∃ sent : SentRequest, sent.text = post ∧ sent.body = bytes "hello" ∧
      (((io.handleReadable 5 front).handleReadable 5 rest).history 5).handed.map parse =
        [some sent.message] := by
  intro post get front rest io
  obtain ⟨sentPost, hpost, hbody⟩ :
      ∃ sent : SentRequest, sent.text = post ∧ sent.body = bytes "hello" :=
    ⟨⟨⟨bytes "POST", bytes "/a", bytes "HTTP/1.1",
        [(bytes "Host", bytes "b"), (bytes "Content-Length", bytes "005")]⟩,
      bytes "hello", bytes "hello",
      ⟨by decide, by decide, by decide, by decide, by decide, by decide, by decide, by decide⟩,
      .counted (f := (bytes "Content-Length", bytes "005")) (by decide) (by decide)
        ⟨by decide, List.all_eq_true.mp (by decide)⟩ (by decide), by decide⟩, by decide, rfl⟩
  obtain ⟨sentGet, hget⟩ : ∃ sent : SentRequest, sent.text = get :=
    ⟨⟨⟨bytes "GET", bytes "/", bytes "HTTP/1.1", [(bytes "Host", bytes "b")]⟩, [], [],
      ⟨by decide, by decide, by decide, by decide, by decide, by decide, by decide, by decide⟩,
      .bodyless (by decide), by decide⟩, by decide⟩
  have hfront : 5 ∈ io.openFds ∧ io.unwinding = false := by decide +kernel
  have hrest : 5 ∈ (io.handleReadable 5 front).openFds ∧
      (io.handleReadable 5 front).unwinding = false := by decide +kernel
  have hhanded : (((io.handleReadable 5 front).handleReadable 5 rest).history 5).handed.length =
      1 := by decide +kernel
  have hrun : exec (visit 5) io [.readable front, .readable rest] =
      some ((io.handleReadable 5 front).handleReadable 5 rest) := by
    simp only [exec, visit, if_pos hfront, if_pos hrest, Option.bind_some]
  obtain ⟨-, hparsed, -⟩ := requests_arrive _ _ ⟨5, true, 1⟩ rfl _ hrun [sentPost, sentGet] (by
    simp only [List.map_cons, List.map_nil, hpost, hget]
    decide +kernel)
  rw [List.prefix_iff_eq_take, List.length_map, hhanded] at hparsed
  exact ⟨sentPost, hpost, hbody, hparsed⟩

end Vermell.Request
