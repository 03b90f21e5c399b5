import Vermell.Request.Cut

/-! The request loop without a pool, taken apart: the requests that it answers and keeps the
connection for, then the drained buffer or the pass that ends it. -/
namespace Vermell.Request
open Http

/-- Each is a complete request of its own. -/
def AllWhole (raws : List Bytes) : Prop := ∀ raw ∈ raws, inspect raw = ⟨.complete, raw.length⟩

/-- Whole requests are cut in one way only. -/
theorem AllWhole.prefix_free {raws raws' : List Bytes} {s : Bytes} (h : AllWhole raws)
    (h' : AllWhole raws') (heq : raws.flatten ++ s = raws'.flatten)
    (hlen : raws'.flatten.length ≤ npos) : ∃ more, raws' = raws ++ more ∧ s = more.flatten := by
  induction raws generalizing raws' with
  | nil => exact ⟨raws', rfl, heq⟩
  | cons raw raws ih =>
    obtain ⟨hraw, hraws⟩ := List.forall_mem_cons.mp h
    cases raws' with
    | nil =>
      have hpos := (inspect_complete_le hraw).1
      have hnil := congrArg List.length heq
      simp only [List.flatten_cons, List.length_append, List.flatten_nil, List.length_nil] at hnil
      omega
    | cons raw' raws' =>
      obtain ⟨hraw', hraws'⟩ := List.forall_mem_cons.mp h'
      have hbytes := congrArg List.length heq
      simp only [List.flatten_cons, List.length_append] at hbytes hlen
      -- the same bytes are complete at the length of either
      have hfirst := (inspect_complete_stable (by omega) hraw).2.1 (raws.flatten ++ s)
      have hfirst' := (inspect_complete_stable (by omega) hraw').2.1 raws'.flatten
      rw [List.flatten_cons, List.flatten_cons, List.append_assoc] at heq
      rw [heq, hfirst'] at hfirst
      have hsame : raw.length = raw'.length := (Inspection.mk.inj hfirst).2.symm
      obtain ⟨rfl, hrest⟩ := List.append_inj heq hsame
      obtain ⟨more, rfl, hs⟩ := ih hraws hraws' hrest (by omega)
      exact ⟨more, rfl, hs⟩

section
variable {cfg : Config} {env : ReadEnv} {peerClosed dl : Bool} {st st' : ConnState}

/-- A pass neither starts the slot's clock again nor marks the slot. -/
theorem takeRequest_keeps (h : takeRequest cfg peerClosed dl st = .wait st' ∨
    ∃ raw, takeRequest cfg peerClosed dl st = .cut raw st') :
    st'.start = st.start ∧ st'.dispatching = st.dispatching := by
  rcases h with h | ⟨raw, h⟩
  · obtain ⟨-, -, ⟨-, -, rfl⟩ | ⟨-, n, -, rfl⟩⟩ := takeRequest_wait h
    · exact ⟨rfl, rfl⟩
    · exact ⟨rfl, rfl⟩
  · obtain ⟨n, hcut, -⟩ := (takeRequest_cut_iff _ _ _ _ _ _).mp h
    obtain ⟨-, rfl⟩ := Taken.cut.inj hcut
    exact ⟨rfl, rfl⟩

/-- Behind the end of the stream no pass waits. -/
theorem takeRequest_peerClosed : takeRequest cfg true dl st ≠ .wait st' := by
  intro h
  cases (takeRequest_wait h).1

/-- A pass waits for more, or answers the timeout, only where the request is incomplete. -/
theorem takeRequest_incomplete (hst : st.Sound)
    (h : takeRequest cfg peerClosed dl st = .reject requestTimedOut ∨
      ∃ st', takeRequest cfg peerClosed dl st = .wait st') :
    (inspect st.buffer).framing = .incomplete := by
  have hawaits : ∃ st', st.Awaits st' := by
    rcases takeRequest_cases cfg peerClosed dl st with
      ⟨s, hawaits, -⟩ | ⟨n, heq⟩ | ⟨r, hr, heq⟩
    · exact ⟨s, hawaits⟩
    · rcases h with h | ⟨st', h⟩
      · cases heq.symm.trans h
      · cases heq.symm.trans h
    · rcases h with h | ⟨st', h⟩
      · exact absurd (Taken.reject.inj (heq.symm.trans h)) hr
      · cases heq.symm.trans h
  obtain ⟨s, ⟨hk, hlen, -⟩ | ⟨-, n, hi, -⟩⟩ := hawaits
  · have hknown := hst.known hk []
    rw [List.append_nil] at hknown
    rw [hknown]
    exact if_neg (by omega)
  · rw [hi]

/-- The pass that ends the loop with bytes in the buffer, what it hands over, and the end. -/
inductive LastPass (cfg : Config) (env : ReadEnv) (peerClosed dl : Bool) (n : ℕ) (st : ConnState) :
    List Bytes → ReadEnd → Prop
  | rejected {r : Rejection} (taken : takeRequest cfg peerClosed dl st = .reject r) :
    LastPass cfg env peerClosed dl n st [] (.rejected r)
  | waits {st' : ConnState} (taken : takeRequest cfg peerClosed dl st = .wait st') :
    LastPass cfg env peerClosed dl n st [] (.waits st')
  | closed {raw : Bytes} {st' : ConnState} (taken : takeRequest cfg peerClosed dl st = .cut raw st')
      (handler : env.handlers n = .returns false) :
    LastPass cfg env peerClosed dl n st [raw] .closed
  | escaped {raw : Bytes} {st' : ConnState}
      (taken : takeRequest cfg peerClosed dl st = .cut raw st')
      (handler : env.handlers n = .escapes) :
    LastPass cfg env peerClosed dl n st [raw] (.escaped st')

/-- The requests that were answered and kept, the slot behind them, and the end of the loop. -/
structure Rounds (cfg : Config) (env : ReadEnv) (peerClosed dl : Bool) (st : ConnState) (n : ℕ)
    (raws : List Bytes) (st' : ConnState) (served : List Bytes) (stop : ReadEnd) : Prop where
  whole : AllWhole raws
  bytes : raws.flatten ++ st'.buffer = st.buffer
  kept : ∀ i < raws.length, env.handlers (n + i) = .returns true
  sound : st'.Sound
  start : st'.start = st.start
  dispatching : st'.dispatching = st.dispatching
  stops :
    (raws ≠ [] ∧ st'.buffer = [] ∧ served = raws ∧
      stop = .waits { st' with start := env.finish, lastActivity := env.finish }) ∨
    ∃ last, st'.buffer ≠ [] ∧ served = raws ++ last ∧
      LastPass cfg env peerClosed dl (n + raws.length) st' last stop

/-- A loop that ends at once. -/
theorem rounds_last {n : ℕ} {last : List Bytes} {stop : ReadEnd} (hst : st.Sound)
    (hne : st.buffer ≠ []) (h : LastPass cfg env peerClosed dl n st last stop) :
    Rounds cfg env peerClosed dl st n [] st last stop :=
  ⟨by simp [AllWhole], rfl, by simp, hst, rfl, rfl, Or.inr ⟨last, hne, rfl, h⟩⟩

/-- A loop that serves one request more. -/
theorem Rounds.cons {n : ℕ} {raw : Bytes} {raws served : List Bytes} {st₁ : ConnState}
    {stop : ReadEnd} (hst : st.Sound) (htaken : takeRequest cfg peerClosed dl st = .cut raw st')
    (hkept : env.handlers n = .returns true)
    (h : Rounds cfg env peerClosed dl st' (n + 1) raws st₁ served stop) :
    Rounds cfg env peerClosed dl st n (raw :: raws) st₁ (raw :: served) stop := by
  obtain ⟨hwhole, hbytes, -⟩ := takeRequest_cut_sound _ _ _ hst htaken
  obtain ⟨hstart, hdispatching⟩ := takeRequest_keeps (Or.inr ⟨raw, htaken⟩)
  refine ⟨List.forall_mem_cons.mpr ⟨hwhole, h.whole⟩, ?_, ?_, h.sound, h.start.trans hstart,
    h.dispatching.trans hdispatching, ?_⟩
  · rw [List.flatten_cons, List.append_assoc, h.bytes, hbytes]
  · intro i hi
    cases i with
    | zero => exact hkept
    | succ i =>
      have := h.kept i (by simpa using hi)
      rwa [Nat.add_assoc, Nat.add_comm 1 i] at this
  · rcases h.stops with ⟨-, hempty, hserved, hstop⟩ | ⟨last, hne, hserved, hlast⟩
    · exact Or.inl ⟨by simp, hempty, by rw [hserved], hstop⟩
    · refine Or.inr ⟨last, hne, by rw [hserved, List.cons_append], ?_⟩
      rwa [Nat.add_assoc, Nat.add_comm 1] at hlast

/-- The request loop without a pool, on a buffer with bytes in it. -/
theorem serveLoop_rounds (cfg : Config) (env : ReadEnv) (peerClosed dl : Bool) {st : ConnState}
    (hst : st.Sound) (hne : st.buffer ≠ []) (handed : List Bytes) :
    ∃ raws st' served, (serveLoop cfg false env peerClosed dl st handed).1 = handed ++ served ∧
      Rounds cfg env peerClosed dl st handed.length raws st' served
        (serveLoop cfg false env peerClosed dl st handed).2 := by
  induction st, handed using serveLoop.induct cfg false env peerClosed dl with
  | case1 st handed r h =>
    rw [serveLoop_eq, h]
    exact ⟨[], st, [], by simp, rounds_last hst hne (.rejected h)⟩
  | case2 st handed st' h =>
    rw [serveLoop_eq, h]
    exact ⟨[], st, [], by simp, rounds_last hst hne (.waits h)⟩
  | case3 st handed raw st' h hpool => cases hpool
  | case4 st handed raw st' h hpool hh =>
    rw [serveLoop_eq, h]
    simp only [if_neg hpool, hh]
    exact ⟨[], st, [raw], rfl, rounds_last hst hne (.escaped h hh)⟩
  | case5 st handed raw st' h hpool hh =>
    rw [serveLoop_eq, h]
    simp only [if_neg hpool, hh]
    exact ⟨[], st, [raw], rfl, rounds_last hst hne (.closed h hh)⟩
  | case6 st handed raw st' h hpool hh hempty =>
    rw [serveLoop_eq, h]
    obtain ⟨hwhole, hbytes, hst'⟩ := takeRequest_cut_sound _ _ _ hst h
    obtain ⟨hstart, hdispatching⟩ := takeRequest_keeps (Or.inr ⟨raw, h⟩)
    simp only [if_neg hpool, hh, if_pos hempty]
    refine ⟨[raw], st', [raw], rfl, by simpa [AllWhole] using hwhole, by simpa using hbytes, ?_,
      hst', hstart, hdispatching, Or.inl ⟨by simp, hempty, rfl, rfl⟩⟩
    simpa using hh
  | case7 st handed raw st' h hpool hh hempty ih =>
    obtain ⟨-, -, hst'⟩ := takeRequest_cut_sound _ _ _ hst h
    obtain ⟨raws, st₁, served, hserved, hrounds⟩ := ih hst' hempty
    rw [List.length_append, List.length_singleton] at hrounds
    rw [serveLoop_eq, h]
    simp only [if_neg hpool, hh, if_neg hempty]
    exact ⟨raw :: raws, st₁, raw :: served, by rw [hserved]; simp, hrounds.cons hst h hh⟩

section
variable {n : ℕ} {raws served : List Bytes} {stop : ReadEnd}

/-- Bytes that a loop leaves in the buffer: the start of a request, or one whose handler an
exception leaves. -/
def Unserved (env : ReadEnv) (n : ℕ) (rest : Bytes) : Prop :=
  (inspect rest).framing = .incomplete ∨
    (inspect rest).framing = .complete ∧ env.handlers n = .escapes

/-- The exits: the buffer is drained, the connection ends but not for its deadline, or bytes are
left and the slot keeps its start time. -/
theorem Rounds.exits (h : Rounds cfg env peerClosed dl st n raws st' served stop) :
    (∃ s, stop = .waits s ∧ s.start = env.finish) ∨
      (stop.state? = none ∧ stop ≠ .rejected requestTimedOut) ∨
      st'.buffer ≠ [] ∧ Unserved env (n + raws.length) st'.buffer ∧
        (∀ s, stop.state? = some s → s.start = st.start) ∧
        (raws = [] → served = [] ∨ ∃ raw s, served = [raw] ∧ stop = .escaped s) := by
  rcases h.stops with ⟨-, -, -, rfl⟩ | ⟨last, hrest, rfl, hlast⟩
  · exact Or.inl ⟨_, rfl, rfl⟩
  · cases hlast with
    | @rejected r taken =>
      by_cases hr : r = requestTimedOut
      · subst hr
        have hinc := takeRequest_incomplete h.sound (Or.inl taken)
        exact Or.inr (Or.inr ⟨hrest, Or.inl hinc, by simp [ReadEnd.state?], by simp⟩)
      · exact Or.inr (Or.inl ⟨rfl, by simp [hr]⟩)
    | waits taken =>
      have hinc := takeRequest_incomplete h.sound (Or.inr ⟨_, taken⟩)
      have hkeeps := (takeRequest_keeps (Or.inl taken)).1.trans h.start
      exact Or.inr (Or.inr ⟨hrest, Or.inl hinc, by simpa [ReadEnd.state?] using hkeeps, by simp⟩)
    | closed taken handler => exact Or.inr (Or.inl ⟨rfl, by simp⟩)
    | @escaped raw s taken handler =>
      obtain ⟨m, hi, -⟩ := (takeRequest_eq_cut_iff _ _ _ h.sound).mp taken
      have hkeeps := (takeRequest_keeps (Or.inr ⟨raw, taken⟩)).1.trans h.start
      refine Or.inr (Or.inr ⟨hrest, Or.inr ⟨by rw [hi], handler⟩, ?_, ?_⟩)
      · simpa [ReadEnd.state?] using hkeeps
      · intro hraws
        exact Or.inr ⟨raw, s, by simp [hraws], rfl⟩

/-- A loop that stops with bytes in its buffer had more than requests that keep the connection. -/
theorem Rounds.stops_short (h : Rounds cfg env peerClosed dl st 0 raws st' served stop)
    (hst : st.Sound) {last : List Bytes} (hrest : st'.buffer ≠ [])
    (hlast : LastPass cfg env peerClosed dl (0 + raws.length) st' last stop) :
    ¬ ∃ raws, AllWhole raws ∧ raws.flatten = st.buffer ∧
      ∀ i < raws.length, env.handlers i = .returns true := by
  rintro ⟨raws', hwhole', hflat, hkept'⟩
  obtain ⟨more, rfl, hmore⟩ := h.whole.prefix_free hwhole' (h.bytes.trans hflat.symm)
    (hflat ▸ hst.fits)
  cases more with
  | nil => exact hrest hmore
  | cons raw more =>
    -- the last pass would have cut this request and kept the connection
    have hraw : inspect raw = ⟨.complete, raw.length⟩ := hwhole' raw (by simp)
    have hle : raw.length ≤ npos := by
      have := h.sound.fits
      rw [hmore, List.flatten_cons, List.length_append] at this
      omega
    have hi : inspect st'.buffer = ⟨.complete, raw.length⟩ := by
      rw [hmore, List.flatten_cons]
      exact (inspect_complete_stable hle hraw).2.1 _
    have hcut := (takeRequest_eq_cut_iff cfg peerClosed dl h.sound).mpr ⟨_, hi, rfl⟩
    have hreturns := hkept' raws.length (by simp)
    cases hlast with
    | rejected taken => cases taken.symm.trans hcut
    | waits taken => cases taken.symm.trans hcut
    | closed taken handler => simp [hreturns] at handler
    | escaped taken handler => simp [hreturns] at handler

end

end

end Vermell.Request
