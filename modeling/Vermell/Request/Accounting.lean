import Vermell.Request.Ledger
import Vermell.Request.Loop
import Vermell.Runs

/-! Connection accounting over whole runs of the loop: every step that meets its condition keeps the
books, so the counter, the closes and the shutdown come out right in every state of such a run. -/
namespace Vermell.Request
open Http Runs
namespace RequestIO

/-- The counter is the number of open client descriptors, within the cap; every close met an open
descriptor without a task; behind the shutdown nothing is open. -/
structure Accounted (io : RequestIO) : Prop where
  count : io.active.toNat = io.openFds.card
  cap : io.cfg.maxConnections ≠ 0 → io.active ≤ io.cfg.maxConnections
  once : ∀ c ∈ io.closes, c.wasOpen = true
  idle : ∀ c ∈ io.closes, c.busy = false
  down : io.phase = .down → io.openFds = ∅

/-- The bytes of the slot and of the socket hold a complete request and more behind it. -/
def LeavesTail (io : RequestIO) (fd : ℕ) (env : ReadEnv) : Prop :=
  ∃ b ∈ arrived io.cfg io.bufsz env (io.pendingSlot fd),
    (inspect b).framing = .complete ∧ (inspect b).expected < b.length

/-- No event for a descriptor with a task in flight; no hangup event with input that leaves bytes
behind a dispatched request; no exception through a worker whose connection has no slot. -/
def Orderly (io : RequestIO) : LoopStep → Prop
  | .wait events => ∀ e ∈ events, e.fd ∈ io.openFds → io.inFlight e.fd = 0
  | .event env => ∀ e ∈ io.ready.head?, io.pool = true → e.fd ∈ io.openFds →
      e.readable = true → e.hangup = true → (env.drains 0).read.accepted = true →
      ¬ io.LeavesTail e.fd (env.drains 0).read
  | .finish i .escapes => ∀ t ∈ io.running[i]?, io.slot t.fd ≠ none
  | _ => True

instance decidableOrderly (io : RequestIO) : ∀ l, Decidable (Orderly io l)
  | .wait events => inferInstanceAs (Decidable (∀ e ∈ events, _))
  | .event _ => inferInstanceAs (Decidable (∀ e ∈ io.ready.head?, _ → _ → _ → _ → _ →
      ¬ ∃ b ∈ _, _))
  | .sweep _ => inferInstanceAs (Decidable True)
  | .take => inferInstanceAs (Decidable True)
  | .finish i .escapes => inferInstanceAs (Decidable (∀ t ∈ io.running[i]?, _))
  | .finish _ (.returns _) => inferInstanceAs (Decidable True)
  | .stop => inferInstanceAs (Decidable True)
  | .shutdown => inferInstanceAs (Decidable True)

theorem Kept.accounted {io : RequestIO} (h : io.Kept []) : io.Accounted :=
  ⟨h.totals.count, h.totals.cap, fun c hc => (h.totals.closes c hc).1,
    fun c hc => (h.totals.closes c hc).2, h.totals.down⟩

section
variable {io : RequestIO}

/-- A shorter batch, and the end of one, keep the books. -/
theorem Kept.rest (h : io.Kept []) {events : List Event} {phase : Phase} {u : Bool}
    (hsub : events.Sublist io.ready) (hquiet : phase ≠ .dispatching → events = [])
    (hdown : phase ≠ .down) :
    Kept { io with ready := events, phase := phase, unwinding := u } [] := by
  refine ⟨⟨h.totals.count, h.totals.cap, h.totals.closes, ?_, hquiet, ?_⟩, fun fd => ?_⟩
  · exact h.totals.batch.sublist (hsub.map _)
  · exact fun hphase => absurd hphase hdown
  · exact (h.ledgers fd).congr rfl Iff.rfl rfl rfl ⟨rfl, rfl⟩ fun e he _ => hsub.subset he

theorem Kept.unwind (h : io.Kept []) : io.unwind.Kept [] := by
  unfold RequestIO.unwind
  split_ifs
  · exact h.rest (List.nil_sublist _) (fun _ => rfl) (by decide)
  · exact h

/-- A call that leaves a slot behind has dispatched nothing, unless bytes are left in the slot. -/
theorem handleReadable_quiet {fd : ℕ} {env : ReadEnv} (hst : (io.pendingSlot fd).Sound)
    (hslot : (io.handleReadable fd env).slot fd ≠ none)
    (htail : io.pool = true → env.accepted = true → ¬ io.LeavesTail fd env) :
    (io.handleReadable fd env).openFds = io.openFds ∧
      (io.handleReadable fd env).flights [] fd = io.flights [] fd ∧
      (io.handleReadable fd env).ready = io.ready := by
  cases hends : (io.readOutcome fd env).stop.ends env.accepted with
  | true =>
    obtain ⟨p, n, hist, heq, hp⟩ := io.handleReadable_ended fd env hends
    rw [heq] at hslot
    change p.get fd ≠ none at hslot
    rw [hp, if_pos rfl] at hslot
    exact absurd rfl hslot
  | false =>
    obtain ⟨p, armed, u, n, hist, heq, hp, -⟩ := io.handleReadable_kept fd env hends
    rw [heq] at hslot ⊢
    change p.get fd ≠ none at hslot
    rw [hp, if_pos rfl] at hslot
    cases hstop : (io.readOutcome fd env).stop with
    | waits st => exact ⟨rfl, by simp [flights, inFlight, ReadEnd.tasks], rfl⟩
    | rejected r =>
      rw [hstop] at hends
      cases hends
    | closed =>
      rw [hstop] at hends
      cases hends
    | dispatched raw st =>
      rw [hstop] at hslot hends
      have hbuffer : st.buffer ≠ [] := by
        intro hempty
        simp [ReadEnd.slot?, hempty] at hslot
      have hpool := io.dispatched_pool fd env hstop
      obtain ⟨harrived, hi⟩ := io.dispatched_cut fd env hst hstop
      refine absurd ⟨_, harrived, ?_⟩ (htail hpool (by simpa [ReadEnd.ends] using hends))
      rw [hi]
      refine ⟨rfl, ?_⟩
      have := List.length_pos_iff.mpr hbuffer
      change raw.length < (raw ++ st.buffer).length
      rw [List.length_append]
      omega
    | escaped st => exact ⟨rfl, by simp [flights, inFlight, ReadEnd.tasks], rfl⟩

/-- An event of a client keeps the books. -/
theorem Kept.dispatchClient (h : io.Kept []) {e : Event} {env : ReadEnv}
    (hheld : io.Held [] e.fd)
    (htail : io.pool = true → e.readable = true → e.hangup = true → env.accepted = true →
      ¬ io.LeavesTail e.fd env) : (io.dispatchClient e env).Kept [] := by
  unfold RequestIO.dispatchClient
  cases hreadable : e.readable with
  | true =>
    have hkept := hheld.handleReadable env
    cases hhangup : e.hangup with
    | true =>
      simp only [if_true]
      split_ifs with hunwinding hpending
      · exact hkept
      · obtain ⟨hopen, hflights, hready⟩ := io.handleReadable_quiet hheld.sound
          (Option.ne_none_iff_isSome.mpr hpending)
          fun hpool haccepted => htail hpool hreadable hhangup haccepted
        apply Held.reject
        apply hkept.hold
        · rw [hopen]
          exact hheld.isOpen
        · rw [hflights]
          exact hheld.idle
        · rw [hready]
          exact hheld.unreported
      · exact hkept
    | false => simpa using hkept
  | false =>
    simp only [Bool.false_eq_true, if_false]
    split_ifs
    · exact h
    · exact hheld.reject
    · exact h
    · exact h

/-- So does every event of a batch. -/
theorem Kept.dispatchEvent (h : io.Kept []) {e : Event} {rest : List Event} {env : EventEnv}
    (hready : io.ready = e :: rest) (hok : Orderly io (.event env)) {io' : RequestIO}
    (hs : RequestIO.dispatchEvent { io with ready := rest } e env = some io') : io'.Kept [] := by
  have hphase : io.phase = .dispatching := by
    by_contra hne
    rw [h.totals.quiet hne] at hready
    cases hready
  have hnext : Kept { io with ready := rest } [] := by
    refine h.rest ?_ (absurd hphase) (by simp [hphase])
    rw [hready]
    exact List.sublist_cons_self e rest
  unfold RequestIO.dispatchEvent at hs
  split_ifs at hs with hnotify hlistener
  · cases hs
    exact hnext.drainCompletions env.drains
  · apply hnext.acceptPending _ hs
    change io.phase ≠ .down
    simp [hphase]
  · cases hs
    obtain ⟨hopen, hidle⟩ := (h.ledgers e.fd).event ⟨e, by simp [hready], rfl⟩ hnotify hlistener
    have hbatch := h.totals.batch
    rw [hready, List.map_cons, List.nodup_cons] at hbatch
    have hheld : Held { io with ready := rest } [] e.fd := by
      refine hnext.hold hopen hidle ?_
      intro e' he' hfd
      exact hbatch.1 (hfd ▸ List.mem_map_of_mem he')
    apply hnext.dispatchClient hheld
    intro hpool hreadable hhangup haccepted
    exact hok e (by simp [hready]) hpool hopen hreadable hhangup haccepted

/-- A batch names idle connections only. -/
theorem Kept.wait (h : io.Kept []) {events : List Event}
    (hbatch : (events.map Event.fd).Nodup) (hreports : events.all io.reports = true)
    (hok : Orderly io (.wait events)) : (io.wait events).Kept [] := by
  refine ⟨⟨h.totals.count, h.totals.cap, h.totals.closes, hbatch, ?_, ?_⟩, fun fd => ?_⟩
  · exact absurd rfl
  · intro hdown
    cases hdown
  · have hledger := h.ledgers fd
    refine ⟨hledger.one, hledger.owned, hledger.filled, hledger.held, hledger.pooled, ?_,
      hledger.client⟩
    rintro ⟨e, he, rfl⟩ hnotify hlistener
    change e.fd ≠ io.notifyFd at hnotify
    change e.fd ≠ io.listenerFd at hlistener
    have hreported := List.all_eq_true.mp hreports e he
    simp only [reports, Bool.or_eq_true, beq_iff_eq, hnotify, hlistener, false_or,
      Bool.and_eq_true, decide_eq_true_eq] at hreported
    exact ⟨hreported.1, hok e he hreported.1⟩

/-- The sweep rejects connections without a task only. -/
theorem Kept.sweepSlot (h : io.Kept []) (hready : io.ready = []) (now : Ticks) (fd : ℕ) :
    (io.sweepSlot now fd).Kept [] ∧ (io.sweepSlot now fd).ready = [] := by
  unfold RequestIO.sweepSlot
  cases hslot : io.slot fd with
  | none => exact ⟨h, hready⟩
  | some st =>
    simp only
    split_ifs with hstale
    · obtain ⟨hopen, -, hmarked⟩ := (h.ledgers fd).filled st hslot
      have hone := (h.ledgers fd).one
      have hidle : io.flights [] fd = 0 := by
        have hne : io.flights [] fd ≠ 1 := by
          intro hflight
          simp [stale, hmarked hflight] at hstale
        omega
      refine ⟨(h.hold hopen hidle ?_).reject, hready⟩
      simp [hready]
    · exact ⟨h, hready⟩

theorem Kept.sweepStale (h : io.Kept []) (hready : io.ready = []) (now : Ticks) :
    (io.sweepStale now).Kept [] ∧ (io.sweepStale now).ready = [] :=
  List.foldlRecOn (motive := fun io => Kept io [] ∧ io.ready = []) _ _ ⟨h, hready⟩
    fun _ hio fd _ => hio.1.sweepSlot hio.2 now fd

/-- A task that starts to run stays in flight. -/
theorem Kept.take (h : io.Kept []) {io' : RequestIO} (hs : io.take = some io') : io'.Kept [] := by
  obtain ⟨t, rest, hqueue, rfl⟩ := take_eq_some hs
  apply h.moved
  intro fd
  simp only [flights, inFlight, hqueue, List.countP_append, List.countP_cons, List.countP_nil]
  omega

theorem countP_eraseIdx {tasks : List Task} {i : ℕ} {t : Task} (ht : tasks[i]? = some t)
    (fd : ℕ) : tasks.countP (·.fd == fd) =
      (tasks.eraseIdx i).countP (·.fd == fd) + if t.fd = fd then 1 else 0 := by
  obtain ⟨hi, hget⟩ := List.getElem?_eq_some_iff.mp ht
  rw [← (List.getElem_cons_eraseIdx_perm hi).countP_eq, List.countP_cons, hget]
  simp only [beq_iff_eq]

/-- A task that is gone without a completion leaves the slot of its connection. -/
theorem Kept.lost (h : io.Kept []) {i : ℕ} {t : Task} (ht : io.running[i]? = some t)
    (hslot : io.slot t.fd ≠ none) : Kept { io with running := io.running.eraseIdx i } [] := by
  refine ⟨⟨h.totals.count, h.totals.cap, h.totals.closes, h.totals.batch, h.totals.quiet,
    h.totals.down⟩, fun fd => ?_⟩
  have hflights : io.flights [] fd =
      flights { io with running := io.running.eraseIdx i } [] fd + if t.fd = fd then 1 else 0 := by
    simp only [flights, inFlight, countP_eraseIdx ht]
    omega
  have hledger := h.ledgers fd
  by_cases hfd : t.fd = fd
  · subst hfd
    rw [if_pos rfl] at hflights
    have hone := hledger.one
    obtain ⟨st, hst⟩ := Option.ne_none_iff_exists'.mp hslot
    obtain ⟨hopen, hsound, -⟩ := hledger.filled st hst
    have hclient := hledger.client hopen
    refine Ledger.of_slot hopen (by omega) hst hsound ?_ hclient
    intro e he hfd
    have := (hledger.event ⟨e, he, hfd⟩ hclient.2.2 hclient.2.1).2
    omega
  · refine hledger.congr rfl Iff.rfl ?_ rfl ⟨rfl, rfl⟩ fun e he _ => he
    rw [hflights, if_neg hfd, Nat.add_zero]

/-- A task that ends becomes a completion, unless an exception takes it. -/
theorem Kept.serveRequest (h : io.Kept []) {i : ℕ} {handler : Handler} {io' : RequestIO}
    (hok : Orderly io (.finish i handler)) (hs : io.serveRequest i handler = some io') :
    io'.Kept [] := by
  obtain ⟨t, ht, rfl⟩ := Option.map_eq_some_iff.mp hs
  cases handler with
  | returns keepAlive =>
    apply h.moved
    intro fd
    simp only [flights, inFlight, countP_eraseIdx ht, List.countP_append, List.countP_cons,
      List.countP_nil, beq_iff_eq]
    omega
  | escapes => exact h.lost ht (hok t ht)

/-- The completions behind the last worker are closed, and nothing is in flight any more. -/
theorem Kept.retireEach {done : List Completion} (h : io.Kept done) (hqueue : io.queue = [])
    (hrunning : io.running = []) (hcompleted : io.completed = []) (hready : io.ready = []) :
    (done.foldl (fun io c => io.retire c.fd) io).Kept [] ∧
      (∀ fd, (done.foldl (fun io c => io.retire c.fd) io).flights [] fd = 0) ∧
      (done.foldl (fun io c => io.retire c.fd) io).ready = [] := by
  induction done generalizing io with
  | nil =>
    refine ⟨h, fun fd => ?_, hready⟩
    simp [flights, inFlight, hqueue, hrunning, hcompleted]
  | cons c rest ih => exact ih h.holdCompletion.retire hqueue hrunning hcompleted hready

/-- With nothing in flight the open descriptors are those with a slot. -/
theorem Kept.hasPending_iff (h : io.Kept []) {fd : ℕ} (hidle : io.flights [] fd = 0) :
    io.hasPending fd = true ↔ fd ∈ io.openFds := by
  unfold hasPending
  rw [Option.isSome_iff_exists]
  constructor
  · rintro ⟨st, hst⟩
    exact ((h.ledgers fd).filled st hst).1
  · intro hopen
    rcases (h.ledgers fd).held hopen with hslot | hflight
    · exact Option.ne_none_iff_exists'.mp hslot
    · omega

theorem erase_filter_le (s : Finset ℕ) (k : ℕ) :
    (s.filter (k ≤ ·)).erase k = s.filter (k + 1 ≤ ·) := by
  ext fd
  simp only [Finset.mem_erase, Finset.mem_filter]
  constructor
  · rintro ⟨hne, hfd, hk⟩
    exact ⟨hfd, by omega⟩
  · rintro ⟨hfd, hk⟩
    exact ⟨by omega, hfd, by omega⟩

/-- The loop over the slots closes every open descriptor that it has passed. -/
theorem Kept.closeSlots (h : io.Kept []) (hidle : ∀ fd, io.flights [] fd = 0) (k : ℕ) :
    ∃ active armed closes, (List.range k).foldl closeSlot io =
        { io with
          active := active, armed := armed, closes := closes,
          openFds := io.openFds.filter (k ≤ ·) } ∧
      active.toNat = (io.openFds.filter (k ≤ ·)).card ∧ active ≤ io.active ∧
      ∀ c ∈ closes, c.wasOpen = true ∧ c.busy = false := by
  induction k with
  | zero =>
    refine ⟨io.active, io.armed, io.closes, ?_, ?_, UInt64.le_refl _, h.totals.closes⟩
    · simp
    · simpa using h.totals.count
  | succ k ih =>
    obtain ⟨active, armed, closes, heq, hcount, hle, hcloses⟩ := ih
    rw [List.range_succ, List.foldl_append, heq, List.foldl_cons, List.foldl_nil]
    unfold closeSlot
    have hpending := h.hasPending_iff (hidle k)
    split_ifs with hslot
    · have hopen := hpending.mp hslot
      have hmem : k ∈ io.openFds.filter (k ≤ ·) := by simp [hopen]
      have herase := erase_filter_le io.openFds k
      have hpos : 1 ≤ active.toNat := by
        rw [hcount]
        exact Finset.card_pos.mpr ⟨k, hmem⟩
      have hactive : (active - 1).toNat = active.toNat - 1 :=
        UInt64.toNat_sub_of_le _ _ (UInt64.le_iff_toNat_le.mpr hpos)
      refine ⟨active - 1, armed.erase k, closes ++ [⟨k, true, false⟩], ?_, ?_, ?_, ?_⟩
      · have hbusy := busy_of_idle (hidle k)
        unfold busy at hbusy
        simp only [closeFd, busy, hmem, decide_true, herase, hbusy]
      · rw [hactive, hcount, ← herase, Finset.card_erase_of_mem hmem]
      · rw [UInt64.le_iff_toNat_le] at hle ⊢
        omega
      · intro c hc
        cases List.mem_append.mp hc with
        | inl hc =>
          exact hcloses c hc
        | inr hc =>
          obtain rfl := List.mem_singleton.mp hc
          exact ⟨rfl, rfl⟩
    · have hopen := mt hpending.mpr hslot
      have hfilter : io.openFds.filter (k ≤ ·) = io.openFds.filter (k + 1 ≤ ·) := by
        rw [← erase_filter_le, Finset.erase_eq_of_notMem]
        simp [hopen]
      rw [hfilter]
      exact ⟨active, armed, closes, rfl, hfilter ▸ hcount, hle, hcloses⟩

/-- With nothing in flight, the loop over the slots leaves nothing open. -/
theorem Kept.closeAll (h : io.Kept []) (hidle : ∀ fd, io.flights [] fd = 0)
    (hready : io.ready = []) :
    Kept { (List.range io.pending.length).foldl closeSlot io with
      pending := [], phase := .down } [] := by
  obtain ⟨active, armed, closes, heq, hcount, hle, hcloses⟩ :=
    h.closeSlots hidle io.pending.length
  have hclosed : io.openFds.filter (io.pending.length ≤ ·) = ∅ := by
    rw [Finset.filter_eq_empty_iff]
    intro fd hopen hfd
    have hpending := (h.hasPending_iff (hidle fd)).mpr hopen
    rw [hasPending, slot, Slots.get_eq_none_of_le hfd] at hpending
    cases hpending
  rw [hclosed] at heq hcount
  rw [heq]
  refine ⟨⟨hcount, ?_, hcloses, h.totals.batch, fun _ => hready, fun _ => rfl⟩, fun fd => ?_⟩
  · exact fun hmax => UInt64.le_trans hle (h.totals.cap hmax)
  · refine Ledger.of_closed (Finset.notMem_empty fd) rfl (hidle fd) ?_
    change ∀ e ∈ io.ready, e.fd ≠ fd
    simp [hready]

/-- `shutdown` closes whatever is open. -/
theorem Kept.shutdown (h : io.Kept []) (hqueue : io.queue = []) (hrunning : io.running = [])
    (hready : io.ready = []) : Kept { io.shutdown with phase := .down } [] := by
  obtain ⟨hkept, hidle, hready'⟩ := h.swap.retireEach hqueue hrunning rfl hready
  exact hkept.closeAll hidle hready'

/-- A step that meets the condition keeps the books. -/
theorem Kept.preserved (h : io.Kept []) {l : LoopStep} {io' : RequestIO} (hok : Orderly io l)
    (hs : io.step l = some io') : io'.Kept [] := by
  cases stepped hs with
  | wait polling nodup reported => exact h.wait nodup reported hok
  | event ready dispatched => exact (h.dispatchEvent ready hok dispatched).unwind
  | sweep ready =>
    obtain ⟨hswept, hready⟩ := h.sweepStale ready _
    exact hswept.rest (List.Sublist.refl _) (fun _ => hready) (by decide)
  | take taken => exact h.take taken
  | finish served => exact h.serveRequest hok served
  | stop polling =>
    exact h.rest (List.Sublist.refl _) (fun _ => h.totals.quiet (by simp [polling])) (by decide)
  | shutdown stopping queue running =>
    exact h.shutdown queue running (h.totals.quiet (by simp [stopping]))

end

theorem kept_start (cfg : Config) (pool : Bool) (listenerFd notifyFd : ℕ) :
    (start cfg pool listenerFd notifyFd).Kept [] := by
  refine ⟨⟨rfl, fun _ => UInt64.zero_le, ?_, List.nodup_nil, fun _ => rfl, fun _ => rfl⟩,
    fun fd => ?_⟩
  · simp [start]
  · exact Ledger.of_closed (Finset.notMem_empty fd) rfl rfl (by simp [start])

/-- Along every run whose steps meet the condition, the counter is the number of open connections,
no connection is closed twice or under a task, and the shutdown leaves none open. -/
theorem accounting_kept (cfg : Config) (pool : Bool) (listenerFd notifyFd : ℕ)
    (ls : List LoopStep)
    (h : Guarded step Orderly (start cfg pool listenerFd notifyFd) ls) :
    Along step Accounted (start cfg pool listenerFd notifyFd) ls := by
  apply Along.mono fun _ => Kept.accounted
  exact along_of_guarded (fun _ _ _ hkept hok hs => Kept.preserved hkept hok hs)
    (kept_start cfg pool listenerFd notifyFd) h

/-- One connection: accepted, served by a worker, closed by the drain, and the way down. -/
def servedRun : List LoopStep :=
  let env : ReadEnv := { recvs := [.data (bytes "GET / HTTP/1.0\r\n\r\n") 1] }
  [.wait [⟨3, true, false⟩], .event ⟨[⟨5, true, 0⟩], fun _ => ⟨0, {}⟩⟩, .sweep 1,
    .wait [⟨5, true, false⟩], .event ⟨[], fun _ => ⟨1, env⟩⟩, .sweep 1, .take,
    .finish 0 (.returns false), .wait [⟨4, true, false⟩], .event ⟨[], fun _ => ⟨2, {}⟩⟩, .sweep 2,
    .stop, .shutdown]

theorem accounting_kept_served : Along step Accounted (start {} true 3 4) servedRun :=
  accounting_kept {} true 3 4 servedRun (by decide +kernel)

/-- Two requests in one event with a hangup: the first is queued, the second keeps the slot, so the
connection is closed under its task, and once more when the task is done. -/
def hangupRun : List LoopStep :=
  let r := bytes "GET / HTTP/1.0\r\n\r\n"
  [.wait [⟨3, true, false⟩], .event ⟨[⟨5, true, 0⟩], fun _ => ⟨0, {}⟩⟩, .sweep 1,
    .wait [⟨5, true, true⟩], .event ⟨[], fun _ => ⟨1, { recvs := [.data (r ++ r) 1] }⟩⟩, .sweep 1,
    .take, .finish 0 (.returns false), .wait [⟨4, true, false⟩], .event ⟨[], fun _ => ⟨2, {}⟩⟩]

/-- The counter wraps below zero. -/
theorem accounting_wraps : ¬ ∀ (cfg : Config) (pool : Bool) (listenerFd notifyFd : ℕ)
    (ls : List LoopStep), Along step Accounted (start cfg pool listenerFd notifyFd) ls := by
  intro hall
  have hrun : (exec step (start {} true 3 4) hangupRun).map
      (fun io => (io.active.toNat, io.openFds.card)) = some (2^64 - 1, 0) := by decide +kernel
  obtain ⟨io, hio, hcounts⟩ := Option.map_eq_some_iff.mp hrun
  have hcount := ((hall {} true 3 4 hangupRun).exec hio).count
  rw [(Prod.mk.inj hcounts).1, (Prod.mk.inj hcounts).2] at hcount
  omega

end RequestIO
end Vermell.Request
