import Vermell.Request.Effects

/-! The books that `RequestIO` keeps of its connections. Each descriptor has a ledger of its own: an
open one has a slot or exactly one task in flight, and while it has a task no sweep may close it.
An operation on a descriptor takes it in hand, and leaves the ledgers of the others alone. -/
namespace Vermell.Request
open Http
namespace RequestIO

/-- The tasks of a descriptor that are queued or running, or whose completion waits. -/
def inFlight (io : RequestIO) (fd : ℕ) : ℕ :=
  io.queue.countP (·.fd == fd) + io.running.countP (·.fd == fd) +
    io.completed.countP (·.fd == fd)

/-- What is in flight, with the completions that a drain has taken and not yet processed. -/
def flights (io : RequestIO) (done : List Completion) (fd : ℕ) : ℕ :=
  io.inFlight fd + done.countP (·.fd == fd)

/-- The ledger of one descriptor. -/
structure Ledger (io : RequestIO) (done : List Completion) (fd : ℕ) : Prop where
  one : io.flights done fd ≤ 1
  owned : io.flights done fd = 1 → fd ∈ io.openFds
  filled : ∀ st, io.slot fd = some st →
    fd ∈ io.openFds ∧ st.Sound ∧ (io.flights done fd = 1 → st.dispatching = true)
  held : fd ∈ io.openFds → io.slot fd ≠ none ∨ io.flights done fd = 1
  pooled : io.pool = false → io.flights done fd = 0
  event : (∃ e ∈ io.ready, e.fd = fd) → fd ≠ io.notifyFd → fd ≠ io.listenerFd →
    fd ∈ io.openFds ∧ io.flights done fd = 0
  client : fd ∈ io.openFds → fd < 2^31 ∧ fd ≠ io.listenerFd ∧ fd ≠ io.notifyFd

/-- The totals over all descriptors. -/
structure Totals (io : RequestIO) : Prop where
  count : io.active.toNat = io.openFds.card
  cap : io.cfg.maxConnections ≠ 0 → io.active ≤ io.cfg.maxConnections
  closes : ∀ c ∈ io.closes, c.wasOpen = true ∧ c.busy = false
  batch : (io.ready.map Event.fd).Nodup
  quiet : io.phase ≠ .dispatching → io.ready = []
  down : io.phase = .down → io.openFds = ∅

/-- Totals and ledgers, with the completions a drain still has to process. -/
structure Kept (io : RequestIO) (done : List Completion) : Prop where
  totals : io.Totals
  ledgers : ∀ fd, io.Ledger done fd

/-- The counter has room for every descriptor. -/
theorem card_le {io : RequestIO} (hclient : ∀ fd ∈ io.openFds, fd < 2^31) :
    io.openFds.card ≤ 2^31 := by
  have hsub : io.openFds ⊆ Finset.range (2^31) := by
    intro fd hfd
    exact Finset.mem_range.mpr (hclient fd hfd)
  have := Finset.card_le_card hsub
  rwa [Finset.card_range] at this

/-- A descriptor that nothing touches keeps its ledger. -/
theorem Ledger.congr {io io' : RequestIO} {done done' : List Completion} {fd : ℕ}
    (h : io.Ledger done fd) (hslot : io'.slot fd = io.slot fd)
    (hopen : fd ∈ io'.openFds ↔ fd ∈ io.openFds)
    (hflights : io'.flights done' fd = io.flights done fd) (hpool : io'.pool = io.pool)
    (hfds : io'.notifyFd = io.notifyFd ∧ io'.listenerFd = io.listenerFd)
    (hready : ∀ e ∈ io'.ready, e.fd = fd → e ∈ io.ready) : io'.Ledger done' fd := by
  obtain ⟨hnotify, hlistener⟩ := hfds
  refine ⟨?_, ?_, ?_, ?_, ?_, ?_, ?_⟩
  · rw [hflights]
    exact h.one
  · rw [hflights, hopen]
    exact h.owned
  · rw [hslot, hopen, hflights]
    exact h.filled
  · rw [hslot, hopen, hflights]
    exact h.held
  · rw [hpool, hflights]
    exact h.pooled
  · rw [hnotify, hlistener, hopen, hflights]
    rintro ⟨e, he, hfd⟩
    exact h.event ⟨e, hready e he hfd, hfd⟩
  · rw [hnotify, hlistener, hopen]
    exact h.client

/-- The ledger of a descriptor that is not open. -/
theorem Ledger.of_closed {io : RequestIO} {done : List Completion} {fd : ℕ}
    (hopen : fd ∉ io.openFds) (hslot : io.slot fd = none) (hidle : io.flights done fd = 0)
    (hready : ∀ e ∈ io.ready, e.fd ≠ fd) : io.Ledger done fd := by
  refine ⟨by omega, by omega, ?_, fun h => absurd h hopen, fun _ => hidle, ?_,
    fun h => absurd h hopen⟩
  · intro st hst
    rw [hslot] at hst
    cases hst
  · rintro ⟨e, he, hfd⟩
    exact absurd hfd (hready e he)

/-- The ledger of a descriptor that waits with its slot. -/
theorem Ledger.of_slot {io : RequestIO} {done : List Completion} {fd : ℕ} {st : ConnState}
    (hopen : fd ∈ io.openFds) (hidle : io.flights done fd = 0) (hslot : io.slot fd = some st)
    (hst : st.Sound) (hready : ∀ e ∈ io.ready, e.fd ≠ fd)
    (hclient : fd < 2^31 ∧ fd ≠ io.listenerFd ∧ fd ≠ io.notifyFd) : io.Ledger done fd := by
  refine ⟨by omega, fun _ => hopen, ?_, ?_, fun _ => hidle, ?_, fun _ => hclient⟩
  · intro st' hst'
    obtain rfl : st = st' := Option.some.inj (hslot.symm.trans hst')
    exact ⟨hopen, hst, by omega⟩
  · intro _
    rw [hslot]
    exact Or.inl (Option.some_ne_none st)
  · rintro ⟨e, he, hfd⟩
    exact absurd hfd (hready e he)

/-- The ledger of a descriptor whose task is in flight. -/
theorem Ledger.of_task {io : RequestIO} {done : List Completion} {fd : ℕ}
    (hopen : fd ∈ io.openFds) (hone : io.flights done fd = 1) (hpool : io.pool = true)
    (hslot : ∀ st, io.slot fd = some st → st.Sound ∧ st.dispatching = true)
    (hready : ∀ e ∈ io.ready, e.fd ≠ fd)
    (hclient : fd < 2^31 ∧ fd ≠ io.listenerFd ∧ fd ≠ io.notifyFd) : io.Ledger done fd := by
  refine ⟨hone.le, fun _ => hopen, ?_, fun _ => Or.inr hone, ?_, ?_, fun _ => hclient⟩
  · intro st hst
    exact ⟨hopen, (hslot st hst).1, fun _ => (hslot st hst).2⟩
  · intro hinline
    rw [hpool] at hinline
    cases hinline
  · rintro ⟨e, he, hfd⟩
    exact absurd hfd (hready e he)

/-- The loop has taken `fd` in hand: it is open, nothing of it is in flight or reported, and the
rest is kept. -/
structure Held (io : RequestIO) (done : List Completion) (fd : ℕ) : Prop where
  totals : io.Totals
  others : ∀ g ≠ fd, io.Ledger done g
  isOpen : fd ∈ io.openFds
  idle : io.flights done fd = 0
  unreported : ∀ e ∈ io.ready, e.fd ≠ fd
  client : fd < 2^31 ∧ fd ≠ io.listenerFd ∧ fd ≠ io.notifyFd
  sound : (io.pendingSlot fd).Sound

theorem Held.active_pos {io : RequestIO} {done : List Completion} {fd : ℕ} (h : io.Held done fd) :
    1 ≤ io.active.toNat := by
  rw [h.totals.count]
  exact Finset.card_pos.mpr ⟨fd, h.isOpen⟩

theorem busy_of_idle {io : RequestIO} {done : List Completion} {fd : ℕ}
    (hidle : io.flights done fd = 0) : io.busy fd = false := by
  unfold flights inFlight at hidle
  have hqueue := List.countP_eq_zero.mp (show io.queue.countP (·.fd == fd) = 0 by omega)
  have hrunning := List.countP_eq_zero.mp (show io.running.countP (·.fd == fd) = 0 by omega)
  unfold busy
  rw [List.any_append, Bool.or_eq_false_iff, List.any_eq_false, List.any_eq_false]
  exact ⟨hqueue, hrunning⟩

section
variable {io : RequestIO} {done : List Completion} {fd : ℕ} {p : Slots} {sc : ℕ} {n : UInt64}
  {armed : Finset ℕ} {u : Bool} {hist : ℕ → History}

/-- Retiring the descriptor in hand keeps the books. -/
theorem Held.retired (h : io.Held done fd)
    (hp : ∀ g, p.get g = if g = fd then none else io.pending.get g) :
    Kept { io with
      pending := p, scratch := sc, handled := n, active := io.active - 1,
      openFds := io.openFds.erase fd, armed := armed,
      closes := io.closes ++ [⟨fd, fd ∈ io.openFds, io.busy fd⟩], history := hist } done := by
  have hactive : (io.active - 1).toNat = io.active.toNat - 1 :=
    UInt64.toNat_sub_of_le _ _ (UInt64.le_iff_toNat_le.mpr h.active_pos)
  refine ⟨⟨?_, ?_, ?_, h.totals.batch, h.totals.quiet, ?_⟩, fun g => ?_⟩
  · rw [hactive, h.totals.count, Finset.card_erase_of_mem h.isOpen]
  · intro hcap
    have hle := UInt64.le_iff_toNat_le.mp (h.totals.cap hcap)
    rw [UInt64.le_iff_toNat_le, hactive]
    change _ ≤ io.cfg.maxConnections.toNat
    omega
  · intro c hc
    cases List.mem_append.mp hc with
    | inl hc =>
      exact h.totals.closes c hc
    | inr hc =>
      obtain rfl := List.mem_singleton.mp hc
      exact ⟨decide_eq_true h.isOpen, busy_of_idle h.idle⟩
  · intro hdown
    exact absurd (h.totals.down hdown ▸ h.isOpen) (Finset.notMem_empty fd)
  · by_cases hg : g = fd
    · subst hg
      refine Ledger.of_closed (Finset.notMem_erase _ _) ?_ h.idle h.unreported
      change p.get g = none
      rw [hp, if_pos rfl]
    · have hslot : p.get g = io.pending.get g := by rw [hp, if_neg hg]
      refine (h.others g hg).congr hslot ?_ rfl rfl ⟨rfl, rfl⟩ fun e he _ => he
      simp [hg]

/-- So does giving it a slot or a task; a slot beside a task is marked as dispatching. -/
theorem Held.refilled (h : io.Held done fd) {slot' : Option ConnState} {tasks : List Task}
    (hp : ∀ g, p.get g = if g = fd then slot' else io.pending.get g)
    (hsound : ∀ st, slot' = some st → st.Sound)
    (htasks : tasks = [] ∧ slot' ≠ none ∨ (∃ raw, tasks = [⟨fd, raw⟩]) ∧ io.pool = true ∧
      ∀ st, slot' = some st → st.dispatching = true) :
    Kept { io with
      pending := p, scratch := sc, handled := n, armed := armed, queue := io.queue ++ tasks,
      unwinding := u, history := hist } done := by
  refine ⟨⟨h.totals.count, h.totals.cap, h.totals.closes, h.totals.batch, h.totals.quiet,
    h.totals.down⟩, fun g => ?_⟩
  have hflights : flights { io with
      pending := p, scratch := sc, handled := n, armed := armed, queue := io.queue ++ tasks,
      unwinding := u, history := hist } done g =
        io.flights done g + tasks.countP (·.fd == g) := by
    simp only [flights, inFlight, List.countP_append]
    omega
  by_cases hg : g = fd
  · subst hg
    have hslot : p.get g = slot' := by rw [hp, if_pos rfl]
    rw [h.idle, Nat.zero_add] at hflights
    rcases htasks with ⟨rfl, hfilled⟩ | ⟨⟨raw, rfl⟩, hpool, hmarked⟩
    · obtain ⟨st, rfl⟩ := Option.ne_none_iff_exists'.mp hfilled
      exact Ledger.of_slot h.isOpen hflights hslot (hsound st rfl) h.unreported h.client
    · refine Ledger.of_task h.isOpen (by simpa using hflights) hpool ?_ h.unreported h.client
      intro st hst
      change p.get g = some st at hst
      rw [hslot] at hst
      exact ⟨hsound st hst, hmarked st hst⟩
  · have hslot : p.get g = io.pending.get g := by rw [hp, if_neg hg]
    refine (h.others g hg).congr hslot Iff.rfl ?_ rfl ⟨rfl, rfl⟩ fun e he _ => he
    rw [hflights, Nat.add_eq_left, List.countP_eq_zero]
    intro t ht
    rcases htasks with ⟨rfl, -⟩ | ⟨⟨raw, rfl⟩, -⟩
    · cases ht
    · obtain rfl := List.mem_singleton.mp ht
      simpa using Ne.symm hg

end

section
variable {io : RequestIO} {done : List Completion} {fd : ℕ}

/-- A call of `HandleReadable` on the descriptor in hand keeps the books. -/
theorem Held.handleReadable (h : io.Held done fd) (env : ReadEnv) :
    (io.handleReadable fd env).Kept done := by
  cases hends : (io.readOutcome fd env).stop.ends env.accepted with
  | true =>
    obtain ⟨p, n, hist, heq, hp⟩ := io.handleReadable_ended fd env hends
    rw [heq]
    exact h.retired hp
  | false =>
    obtain ⟨p, armed, u, n, hist, heq, hp, -⟩ := io.handleReadable_kept fd env hends
    have hread := (readable_sound io.cfg io.bufsz env io.pool h.sound).2
    rw [heq]
    apply h.refilled hp
    · intro st hst
      obtain ⟨st', hst'⟩ := ReadEnd.state?_of_kept hends
      have hsound := (ReadEnd.slot?_buffer hst').2 (hread st' hst').2
      rwa [hst] at hsound
    · cases hstop : (io.readOutcome fd env).stop with
      | waits st => exact Or.inl ⟨rfl, by simp [ReadEnd.slot?]⟩
      | rejected r =>
        rw [hstop] at hends
        cases hends
      | closed =>
        rw [hstop] at hends
        cases hends
      | dispatched raw st =>
        refine Or.inr ⟨⟨raw, rfl⟩, io.dispatched_pool fd env hstop, ?_⟩
        intro st' hst'
        simp only [ReadEnd.slot?] at hst'
        split_ifs at hst'
        cases hst'
        rfl
      | escaped st => exact Or.inl ⟨rfl, by simp [ReadEnd.slot?]⟩

theorem Kept.pendingSlot_sound (h : io.Kept done) (fd : ℕ) : (io.pendingSlot fd).Sound := by
  unfold pendingSlot
  cases hslot : io.slot fd with
  | none => exact ConnState.sound_default
  | some st => exact ((h.ledgers fd).filled st hslot).2.1

/-- An open descriptor with nothing in flight or reported can be taken in hand. -/
theorem Kept.hold (h : io.Kept done) (hopen : fd ∈ io.openFds) (hidle : io.flights done fd = 0)
    (hunreported : ∀ e ∈ io.ready, e.fd ≠ fd) : io.Held done fd :=
  ⟨h.totals, fun g _ => h.ledgers g, hopen, hidle, hunreported, (h.ledgers fd).client hopen,
    h.pendingSlot_sound fd⟩

/-- A completion that a drain has in front of it takes its descriptor in hand. -/
theorem Kept.holdCompletion {c : Completion} (h : io.Kept (c :: done)) : io.Held done c.fd := by
  have hledger := h.ledgers c.fd
  have hcount (g : ℕ) :
      io.flights (c :: done) g = io.flights done g + if c.fd = g then 1 else 0 := by
    simp only [flights, List.countP_cons, beq_iff_eq]
    omega
  have hone := hledger.one
  rw [hcount, if_pos rfl] at hone
  have hflight : io.flights (c :: done) c.fd = 1 := by
    rw [hcount, if_pos rfl]
    omega
  have hopen := hledger.owned hflight
  have hclient := hledger.client hopen
  refine ⟨h.totals, ?_, hopen, by omega, ?_, hclient, h.pendingSlot_sound c.fd⟩
  · intro g hg
    refine (h.ledgers g).congr rfl Iff.rfl ?_ rfl ⟨rfl, rfl⟩ fun e he _ => he
    rw [hcount, if_neg (Ne.symm hg), Nat.add_zero]
  · intro e he hfd
    have hidle := (hledger.event ⟨e, he, hfd⟩ hclient.2.2 hclient.2.1).2
    omega

theorem Held.rearmed_kept (h : io.Held done fd) (now : Ticks) : (io.rearmed fd now).Kept done := by
  obtain ⟨p, armed, heq, hp, -⟩ := io.rearmed_eq fd now
  have heq' : io.rearmed fd now = { io with
      pending := p, scratch := io.scratch, handled := io.handled, armed := armed,
      queue := io.queue ++ [], unwinding := io.unwinding, history := io.history } := by
    rw [heq, List.append_nil]
  rw [heq']
  apply h.refilled hp
  · rintro _ ⟨rfl⟩
    exact ⟨h.sound.fits, by simp⟩
  · exact Or.inl ⟨rfl, by simp⟩

theorem Held.rearmed (h : io.Held done fd) (now : Ticks) : (io.rearmed fd now).Held done fd := by
  have hkept := h.rearmed_kept now
  obtain ⟨p, armed, heq, -⟩ := io.rearmed_eq fd now
  rw [heq] at hkept ⊢
  exact hkept.hold h.isOpen h.idle h.unreported

theorem Held.rearmConnection (h : io.Held done fd) (now : Ticks) (env : ReadEnv) :
    (io.rearmConnection fd now env).Kept done := by
  unfold RequestIO.rearmConnection
  simp only
  split_ifs
  · exact (h.rearmed now).handleReadable env
  · exact h.rearmed_kept now

theorem Held.retire (h : io.Held done fd) : (io.retire fd).Kept done := by
  obtain ⟨p, heq, hp⟩ := io.retire_eq fd
  rw [heq]
  exact h.retired hp

theorem Held.reject (h : io.Held done fd) : (io.reject fd).Kept done := by
  obtain ⟨p, heq, hp⟩ := io.retire_eq fd
  unfold RequestIO.reject
  rw [heq]
  exact h.retired hp

theorem Kept.drainEach (h : io.Kept done) (envs : ℕ → DrainEnv) :
    (drainEach envs done io).Kept [] := by
  induction done generalizing io envs with
  | nil => exact h
  | cons c rest ih =>
    apply ih
    unfold drainOne
    split_ifs
    · exact h.holdCompletion.rearmConnection _ _
    · exact h.holdCompletion.retire

/-- Tasks and completions may move from one place to another. -/
theorem Kept.moved (h : io.Kept done) {queue running : List Task}
    {completed done' : List Completion} {n : UInt64} {hist : ℕ → History}
    (hflights : ∀ fd, flights { io with queue, running, completed } done' fd =
      io.flights done fd) :
    Kept { io with queue, running, completed, handled := n, history := hist } done' := by
  refine ⟨⟨h.totals.count, h.totals.cap, h.totals.closes, h.totals.batch, h.totals.quiet,
    h.totals.down⟩, fun fd => ?_⟩
  exact (h.ledgers fd).congr rfl Iff.rfl (hflights fd) rfl ⟨rfl, rfl⟩ fun e he _ => he

/-- A drain takes every completion over from the vector. -/
theorem Kept.swap (h : io.Kept []) : Kept { io with completed := [] } io.completed := by
  apply h.moved
  intro fd
  simp [flights, inFlight]

theorem Kept.drainCompletions (h : io.Kept []) (envs : ℕ → DrainEnv) :
    (io.drainCompletions envs).Kept [] :=
  h.swap.drainEach envs

/-- A closed descriptor has no slot and nothing in flight. -/
theorem Ledger.closed (h : io.Ledger done fd) (hopen : fd ∉ io.openFds) :
    io.flights done fd = 0 ∧ io.slot fd = none := by
  constructor
  · have hone := h.one
    have howned := mt h.owned hopen
    omega
  · cases hslot : io.slot fd with
    | none => rfl
    | some st => exact absurd (h.filled st hslot).1 hopen

/-- A descriptor fresh from the kernel that is closed at once leaves the books as they are. -/
theorem Kept.refused (h : io.Kept []) (hopen : fd ∉ io.openFds) (hphase : io.phase ≠ .down)
    {hist : ℕ → History} : Kept (closeFd { io with
      openFds := insert fd io.openFds
      history := hist } fd) [] := by
  have hidle := ((h.ledgers fd).closed hopen).1
  refine ⟨⟨?_, h.totals.cap, ?_, h.totals.batch, h.totals.quiet, ?_⟩, fun g => ?_⟩
  · change io.active.toNat = ((insert fd io.openFds).erase fd).card
    rw [Finset.erase_insert hopen]
    exact h.totals.count
  · intro c hc
    cases List.mem_append.mp hc with
    | inl hc =>
      exact h.totals.closes c hc
    | inr hc =>
      obtain rfl := List.mem_singleton.mp hc
      exact ⟨decide_eq_true (Finset.mem_insert_self _ _), busy_of_idle hidle⟩
  · exact fun hdown => absurd hdown hphase
  · refine (h.ledgers g).congr rfl ?_ rfl rfl ⟨rfl, rfl⟩ fun e he _ => he
    change g ∈ (insert fd io.openFds).erase fd ↔ _
    rw [Finset.erase_insert hopen]

/-- The counter has room for one more connection. -/
theorem Kept.active_succ (h : io.Kept []) : (io.active + 1).toNat = io.active.toNat + 1 := by
  have hcard := card_le fun g hg => ((h.ledgers g).client hg).1
  have hone : (1 : UInt64).toNat = 1 := rfl
  rw [UInt64.toNat_add, hone, h.totals.count]
  apply Nat.mod_eq_of_lt
  omega

/-- A descriptor fresh from the kernel enters the books with its slot, or is closed at once. -/
theorem Kept.acceptOne (h : io.Kept []) {a : Accepted} (hfd : io.unused a.fd = true)
    (hphase : io.phase ≠ .down) : (io.acceptOne a).Kept [] := by
  simp only [unused, Bool.and_eq_true, decide_eq_true_eq, bne_iff_ne, ne_eq] at hfd
  obtain ⟨⟨⟨hopen, hrange⟩, hlistener⟩, hnotify⟩ := hfd
  have hledger := h.ledgers a.fd
  unfold RequestIO.acceptOne
  simp only
  split_ifs with hcap hadded
  · exact h.refused hopen hphase
  · exact h.refused hopen hphase
  · refine ⟨⟨?_, ?_, h.totals.closes, h.totals.batch, h.totals.quiet, ?_⟩, fun g => ?_⟩
    · change (io.active + 1).toNat = (insert a.fd io.openFds).card
      rw [h.active_succ, h.totals.count, Finset.card_insert_of_notMem hopen]
    · intro hmax
      change io.active + 1 ≤ io.cfg.maxConnections
      change io.cfg.maxConnections ≠ 0 at hmax
      rw [not_and, ge_iff_le, UInt64.le_iff_toNat_le] at hcap
      have hlt := hcap hmax
      rw [UInt64.le_iff_toNat_le, h.active_succ]
      omega
    · exact fun hdown => absurd hdown hphase
    · by_cases hg : g = a.fd
      · subst hg
        have hslot : (io.pending.put a.fd { start := a.now, lastActivity := a.now }).get a.fd =
            some { start := a.now, lastActivity := a.now } := by rw [Slots.get_put, if_pos rfl]
        refine Ledger.of_slot (Finset.mem_insert_self _ _) (hledger.closed hopen).1 hslot
          ⟨by simp, by simp⟩ ?_ ⟨hrange, hlistener, hnotify⟩
        intro e he hfd
        exact absurd (hledger.event ⟨e, he, hfd⟩ hnotify hlistener).1 hopen
      · refine (h.ledgers g).congr ?_ ?_ rfl rfl ⟨rfl, rfl⟩ fun e he _ => he
        · change (io.pending.put a.fd _).get g = io.pending.get g
          rw [Slots.get_put, if_neg hg]
        · change g ∈ insert a.fd io.openFds ↔ _
          simp [hg]

theorem acceptOne_phase (io : RequestIO) (a : Accepted) : (io.acceptOne a).phase = io.phase := by
  unfold RequestIO.acceptOne
  simp only
  split_ifs <;> rfl

theorem Kept.acceptPending (h : io.Kept []) (hphase : io.phase ≠ .down) {accs : List Accepted}
    {io' : RequestIO} (ha : io.acceptPending accs = some io') : io'.Kept [] := by
  induction accs generalizing io with
  | nil =>
    cases ha
    exact h
  | cons a rest ih =>
    unfold RequestIO.acceptPending at ha
    split_ifs at ha with hfd
    apply ih (h.acceptOne hfd hphase) _ ha
    rwa [acceptOne_phase]

end
end RequestIO
end Vermell.Request
