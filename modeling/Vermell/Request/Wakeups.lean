import Vermell.Request.Io
import Vermell.Runs
import Vermell.Threads

/-! How completions reach the loop: `complete_connection` in any number of workers beside
`DrainCompletions` in the loop, one atomic step at a time. -/
namespace Vermell.Request
open Runs Threads

/-- Where a worker is in `complete_connection`. -/
inductive WorkerPhase
  | idle | pushed | signalling
  deriving DecidableEq, Repr

/-- Where the loop is in `DrainCompletions`. -/
inductive LoopPhase
  | idle | drained | cleared
  deriving DecidableEq, Repr

/-- The largest value of an eventfd; a write that would pass it fails, and nobody looks. -/
def EVENTFD_MAX : ℕ := 2^64 - 2

/-- The notification state, and all completions pushed and handed to the loop so far. -/
structure Wakeups (W : Type*) where
  phase : W → WorkerPhase := fun _ => .idle
  loop : LoopPhase := .idle
  eventfd : ℕ := 0
  pendingNotify : UInt64 := 0
  completed : List Completion := []
  pushed : List Completion := []
  handed : List Completion := []

inductive WakeupStep (W : Type*)
  | push (w : W) (c : Completion)
  | fetchAdd (w : W)
  | write (w : W)
  | read
  | store
  | swap

namespace Wakeups
variable {W : Type*}

section
variable [DecidableEq W] (s : Wakeups W) (w : W)

/-- The push of `complete_connection`, under the mutex. -/
def push (c : Completion) : Wakeups W :=
  { s with
    phase := Function.update s.phase w .pushed
    completed := s.completed ++ [c]
    pushed := s.pushed ++ [c] }

/-- `pending_notify_.fetch_add`: who finds zero goes on to the write. -/
def fetchAdd : Wakeups W :=
  { s with
    phase := Function.update s.phase w (if s.pendingNotify = 0 then .signalling else .idle)
    pendingNotify := s.pendingNotify + 1 }

def write : Wakeups W :=
  { s with
    phase := Function.update s.phase w .idle
    eventfd := min (s.eventfd + 1) EVENTFD_MAX }

omit [DecidableEq W] in
/-- The read of `DrainCompletions`, which never waits. -/
def read : Wakeups W := { s with loop := .drained, eventfd := 0 }

def store : Wakeups W := { s with loop := .cleared, pendingNotify := 0 }

/-- The swap, under the mutex; the loop has the completions then. -/
def swap : Wakeups W :=
  { s with loop := .idle, completed := [], handed := s.handed ++ s.completed }

/-- A step, where its thread stands in front of it. -/
def step (s : Wakeups W) : WakeupStep W → Option (Wakeups W)
  | .push w c => if s.phase w = .idle then some (s.push w c) else none
  | .fetchAdd w => if s.phase w = .pushed then some (s.fetchAdd w) else none
  | .write w => if s.phase w = .signalling then some (s.write w) else none
  | .read => if s.loop = .idle then some s.read else none
  | .store => if s.loop = .drained then some s.store else none
  | .swap => if s.loop = .cleared then some s.swap else none

end

/-- The eventfd will report something: it is up, or a worker is about to write to it. -/
def Rings (s : Wakeups W) : Prop := 0 < s.eventfd ∨ ∃ w, s.phase w = .signalling

/-- What keeps a signal from being lost: a count above zero has its signal, unless the loop has just
taken that and will clear the count; a completion has one too, unless its worker has yet to count it
or the loop is on its way to the swap. -/
structure Coalesced (s : Wakeups W) : Prop where
  counted : s.pendingNotify ≠ 0 → s.Rings ∨ s.loop = .drained
  noticed : s.completed ≠ [] → s.Rings ∨ (∃ w, s.phase w = .pushed) ∨ s.loop ≠ .idle
  once : s.pushed = s.handed ++ s.completed

section
variable [DecidableEq W] {s : Wakeups W} {w : W}

/-- A worker that is not at its write leaves the signal to the others. -/
theorem rings_update {t : Wakeups W} {p : WorkerPhase} (h : s.Rings)
    (hw : s.phase w ≠ .signalling) (heventfd : t.eventfd = s.eventfd)
    (hphase : t.phase = Function.update s.phase w p) : t.Rings := by
  unfold Rings
  rw [heventfd, hphase]
  refine h.imp_right fun hsome => ?_
  exact (exists_update_iff_of_not s.phase w p (Q := (· = .signalling)) hw).mpr (Or.inr hsome)

theorem Coalesced.push (h : s.Coalesced) (hw : s.phase w = .idle) (c : Completion) :
    (s.push w c).Coalesced where
  counted hcount := by
    have hkeep : s.Rings → (s.push w c).Rings := fun hrings =>
      rings_update hrings (by simp [hw]) rfl rfl
    exact (h.counted hcount).imp_left hkeep
  noticed _ := Or.inr (Or.inl ⟨w, Function.update_self ..⟩)
  once := by
    change s.pushed ++ [c] = s.handed ++ (s.completed ++ [c])
    rw [h.once, List.append_assoc]

theorem Coalesced.fetchAdd (h : s.Coalesced) (hw : s.phase w = .pushed) :
    (s.fetchAdd w).Coalesced := by
  by_cases hzero : s.pendingNotify = 0
  · -- the first of its round goes on to the write
    have hrings : (s.fetchAdd w).Rings := Or.inr ⟨w, by simp [Wakeups.fetchAdd, hzero]⟩
    exact ⟨fun _ => Or.inl hrings, fun _ => Or.inl hrings, h.once⟩
  · -- a count that stands has its signal already
    have hkeep : s.Rings → (s.fetchAdd w).Rings := fun hrings =>
      rings_update hrings (by simp [hw]) rfl rfl
    have hcounted := (h.counted hzero).imp_left hkeep
    refine ⟨fun _ => hcounted, fun _ => hcounted.imp_right fun hloop => Or.inr ?_, h.once⟩
    change s.loop ≠ .idle
    simp [hloop]

theorem Coalesced.write (h : s.Coalesced) : (s.write w).Coalesced := by
  have hrings : (s.write w).Rings := by
    left
    exact lt_min (Nat.succ_pos s.eventfd) (by decide)
  exact ⟨fun _ => Or.inl hrings, fun _ => Or.inl hrings, h.once⟩

omit [DecidableEq W] in
theorem Coalesced.read (h : s.Coalesced) : s.read.Coalesced where
  counted _ := Or.inr rfl
  noticed _ := Or.inr (Or.inr nofun)
  once := h.once

omit [DecidableEq W] in
theorem Coalesced.store (h : s.Coalesced) : s.store.Coalesced where
  counted hcount := absurd rfl hcount
  noticed _ := Or.inr (Or.inr nofun)
  once := h.once

omit [DecidableEq W] in
/-- Between the store and the swap the count has its signal, which the swap leaves alone. -/
theorem Coalesced.swap (h : s.Coalesced) (hloop : s.loop = .cleared) : s.swap.Coalesced where
  counted hcount := Or.inl ((h.counted hcount).resolve_right (by simp [hloop]))
  noticed hsome := absurd rfl hsome
  once := by
    change s.pushed = s.handed ++ s.completed ++ []
    rw [h.once, List.append_nil]

/-- What a step does, and where its thread stood. -/
theorem step_cases {l : WakeupStep W} {t : Wakeups W} (ht : s.step l = some t) :
    match l with
    | .push w c => s.phase w = .idle ∧ t = s.push w c
    | .fetchAdd w => s.phase w = .pushed ∧ t = s.fetchAdd w
    | .write w => s.phase w = .signalling ∧ t = s.write w
    | .read => s.loop = .idle ∧ t = s.read
    | .store => s.loop = .drained ∧ t = s.store
    | .swap => s.loop = .cleared ∧ t = s.swap := by
  cases l <;>
    · simp only [step] at ht
      split_ifs at ht with hwhere
      exact ⟨hwhere, (Option.some.inj ht).symm⟩

theorem Coalesced.step {l : WakeupStep W} {t : Wakeups W} (h : s.Coalesced)
    (ht : s.step l = some t) : t.Coalesced := by
  have hstep := step_cases ht
  cases l with
  | push w c =>
    obtain ⟨hw, rfl⟩ := hstep
    exact h.push hw c
  | fetchAdd w =>
    obtain ⟨hw, rfl⟩ := hstep
    exact h.fetchAdd hw
  | write w =>
    obtain ⟨-, rfl⟩ := hstep
    exact h.write
  | read =>
    obtain ⟨-, rfl⟩ := hstep
    exact h.read
  | store =>
    obtain ⟨-, rfl⟩ := hstep
    exact h.store
  | swap =>
    obtain ⟨hloop, rfl⟩ := hstep
    exact h.swap hloop

end

section
variable [DecidableEq W] [Fintype W] {s t : Wakeups W}

omit [Fintype W] in
theorem Coalesced.exec (h : s.Coalesced) {ls : List (WakeupStep W)}
    (ht : Runs.exec Wakeups.step s ls = some t) : t.Coalesced :=
  (along_of_invariant (P := Coalesced) (fun _ _ _ hs => hs.step) h ls).exec ht

end

end Wakeups
end Vermell.Request
