import Mathlib.Tactic

/-! Runs of a deterministic labelled step function. A label that is not enabled in a state has no
successor there, so a property along a run speaks of the states the run really reaches. -/
namespace Runs
variable {σ ℓ : Type*} (step : σ → ℓ → Option σ)

/-- The state behind a list of labels, if each is enabled in its turn. -/
def exec : σ → List ℓ → Option σ
  | s, [] => some s
  | s, l :: ls => (step s l).bind fun t => exec t ls

/-- The property holds in every state that the run passes. -/
def Along (P : σ → Prop) : σ → List ℓ → Prop
  | s, [] => P s
  | s, l :: ls => P s ∧ ∀ t, step s l = some t → Along P t ls

/-- Every step that the run makes meets the condition. -/
def Guarded (C : σ → ℓ → Prop) : σ → List ℓ → Prop
  | _, [] => True
  | s, l :: ls => ∀ t, step s l = some t → C s l ∧ Guarded C t ls

variable {step}

instance decidableGuarded {C : σ → ℓ → Prop} [∀ s l, Decidable (C s l)] :
    ∀ s ls, Decidable (Guarded step C s ls)
  | _, [] => isTrue trivial
  | s, l :: ls =>
    match h : step s l with
    | none => isTrue (by simp [Guarded, h])
    | some t =>
      have := decidableGuarded (C := C) t ls
      decidable_of_iff (C s l ∧ Guarded step C t ls) (by simp [Guarded, h])

instance decidableAlong {P : σ → Prop} [∀ s, Decidable (P s)] :
    ∀ s (ls : List ℓ), Decidable (Along step P s ls)
  | s, [] => inferInstanceAs (Decidable (P s))
  | s, l :: ls =>
    match h : step s l with
    | none => decidable_of_iff (P s) (by simp [Along, h])
    | some t =>
      have := decidableAlong (P := P) t ls
      decidable_of_iff (P s ∧ Along step P t ls) (by simp [Along, h])

theorem Along.head {P : σ → Prop} {s : σ} {ls : List ℓ} (h : Along step P s ls) : P s := by
  cases ls with
  | nil => exact h
  | cons l ls => exact h.1

theorem Along.mono {P Q : σ → Prop} (hPQ : ∀ s, P s → Q s) {s : σ} {ls : List ℓ}
    (h : Along step P s ls) : Along step Q s ls := by
  induction ls generalizing s with
  | nil => exact hPQ s h
  | cons l ls ih => exact ⟨hPQ s h.1, fun t ht => ih (h.2 t ht)⟩

theorem Along.and {P Q : σ → Prop} {s : σ} {ls : List ℓ} (hP : Along step P s ls)
    (hQ : Along step Q s ls) : Along step (fun s => P s ∧ Q s) s ls := by
  induction ls generalizing s with
  | nil => exact ⟨hP, hQ⟩
  | cons l ls ih => exact ⟨⟨hP.1, hQ.1⟩, fun t ht => ih (hP.2 t ht) (hQ.2 t ht)⟩

/-- A property along a run holds where the run ends. -/
theorem Along.exec {P : σ → Prop} {s t : σ} {ls : List ℓ} (h : Along step P s ls)
    (ht : exec step s ls = some t) : P t := by
  induction ls generalizing s with
  | nil =>
    obtain rfl : s = t := Option.some.inj ht
    exact h
  | cons l ls ih =>
    obtain ⟨u, hu, ht⟩ := Option.bind_eq_some_iff.mp ht
    exact ih (h.2 u hu) ht

/-- What every step preserves holds along every run. -/
theorem along_of_invariant {P : σ → Prop} (hstep : ∀ s l t, P s → step s l = some t → P t) {s : σ}
    (hs : P s) (ls : List ℓ) : Along step P s ls := by
  induction ls generalizing s with
  | nil => exact hs
  | cons l ls ih => exact ⟨hs, fun t ht => ih (hstep s l t hs ht)⟩

/-- An invariant of the steps that meet a condition holds along every run of such steps. -/
theorem along_of_guarded {P : σ → Prop} {C : σ → ℓ → Prop}
    (hstep : ∀ s l t, P s → C s l → step s l = some t → P t) {s : σ} {ls : List ℓ} (hs : P s)
    (h : Guarded step C s ls) : Along step P s ls := by
  induction ls generalizing s with
  | nil => exact hs
  | cons l ls ih =>
    refine ⟨hs, fun t ht => ?_⟩
    obtain ⟨hc, hrest⟩ := h t ht
    exact ih (hstep s l t hs hc ht) hrest

/-- A condition that every step meets is met along every run. -/
theorem guarded_of_forall {C : σ → ℓ → Prop} (h : ∀ s l, C s l) (s : σ) (ls : List ℓ) :
    Guarded step C s ls := by
  induction ls generalizing s with
  | nil => trivial
  | cons l ls ih => exact fun t _ => ⟨h s l, ih t⟩

theorem Guarded.and {C D : σ → ℓ → Prop} {s : σ} {ls : List ℓ} (hC : Guarded step C s ls)
    (hD : Guarded step D s ls) : Guarded step (fun s l => C s l ∧ D s l) s ls := by
  induction ls generalizing s with
  | nil => trivial
  | cons l ls ih =>
    exact fun t ht => ⟨⟨(hC t ht).1, (hD t ht).1⟩, ih (hC t ht).2 (hD t ht).2⟩

/-- A condition on the labels alone. -/
theorem guarded_of_mem {C : ℓ → Prop} {ls : List ℓ} (h : ∀ l ∈ ls, C l) (s : σ) :
    Guarded step (fun _ => C) s ls := by
  induction ls generalizing s with
  | nil => trivial
  | cons l ls ih =>
    obtain ⟨hl, hls⟩ := List.forall_mem_cons.mp h
    exact fun t _ => ⟨hl, ih hls t⟩

/-- Where a step out of the condition ends in a state without the property, the runs of such steps
are exactly those along which the property holds. -/
theorem along_iff_guarded {I P : σ → Prop} {C : σ → ℓ → Prop} (hI : ∀ s, I s → P s)
    (hstep : ∀ s l t, I s → C s l → step s l = some t → I t)
    (hexact : ∀ s l t, I s → step s l = some t → P t → C s l) {s : σ} (hs : I s) (ls : List ℓ) :
    Along step P s ls ↔ Guarded step C s ls := by
  constructor
  · intro h
    induction ls generalizing s with
    | nil => trivial
    | cons l ls ih =>
      intro t ht
      have hc := hexact s l t hs ht (h.2 t ht).head
      exact ⟨hc, ih (hstep s l t hs hc ht) (h.2 t ht)⟩
  · intro h
    exact (along_of_guarded hstep hs h).mono hI

end Runs
