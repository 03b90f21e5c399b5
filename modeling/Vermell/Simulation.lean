import Vermell.Runs

/-! Two step functions, one an abstraction of the other, and runs that a measure bounds. -/
namespace Runs
variable {σ τ ℓ m : Type*} {step : σ → ℓ → Option σ} {astep : τ → m → Option τ}

theorem exec_append (s : σ) (ls ms : List ℓ) :
    exec step s (ls ++ ms) = (exec step s ls).bind fun t => exec step t ms := by
  induction ls generalizing s with
  | nil => rfl
  | cons l ls ih =>
    simp only [List.cons_append, exec, Option.bind_assoc]
    congr 1
    funext t
    exact ih t

/-- A state that some run of the concrete system reaches. -/
def Reachable (step : σ → ℓ → Option σ) (s t : σ) : Prop := ∃ ls, exec step s ls = some t

theorem Reachable.refl (s : σ) : Reachable step s s := ⟨[], rfl⟩

theorem Reachable.tail {s t u : σ} {l : ℓ} (h : Reachable step s t) (hu : step t l = some u) :
    Reachable step s u := by
  obtain ⟨ls, hls⟩ := h
  refine ⟨ls ++ [l], ?_⟩
  rw [exec_append, hls]
  simp [exec, hu]

theorem Reachable.trans {s t u : σ} (h : Reachable step s t) (h' : Reachable step t u) :
    Reachable step s u := by
  obtain ⟨ls, hls⟩ := h
  obtain ⟨ms, hms⟩ := h'
  exact ⟨ls ++ ms, by rw [exec_append, hls, Option.bind_some, hms]⟩

/-- What holds at the start and is kept by every step holds of every reachable state. -/
theorem Reachable.induction {P : σ → Prop} {s t : σ} (h : Reachable step s t) (hs : P s)
    (hstep : ∀ u l v, P u → step u l = some v → P v) : P t := by
  obtain ⟨ls, hls⟩ := h
  exact (along_of_invariant hstep hs ls).exec hls

/-- Every step of the concrete system is a run of the abstract one, which may be empty. -/
def Simulates (step : σ → ℓ → Option σ) (astep : τ → m → Option τ) (abs : σ → τ) : Prop :=
  ∀ s l t, step s l = some t → Reachable astep (abs s) (abs t)

/-- So is every run. -/
theorem Simulates.reachable {abs : σ → τ} (h : Simulates step astep abs) {s t : σ}
    (ht : Reachable step s t) : Reachable astep (abs s) (abs t) := by
  apply ht.induction (P := fun u => Reachable astep (abs s) (abs u))
  · exact Reachable.refl (abs s)
  · intro u l v hu hv
    exact hu.trans (h u l v hv)

/-- Steps that lower a measure make runs no longer than it is. -/
theorem length_le_of_measure {μ : σ → ℕ} {P : σ → Prop} {C : ℓ → Prop}
    (hinv : ∀ s l t, P s → step s l = some t → P t)
    (hstep : ∀ s l t, P s → C l → step s l = some t → μ t < μ s) {s t : σ} {ls : List ℓ} (hs : P s)
    (hls : ∀ l ∈ ls, C l) (ht : exec step s ls = some t) : ls.length + μ t ≤ μ s := by
  induction ls generalizing s with
  | nil =>
    cases ht
    exact (Nat.zero_add _).le
  | cons l ls ih =>
    obtain ⟨u, hu, ht⟩ := Option.bind_eq_some_iff.mp ht
    obtain ⟨hl, hrest⟩ := List.forall_mem_cons.mp hls
    have hlt := hstep s l u hs hl hu
    have hle := ih (hinv s l u hs hu) hrest ht
    rw [List.length_cons]
    omega

/-- Where steps lower a measure, some run of them ends where none of them can be made. -/
theorem exists_stuck {μ : σ → ℕ} {P : σ → Prop} {C : ℓ → Prop}
    (hinv : ∀ s l t, P s → step s l = some t → P t)
    (hstep : ∀ s l t, P s → C l → step s l = some t → μ t < μ s) (s : σ) (hs : P s) :
    ∃ ls t, (∀ l ∈ ls, C l) ∧ exec step s ls = some t ∧ ∀ l, C l → step t l = none := by
  induction hμ : μ s using Nat.strong_induction_on generalizing s with
  | _ n ih =>
    by_cases hstuck : ∀ l, C l → step s l = none
    · exact ⟨[], s, by simp, rfl, hstuck⟩
    · push Not at hstuck
      obtain ⟨l, hl, hne⟩ := hstuck
      obtain ⟨u, hu⟩ := Option.ne_none_iff_exists'.mp hne
      obtain ⟨ls, t, hls, ht, hend⟩ :=
        ih (μ u) (hμ ▸ hstep s l u hs hl hu) u (hinv s l u hs hu) rfl
      refine ⟨l :: ls, t, List.forall_mem_cons.mpr ⟨hl, hls⟩, ?_, hend⟩
      simp [exec, hu, ht]

end Runs
