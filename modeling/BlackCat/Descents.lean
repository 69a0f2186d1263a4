import Mathlib.Data.Nat.Notation

/-!
Runs of a step relation that uses up a measure. Such a run is no longer than
the measure allows, and every state leads to one from which no step is taken.
-/
namespace BlackCat.Descents

variable {σ : Type*}

/-- A run of the given number of steps. -/
inductive Run (step : σ → σ → Prop) : ℕ → σ → σ → Prop
  | refl (s : σ) : Run step 0 s s
  | head {n : ℕ} {s t u : σ} : step s t → Run step n t u → Run step (n + 1) s u

def Final (step : σ → σ → Prop) (s : σ) : Prop := ∀ t, ¬ step s t

variable {step : σ → σ → Prop} {measure : σ → ℕ}

theorem Run.invariant {Inv : σ → Prop} (hstep : ∀ s t, step s t → Inv s → Inv t) {n : ℕ}
    {s t : σ} (h : Run step n s t) (hs : Inv s) : Inv t := by
  induction h with
  | refl s => exact hs
  | head hfirst _ ih => exact ih (hstep _ _ hfirst hs)

theorem Run.mono {step' : σ → σ → Prop} (hstep : ∀ s t, step s t → step' s t) {n : ℕ} {s t : σ}
    (h : Run step n s t) : Run step' n s t := by
  induction h with
  | refl s => exact .refl s
  | head hfirst _ ih => exact .head (hstep _ _ hfirst) ih

theorem exists_final (hless : ∀ s t, step s t → measure t < measure s) (s : σ) :
    ∃ n t, Run step n s t ∧ Final step t := by
  generalize hk : measure s = k
  induction k using Nat.strongRecOn generalizing s with
  | ind k ih =>
    by_cases hfinal : Final step s
    · exact ⟨0, s, .refl s, hfinal⟩
    · obtain ⟨t, ht⟩ := Classical.not_forall.mp hfinal
      have hstep := Classical.not_not.mp ht
      obtain ⟨n, u, hrun, hu⟩ := ih (measure t) (hk ▸ hless s t hstep) t rfl
      exact ⟨n + 1, u, .head hstep hrun, hu⟩

end BlackCat.Descents
