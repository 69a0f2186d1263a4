import Mathlib.Data.List.Infix

/-!
Runs of a machine that is given by a partial step function: an event that
cannot happen in a state has no successor. A condition on the events of a run,
each in the state it meets, carries an invariant along the run; where a run
does not meet its condition there is a first event that breaks it.
-/
namespace BlackCat.Runs

variable {σ ε : Type*} (step : σ → ε → Option σ)

def run : σ → List ε → Option σ
  | s, [] => some s
  | s, e :: es => (step s e).bind fun t => run t es

/-- Every event meets the condition in the state in which it happens. -/
def Always (ok : σ → ε → Prop) : σ → List ε → Prop
  | _, [] => True
  | s, e :: es => ok s e ∧ ∀ t, step s e = some t → Always ok t es

variable {step}

theorem run_cons {s t u : σ} {e : ε} {es : List ε} (hstep : step s e = some t)
    (hrun : run step t es = some u) : run step s (e :: es) = some u := by
  rw [run, hstep]
  exact hrun

theorem exists_of_run_cons {s u : σ} {e : ε} {es : List ε} (h : run step s (e :: es) = some u) :
    ∃ t, step s e = some t ∧ run step t es = some u :=
  Option.bind_eq_some_iff.mp h

theorem Always.cons {ok : σ → ε → Prop} {s t : σ} {e : ε} {es : List ε}
    (hrest : Always step ok t es) (hstep : step s e = some t) (hok : ok s e) :
    Always step ok s (e :: es) := by
  refine ⟨hok, ?_⟩
  intro u hu
  rw [hstep] at hu
  cases hu
  exact hrest

theorem run_append (s : σ) (es fs : List ε) :
    run step s (es ++ fs) = (run step s es).bind fun t => run step t fs := by
  induction es generalizing s with
  | nil => rfl
  | cons e es ih =>
    simp only [List.cons_append, run, Option.bind_assoc]
    congr 1
    funext t
    exact ih t

theorem run_append_of_run {s t : σ} {es : List ε} (h : run step s es = some t) (fs : List ε) :
    run step s (es ++ fs) = run step t fs := by
  rw [run_append, h]
  rfl

theorem run_concat {s t u : σ} {es : List ε} {e : ε} (h : run step s es = some t)
    (hstep : step t e = some u) : run step s (es ++ [e]) = some u := by
  rw [run_append_of_run h]
  exact run_cons hstep rfl

theorem always_append {ok : σ → ε → Prop} {s t : σ} {es fs : List ε}
    (h : run step s es = some t) :
    Always step ok s (es ++ fs) ↔ Always step ok s es ∧ Always step ok t fs := by
  induction es generalizing s with
  | nil =>
    cases h
    simp [Always]
  | cons e es ih =>
    obtain ⟨u, hstep, hrun⟩ := exists_of_run_cons h
    have hnext : ∀ P : σ → Prop, (∀ v, step s e = some v → P v) ↔ P u := by
      intro P
      rw [hstep]
      simp
    simp only [List.cons_append, Always, hnext, ih hrun, and_assoc]

theorem always_of_forall {ok : σ → ε → Prop} {s : σ} {es : List ε}
    (h : ∀ e ∈ es, ∀ t, ok t e) : Always step ok s es := by
  induction es generalizing s with
  | nil => trivial
  | cons e es ih =>
    rw [List.forall_mem_cons] at h
    exact ⟨h.1 s, fun t _ => ih h.2⟩

theorem always_and {ok ok' : σ → ε → Prop} {s : σ} {es : List ε} (h : Always step ok s es)
    (h' : Always step ok' s es) : Always step (fun t e => ok t e ∧ ok' t e) s es := by
  induction es generalizing s with
  | nil => trivial
  | cons e es ih => exact ⟨⟨h.1, h'.1⟩, fun t ht => ih (h.2 t ht) (h'.2 t ht)⟩

theorem invariant {ok : σ → ε → Prop} {inv : σ → Prop}
    (hinv : ∀ s e t, inv s → ok s e → step s e = some t → inv t) {s t : σ} {es : List ε}
    (hs : inv s) (hok : Always step ok s es) (hrun : run step s es = some t) : inv t := by
  induction es generalizing s with
  | nil =>
    cases hrun
    exact hs
  | cons e es ih =>
    obtain ⟨u, hstep, hrest⟩ := exists_of_run_cons hrun
    exact ih (hinv s e u hs hok.1 hstep) (hok.2 u hstep) hrest

theorem invariant_of_step {inv : σ → Prop}
    (hinv : ∀ s e t, inv s → step s e = some t → inv t) {s t : σ} {es : List ε}
    (hs : inv s) (hrun : run step s es = some t) : inv t := by
  have hall : Always step (fun _ _ => True) s es := always_of_forall fun _ _ _ => trivial
  refine invariant ?_ hs hall hrun
  intro u e v hu _ hstep
  exact hinv u e v hu hstep

theorem Always.imp_of_invariant {ok ok' : σ → ε → Prop} {inv : σ → Prop}
    (hinv : ∀ s e t, inv s → ok s e → step s e = some t → inv t)
    (himp : ∀ s e, inv s → ok s e → ok' s e) {s : σ} {es : List ε} (hs : inv s)
    (hok : Always step ok s es) : Always step ok' s es := by
  induction es generalizing s with
  | nil => trivial
  | cons e es ih =>
    refine ⟨himp s e hs hok.1, ?_⟩
    intro t hstep
    exact ih (hinv s e t hs hok.1 hstep) (hok.2 t hstep)

/-- Where the condition fails there is a first event that does not meet it. -/
theorem exists_first_break {ok : σ → ε → Prop} {s t : σ} {es : List ε}
    (hrun : run step s es = some t) (h : ¬ Always step ok s es) :
    ∃ before e after u v, es = before ++ e :: after ∧ run step s before = some u ∧
      Always step ok s before ∧ ¬ ok u e ∧ step u e = some v ∧ run step v after = some t := by
  induction es generalizing s with
  | nil => exact absurd trivial h
  | cons e es ih =>
    obtain ⟨u, hstep, hrest⟩ := exists_of_run_cons hrun
    by_cases hok : ok s e
    · have htail : ¬ Always step ok u es := by
        intro hall
        exact h (hall.cons hstep hok)
      obtain ⟨before, f, after, v, w, rfl, hbefore, hall, hbad, hf, hafter⟩ := ih hrest htail
      exact ⟨e :: before, f, after, v, w, rfl, run_cons hstep hbefore, hall.cons hstep hok, hbad,
        hf, hafter⟩
    · exact ⟨[], e, es, s, u, rfl, rfl, trivial, hok, hstep, hrest⟩

end BlackCat.Runs
