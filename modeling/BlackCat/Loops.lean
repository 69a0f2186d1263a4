import Mathlib.Data.Nat.Notation
import Mathlib.Tactic.TypeStar

/-!
Loops executed round by round. A round either begins the next one or leaves
with a result. A loop may also go on forever: `run` gives no result for any
number of rounds then. `Visits` lists the states in which a round is begun,
so an invariant is stated over whole runs and proved one round at a time.
-/
namespace BlackCat.Loops

/-- What one round does. -/
inductive Round (σ ρ : Type*)
  | again (s : σ)
  | leave (r : ρ)

variable {σ ρ : Type*}

/-- The result reached within n rounds; `none` while the loop is still going. -/
def run (body : σ → Round σ ρ) : ℕ → σ → Option ρ
  | 0, _ => none
  | n + 1, s => match body s with
    | .again t => run body n t
    | .leave r => some r

inductive Visits (body : σ → Round σ ρ) (s : σ) : σ → Prop
  | start : Visits body s s
  | next {t u : σ} : Visits body s t → body t = .again u → Visits body s u

theorem run_again (body : σ → Round σ ρ) {s t : σ} (h : body s = .again t) (n : ℕ) :
    run body (n + 1) s = run body n t := by
  simp only [run, h]

theorem run_leave (body : σ → Round σ ρ) {s : σ} {r : ρ} (h : body s = .leave r) (n : ℕ) :
    run body (n + 1) s = some r := by
  simp only [run, h]

theorem run_mono (body : σ → Round σ ρ) {n m : ℕ} (hnm : n ≤ m) {s : σ} {r : ρ}
    (h : run body n s = some r) : run body m s = some r := by
  induction n generalizing s m with
  | zero => simp [run] at h
  | succ n ih =>
    obtain ⟨k, rfl⟩ : ∃ k, m = k + 1 := ⟨m - 1, by omega⟩
    cases hb : body s with
    | again t =>
      rw [run_again body hb] at h ⊢
      exact ih (by omega) h
    | leave r' =>
      rw [run_leave body hb] at h ⊢
      exact h

theorem map_run_mono {β : Type*} (body : σ → Round σ ρ) {n m : ℕ} (hnm : n ≤ m) {s : σ}
    {f : ρ → β} {y : β} (h : (run body n s).map f = some y) : (run body m s).map f = some y := by
  obtain ⟨r, hrun, hmap⟩ := Option.map_eq_some_iff.mp h
  rw [run_mono body hnm hrun, Option.map_some, hmap]

theorem run_unique (body : σ → Round σ ρ) {n m : ℕ} {s : σ} {r r' : ρ}
    (h : run body n s = some r) (h' : run body m s = some r') : r = r' := by
  rcases Nat.le_total n m with hle | hle
  · exact Option.some.inj ((run_mono body hle h).symm.trans h')
  · exact Option.some.inj (h.symm.trans (run_mono body hle h'))

theorem Visits.head {body : σ → Round σ ρ} {s t u : σ} (h : body s = .again t)
    (hv : Visits body t u) : Visits body s u := by
  induction hv with
  | start => exact .next .start h
  | next _ hu ih => exact .next ih hu

theorem Visits.cases_head {body : σ → Round σ ρ} {s u : σ} (hv : Visits body s u) :
    u = s ∨ ∃ t, body s = .again t ∧ Visits body t u := by
  induction hv with
  | start => exact Or.inl rfl
  | next _ hu ih =>
    rcases ih with rfl | ⟨t, hs, ht⟩
    · exact Or.inr ⟨_, hu, .start⟩
    · exact Or.inr ⟨t, hs, ht.next hu⟩

theorem Visits.trans {body : σ → Round σ ρ} {s t u : σ} (hst : Visits body s t)
    (htu : Visits body t u) : Visits body s u := by
  induction htu with
  | start => exact hst
  | next _ hround ih => exact ih.next hround

theorem Visits.comparable {body : σ → Round σ ρ} {s t u : σ} (ht : Visits body s t)
    (hu : Visits body s u) : Visits body t u ∨ Visits body u t := by
  induction ht with
  | start => exact Or.inl hu
  | next _ hround ih =>
    rcases ih with hlater | hearlier
    · rcases hlater.cases_head with rfl | ⟨v, hv, hvu⟩
      · exact Or.inr (.next .start hround)
      · rw [hround] at hv
        cases hv
        exact Or.inl hvu
    · exact Or.inr (hearlier.next hround)

theorem Visits.eq_of_measure_eq {body : σ → Round σ ρ} {s t u : σ} (measure : σ → ℕ)
    (hdecreases : ∀ a b, body a = .again b → measure b < measure a) (ht : Visits body s t)
    (hu : Visits body s u) (h : measure t = measure u) : t = u := by
  have hle : ∀ a b, Visits body a b → b = a ∨ measure b < measure a := by
    intro a b hab
    induction hab with
    | start => exact Or.inl rfl
    | next _ hround ih =>
      have hlt := hdecreases _ _ hround
      rcases ih with rfl | hless
      · exact Or.inr hlt
      · exact Or.inr (Nat.lt_trans hlt hless)
  rcases ht.comparable hu with htu | hut
  · rcases hle t u htu with heq | hlt
    · exact heq.symm
    · omega
  · rcases hle u t hut with heq | hlt
    · exact heq
    · omega

/-- A property kept by every round holds whenever a round begins. -/
theorem Visits.invariant {body : σ → Round σ ρ} {s t : σ} (inv : σ → Prop)
    (hstep : ∀ a b, inv a → body a = .again b → inv b) (hs : inv s)
    (hv : Visits body s t) : inv t := by
  induction hv with
  | start => exact hs
  | next _ hu ih => exact hstep _ _ ih hu

theorem exists_last_round (body : σ → Round σ ρ) {n : ℕ} {s : σ} {r : ρ}
    (h : run body n s = some r) : ∃ t, Visits body s t ∧ body t = .leave r := by
  induction n generalizing s with
  | zero => simp [run] at h
  | succ n ih =>
    cases hb : body s with
    | again t =>
      rw [run_again body hb] at h
      obtain ⟨u, hu, hl⟩ := ih h
      exact ⟨u, hu.head hb, hl⟩
    | leave r' =>
      rw [run_leave body hb] at h
      rw [Option.some.inj h] at hb
      exact ⟨s, .start, hb⟩

/-- A loop that keeps an invariant under which no round leaves never ends. -/
theorem run_eq_none_of_invariant (body : σ → Round σ ρ) (inv : σ → Prop)
    (hstep : ∀ a, inv a → ∃ b, body a = .again b ∧ inv b) {s : σ} (hs : inv s) (n : ℕ) :
    run body n s = none := by
  induction n generalizing s with
  | zero => rfl
  | succ n ih =>
    obtain ⟨t, hb, ht⟩ := hstep s hs
    rw [run_again body hb]
    exact ih ht

end BlackCat.Loops
