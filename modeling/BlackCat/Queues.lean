import Mathlib.Algebra.BigOperators.Group.Finset.Basic
import Mathlib.Data.Fintype.Basic
import Mathlib.Algebra.Order.Group.Multiset

/-!
Families of first-in-first-out queues. A step of a system puts an element at
the end of one queue or removes the first element of one. The lemmas say what
this does to the elements selected from each queue, in order, and to all
elements taken together.
-/
namespace BlackCat.Queues

variable {P M K : Type*} [DecidableEq P]

/-- The element x at the end of the queue of p. -/
def put (q : P → List M) (p : P) (x : M) : P → List M := Function.update q p (q p ++ [x])

theorem mem_put (q : P → List M) (p r : P) (x y : M) :
    y ∈ put q p x r ↔ y ∈ q r ∨ r = p ∧ y = x := by
  by_cases hr : r = p
  · subst r
    simp [put]
  · simp [put, hr]

theorem nodup_put (q : P → List M) (p : P) (x : M) (hx : x ∉ q p) (h : ∀ r, (q r).Nodup) (r : P) :
    (put q p x r).Nodup := by
  by_cases hr : r = p
  · subst r
    rw [put, Function.update_self, List.nodup_append]
    refine ⟨h p, List.nodup_singleton x, ?_⟩
    intro y hy z hz hyz
    rw [hyz, List.mem_singleton.mp hz] at hy
    exact hx hy
  · rw [put, Function.update_of_ne hr]
    exact h r

theorem forall_put (q : P → List M) (p : P) (x : M) (Ok : P → M → Prop) (hx : Ok p x)
    (h : ∀ r, ∀ y ∈ q r, Ok r y) (r : P) : ∀ y ∈ put q p x r, Ok r y := by
  intro y hy
  rcases (mem_put q p r x y).mp hy with hold | ⟨rfl, rfl⟩
  · exact h r y hold
  · exact hx

theorem forall_pop (q : P → List M) (p : P) (x : M) (rest : List M) (hq : q p = x :: rest)
    (Ok : P → M → Prop) (h : ∀ r, ∀ y ∈ q r, Ok r y) (r : P) :
    ∀ y ∈ Function.update q p rest r, Ok r y := by
  intro y hy
  by_cases hr : r = p
  · subst r
    rw [Function.update_self] at hy
    exact h p y (hq ▸ List.mem_cons_of_mem x hy)
  · rw [Function.update_of_ne hr] at hy
    exact h r y hy

theorem filterMap_put (sel : M → Option K) (q : P → List M) (p : P) (x : M) (r : P) :
    (put q p x r).filterMap sel =
      (q r).filterMap sel ++ if r = p then (sel x).toList else [] := by
  by_cases hr : r = p
  · subst r
    rw [put, Function.update_self, List.filterMap_append, if_pos rfl]
    cases hx : sel x <;> simp [hx]
  · rw [put, Function.update_of_ne hr, if_neg hr, List.append_nil]

theorem filterMap_pop (sel : M → Option K) (q : P → List M) (p : P) (x : M) (rest : List M)
    (hq : q p = x :: rest) (r : P) :
    (q r).filterMap sel =
      (if r = p then (sel x).toList else []) ++ (Function.update q p rest r).filterMap sel := by
  by_cases hr : r = p
  · subst r
    rw [hq, Function.update_self, if_pos rfl]
    cases hx : sel x <;> simp [hx]
  · rw [Function.update_of_ne hr, if_neg hr, List.nil_append]

variable [Fintype P]

def total (q : P → List M) : Multiset M := ∑ p, (q p : Multiset M)

omit [DecidableEq P] in
theorem mem_total (q : P → List M) (x : M) : x ∈ total q ↔ ∃ p, x ∈ q p := by
  simp [total, Multiset.mem_sum]

theorem total_update (q : P → List M) (p : P) (l : List M) :
    (q p : Multiset M) + total (Function.update q p l) = (l : Multiset M) + total q := by
  have hother : ∑ r ∈ Finset.univ.erase p, (Function.update q p l r : Multiset M) =
      ∑ r ∈ Finset.univ.erase p, (q r : Multiset M) := by
    apply Finset.sum_congr rfl
    intro r hr
    rw [Function.update_of_ne (Finset.ne_of_mem_erase hr)]
  rw [total, total, ← Finset.add_sum_erase _ _ (Finset.mem_univ p),
    ← Finset.add_sum_erase _ (fun r => (q r : Multiset M)) (Finset.mem_univ p),
    Function.update_self, hother, add_left_comm]

theorem total_put (q : P → List M) (p : P) (x : M) : total (put q p x) = x ::ₘ total q := by
  have h := total_update q p (q p ++ [x])
  rw [← Multiset.coe_add, add_assoc] at h
  have hsum := add_left_cancel h
  rwa [Multiset.coe_singleton, Multiset.singleton_add] at hsum

theorem total_pop (q : P → List M) (p : P) (x : M) (rest : List M) (hq : q p = x :: rest) :
    total q = x ::ₘ total (Function.update q p rest) := by
  have h := total_update q p rest
  rw [hq, ← Multiset.cons_coe, Multiset.cons_add, ← Multiset.add_cons] at h
  exact (add_left_cancel h).symm

theorem queue_le_total (q : P → List M) (p : P) : (q p : Multiset M) ≤ total q := by
  rw [total, ← Finset.add_sum_erase _ _ (Finset.mem_univ p)]
  exact Multiset.le_add_right _ _

theorem sum_update {ν : Type*} (f : ν → ℕ) (g : P → ν) (p : P) (x : ν) :
    f (g p) + ∑ r, f (Function.update g p x r) = f x + ∑ r, f (g r) := by
  have hother : ∑ r ∈ Finset.univ.erase p, f (Function.update g p x r) =
      ∑ r ∈ Finset.univ.erase p, f (g r) := by
    apply Finset.sum_congr rfl
    intro r hr
    rw [Function.update_of_ne (Finset.ne_of_mem_erase hr)]
  rw [← Finset.add_sum_erase _ _ (Finset.mem_univ p),
    ← Finset.add_sum_erase _ (fun r => f (g r)) (Finset.mem_univ p), Function.update_self, hother]
  omega

end BlackCat.Queues
