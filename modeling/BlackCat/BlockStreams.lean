import Mathlib.Algebra.Group.Nat.Defs
import Mathlib.Data.List.Basic
import Mathlib.Data.Nat.Notation

/-!
A stream taken in blocks of fixed length. The state is a chaining value and the
elements of the block that is not full yet; an element that fills the block
advances the chaining value. As the stream is taken element by element, a part
of it after another is the same as both in one.
-/
namespace BlackCat.BlockStreams

variable {σ α : Type*} (n : ℕ) (step : σ → List α → σ)

def push (t : σ × List α) (x : α) : σ × List α :=
  if t.2.length + 1 < n then (t.1, t.2 ++ [x]) else (step t.1 (t.2 ++ [x]), [])

def absorb (t : σ × List α) (xs : List α) : σ × List α := xs.foldl (push n step) t

theorem absorb_append (t : σ × List α) (xs ys : List α) :
    absorb n step t (xs ++ ys) = absorb n step (absorb n step t xs) ys := List.foldl_append

theorem absorb_short (t : σ × List α) (xs : List α) (h : t.2.length + xs.length < n) :
    absorb n step t xs = (t.1, t.2 ++ xs) := by
  induction xs generalizing t with
  | nil => rw [List.append_nil]; rfl
  | cons x xs ih =>
    rw [List.length_cons] at h
    have hpush : push n step t x = (t.1, t.2 ++ [x]) := if_pos (by omega)
    have hrest := ih (t.1, t.2 ++ [x]) (by rw [List.length_append, List.length_singleton]; omega)
    rw [absorb, List.foldl_cons, hpush]
    rw [absorb, List.append_assoc, List.singleton_append] at hrest
    exact hrest

theorem absorb_fill (t : σ × List α) (xs : List α) (hxs : xs ≠ [])
    (h : t.2.length + xs.length = n) : absorb n step t xs = (step t.1 (t.2 ++ xs), []) := by
  have hpos := List.length_pos_iff.mpr hxs
  have hlength : xs.dropLast.length = xs.length - 1 := List.length_dropLast
  have hshort := absorb_short n step t xs.dropLast (by omega)
  have hpush : push n step (t.1, t.2 ++ xs.dropLast) (xs.getLast hxs) =
      (step t.1 (t.2 ++ xs.dropLast ++ [xs.getLast hxs]), []) := by
    apply if_neg
    rw [List.length_append]
    omega
  calc absorb n step t xs
      = absorb n step t (xs.dropLast ++ [xs.getLast hxs]) := by
        rw [List.dropLast_append_getLast hxs]
    _ = push n step (t.1, t.2 ++ xs.dropLast) (xs.getLast hxs) := by
        rw [absorb_append, hshort]
        rfl
    _ = (step t.1 (t.2 ++ xs), []) := by
        rw [hpush, List.append_assoc, List.dropLast_append_getLast hxs]

theorem absorb_suffix (t : σ × List α) (xs : List α) :
    (absorb n step t xs).2 <:+ t.2 ++ xs := by
  induction xs generalizing t with
  | nil => rw [List.append_nil]; exact List.suffix_rfl
  | cons x xs ih =>
    have hrest := ih (push n step t x)
    have hpush : (push n step t x).2 <:+ t.2 ++ [x] := by
      unfold push
      split
      · exact List.suffix_rfl
      · exact List.nil_suffix
    have happend := List.append_assoc t.2 [x] xs
    rw [List.singleton_append] at happend
    rw [← happend]
    obtain ⟨before, hbefore⟩ := hpush
    exact hrest.trans ⟨before, by rw [← List.append_assoc, hbefore]⟩

end BlackCat.BlockStreams
