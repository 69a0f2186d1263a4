import BlackCat.Loops
import BlackCat.Strop

/-!
`ReplaceString` edits the string it searches. The replacement is passed as a C
string, so only its part before a zero is inserted, while the position from
which the search goes on is moved by its whole size. Without a zero in the
replacement the two agree, and what has been searched is never searched again.
-/
namespace BlackCat.Strop

open ByteMemory Loops TextSearch

variable {α : Type*} [DecidableEq α] [GeneralConstStrings α]

section AnyWidth

variable [SizeType]

structure Replacing (α : Type*) where
  tmp : List α
  start : ℤ

def replaceRound (fromStr toStr : List α) (s : Replacing α) :
    Round (Replacing α) (List α) :=
  match findFrom s.tmp fromStr (size s.start) with
  | some pos =>
    .again ⟨s.tmp.take pos ++ (cStr toStr ++ s.tmp.drop (pos + fromStr.length)),
      int32 (pos + toStr.length)⟩
  | none => .leave s.tmp

def replaceString (rounds : ℕ) (input fromStr toStr : List α) : Option (List α) :=
  if fromStr = [] ∨ fromStr = toStr then some input
  else run (replaceRound fromStr toStr) rounds ⟨input, 0⟩

/-- The call returns the pieces between the leftmost occurrences joined by the replacement. -/
def Replaced (fromStr toStr input : List α) : Prop :=
  ∃ pieces, LeftmostCuts fromStr input pieces ∧
    (∀ other, LeftmostCuts fromStr input other → other = pieces) ∧
    ∃ rounds, replaceString rounds input fromStr toStr = some (toStr.intercalate pieces)

section Rounds

variable (fromStr toStr done : List α)

theorem replaceRound_last (rest : List α) (hnone : ¬ fromStr <:+: rest)
    (hsize : done.length < 2147483648) :
    replaceRound fromStr toStr ⟨done ++ rest, done.length⟩ = .leave (done ++ rest) := by
  have hstart : size (done.length : ℤ) = done.length := size_natCast (by omega)
  simp only [replaceRound, hstart, findFrom_append, indexOf_eq_none_iff.mpr hnone, Option.map_none]

theorem replaceRound_cut (before after : List α)
    (hfirst : ∀ j < before.length, ¬ fromStr <+: (before ++ (fromStr ++ after)).drop j)
    (hsize : (done ++ before ++ toStr).length < 2147483648) :
    replaceRound fromStr toStr ⟨done ++ (before ++ (fromStr ++ after)), done.length⟩ =
      .again ⟨done ++ before ++ cStr toStr ++ after, (done ++ before ++ toStr).length⟩ := by
  have hnext : int32 (((done.length + before.length : ℕ) : ℤ) + toStr.length) =
      ((done ++ before ++ toStr).length : ℕ) := by
    rw [← Int.natCast_add, ← List.length_append, ← List.length_append]
    exact int32_natCast hsize
  rw [List.length_append, List.length_append] at hsize
  have hstart : size (done.length : ℤ) = done.length := size_natCast (by omega)
  have htake : (done ++ (before ++ (fromStr ++ after))).take (done.length + before.length) =
      done ++ before := by
    rw [← List.append_assoc, ← List.length_append, List.take_left]
  have hdrop : (done ++ (before ++ (fromStr ++ after))).drop
      (done.length + before.length + fromStr.length) = after := by
    rw [← List.append_assoc, ← List.append_assoc, ← List.length_append, ← List.length_append,
      List.drop_left]
  simp only [replaceRound, hstart, findFrom_append, indexOf_of_first hfirst, Option.map_some,
    hnext, htake, hdrop, List.append_assoc]

theorem run_replaceRound (hnul : nul ∉ toStr) (rest : List α) (pieces : List (List α))
    (hcuts : LeftmostCuts fromStr rest pieces)
    (hsize : (done ++ toStr.intercalate pieces).length < 2147483648) :
    run (replaceRound fromStr toStr) pieces.length ⟨done ++ rest, done.length⟩ =
      some (done ++ toStr.intercalate pieces) := by
  induction hcuts generalizing done with
  | last text hnone =>
    rw [List.length_append] at hsize
    have hround := replaceRound_last fromStr toStr done text hnone (by omega)
    rw [List.length_singleton, run_leave _ hround, List.intercalate_singleton]
  | cut before after pieces hfirst hrest ih =>
    have hassoc : done ++ toStr.intercalate (before :: pieces) =
        done ++ before ++ toStr ++ toStr.intercalate pieces := by
      rw [intercalate_cons_of_ne_nil toStr before hrest.ne_nil]
      simp only [List.append_assoc]
    rw [hassoc] at hsize ⊢
    have hpart : (done ++ before ++ toStr).length < 2147483648 := by
      rw [List.length_append] at hsize
      omega
    have hround := replaceRound_cut fromStr toStr done before after hfirst hpart
    rw [cStr_eq_self hnul] at hround
    rw [List.length_cons, run_again _ hround]
    exact ih (done ++ before ++ toStr) hsize

end Rounds

theorem replaced_of_run {fromStr toStr input : List α} {pieces : List (List α)}
    (hcuts : LeftmostCuts fromStr input pieces) (rounds : ℕ)
    (hrun : replaceString rounds input fromStr toStr = some (toStr.intercalate pieces)) :
    Replaced fromStr toStr input :=
  ⟨pieces, hcuts, fun _ h => hcuts.unique h, rounds, hrun⟩

theorem replaced_self {fromStr : List α} (hfrom : fromStr ≠ []) (input : List α) :
    Replaced fromStr fromStr input := by
  obtain ⟨pieces, hcuts⟩ := exists_leftmostCuts hfrom input
  refine replaced_of_run hcuts 0 ?_
  rw [replaceString, if_pos (Or.inr rfl), hcuts.join]

theorem replaced_of_run_replaceRound {fromStr toStr input : List α} (hfrom : fromStr ≠ [])
    {pieces : List (List α)} (hcuts : LeftmostCuts fromStr input pieces) (rounds : ℕ)
    (hrun : run (replaceRound fromStr toStr) rounds ⟨input, 0⟩ =
      some (toStr.intercalate pieces)) : Replaced fromStr toStr input := by
  by_cases hsame : fromStr = toStr
  · rw [hsame]
    exact replaced_self (hsame ▸ hfrom) input
  · refine replaced_of_run hcuts rounds ?_
    rw [replaceString, if_neg (not_or.mpr ⟨hfrom, hsame⟩), hrun]

theorem not_replaced_of_nul {fromStr toStr : List α} (hfrom : fromStr ≠ [])
    (hne : fromStr ≠ toStr) (hnul : nul ∈ toStr) (hsize : toStr.length < 2147483648) :
    ¬ Replaced fromStr toStr fromStr := by
  rintro ⟨pieces, hcuts, _, rounds, hrun⟩
  have hpieces : pieces = [[], []] := (leftmostCuts_self hfrom).unique hcuts
  have hfirst := replaceRound_cut fromStr toStr [] [] []
    (fun j hj => absurd hj (Nat.not_lt_zero j)) hsize
  simp only [List.nil_append, List.append_nil, List.length_nil, Int.natCast_zero] at hfirst
  have hshort := cStr_length_lt hnul
  have hstop : replaceRound fromStr toStr ⟨cStr toStr, toStr.length⟩ = .leave (cStr toStr) := by
    have hstart : size (toStr.length : ℤ) = toStr.length := size_natCast (by omega)
    simp only [replaceRound, hstart, findFrom, if_neg (Nat.not_le.mpr hshort)]
  have hactual : run (replaceRound fromStr toStr) 2 ⟨fromStr, 0⟩ = some (cStr toStr) := by
    rw [run_again _ hfirst, run_leave _ hstop]
  rw [replaceString, if_neg (not_or.mpr ⟨hfrom, hne⟩), hpieces] at hrun
  have heq := run_unique _ hactual hrun
  simp only [List.intercalate_cons_cons, List.intercalate_singleton, List.nil_append,
    List.append_nil] at heq
  rw [heq] at hshort
  exact Nat.lt_irrefl _ hshort

/-- For a string to be replaced and its replacement, every input is replaced as it should be
exactly if the replacement has no zero or is the same string. Inputs without an occurrence
always are. -/
theorem replaceString_all_iff (fromStr toStr : List α) (hfrom : fromStr ≠ [])
    (hfromSize : fromStr.length < 2147483648) (htoSize : toStr.length < 2147483648) :
    ((∀ input : List α, input.length < 2147483648 →
        (∀ pieces, LeftmostCuts fromStr input pieces →
          (toStr.intercalate pieces).length < 2147483648) →
        Replaced fromStr toStr input) ↔
      nul ∉ toStr ∨ fromStr = toStr) ∧
    ∀ input : List α, ¬ fromStr <:+: input → Replaced fromStr toStr input := by
  refine ⟨⟨?_, ?_⟩, ?_⟩
  · intro hall
    by_contra hbad
    rw [not_or, not_not] at hbad
    refine not_replaced_of_nul hfrom hbad.2 hbad.1 htoSize (hall fromStr hfromSize ?_)
    intro pieces hcuts
    rw [(leftmostCuts_self hfrom).unique hcuts]
    simpa [List.intercalate_cons_cons] using htoSize
  · rintro (hnul | rfl) input _ hresult
    · obtain ⟨pieces, hcuts⟩ := exists_leftmostCuts hfrom input
      exact replaced_of_run_replaceRound hfrom hcuts pieces.length
        (run_replaceRound fromStr toStr [] hnul input pieces hcuts (hresult pieces hcuts))
    · exact replaced_self hfrom input
  · intro input hnone
    have hround := replaceRound_last fromStr toStr [] input hnone (Nat.succ_pos _)
    refine replaced_of_run_replaceRound hfrom (.last input hnone) 1 ?_
    rw [List.intercalate_singleton]
    exact run_leave _ hround 0

end AnyWidth

section Concrete

attribute [local instance] sizeType64

/-- `aca` with `ba` for `a`: the replacement is not searched. -/
theorem replaced_aca :
    replaceString 3 ([97, 99, 97] : List Byte) [97] [98, 97] = some [98, 97, 99, 98, 97] ∧
      Replaced ([97] : List Byte) [98, 97] [97, 99, 97] := by
  have hcuts : LeftmostCuts ([97] : List Byte) [97, 99, 97] [[], [99], []] :=
    .cut [] [99, 97] _ (by decide) (.cut [99] [] _ (by decide) (.last [] (by decide)))
  have hiff := (replaceString_all_iff ([97] : List Byte) [98, 97] (by decide) (by decide)
    (by decide)).1
  refine ⟨by decide, hiff.mpr (Or.inl (by decide)) _ (by decide) ?_⟩
  intro pieces hpieces
  rw [hcuts.unique hpieces]
  decide

/-- The separator of `k1;k2` is to become a zero, and is removed. -/
theorem zero_not_inserted :
    replaceString 2 ([107, 49, 59, 107, 50] : List Byte) [59] [0] = some [107, 49, 107, 50] ∧
      ¬ Replaced ([59] : List Byte) [0] [107, 49, 59, 107, 50] := by
  have hactual : replaceString 2 ([107, 49, 59, 107, 50] : List Byte) [59] [0] =
      some [107, 49, 107, 50] := by decide
  have hcuts : LeftmostCuts ([59] : List Byte) [107, 49, 59, 107, 50] [[107, 49], [107, 50]] :=
    .cut [107, 49] [107, 50] _ (by decide) (.last [107, 50] (by decide))
  refine ⟨hactual, ?_⟩
  rintro ⟨pieces, hpieces, _, rounds, hrun⟩
  rw [hcuts.unique hpieces] at hrun
  have heq := run_unique _ hactual hrun
  revert heq
  decide

end Concrete

end BlackCat.Strop
