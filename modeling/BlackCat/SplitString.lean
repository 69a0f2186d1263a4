import BlackCat.Loops
import BlackCat.Strop

/-!
`SplitString` against the list of pieces between the splitters. The loop cuts
the input at one splitter after the other; the last piece is what is left,
empty if the input ends with a splitter. Each piece goes through one closure,
which trims it and drops it if it is empty, as the two flags say.
-/
namespace BlackCat.Strop

open ByteMemory Loops TextSearch

variable {α : Type*} [DecidableEq α] [GeneralConstStrings α]

section AnyWidth

variable [SizeType]

def addToVec (needNullStr needTrim : Bool) (tmp : List (List α)) (tmpStr : List α) :
    List (List α) :=
  let str := if needTrim then trimString tmpStr else tmpStr
  if str ≠ [] ∨ needNullStr = true then tmp ++ [str] else tmp

structure Splitting (α : Type*) where
  start : ℤ
  tmp : List (List α)

/-- One round: the piece before the next splitter, or the last one. -/
def splitRound (input : List α) (splitter : α) (needNullStr needTrim : Bool)
    (s : Splitting α) : Round (Splitting α) (List (List α)) :=
  match findFrom input [splitter] (size s.start) with
  | some pos =>
    let tmpStr := substr input (size s.start) (size (pos - s.start))
    .again ⟨int32 (pos + 1), addToVec needNullStr needTrim s.tmp tmpStr⟩
  | none =>
    let tmpStr := if size s.start ≠ input.length then input.drop (size s.start) else []
    .leave (addToVec needNullStr needTrim s.tmp tmpStr)

/-- `SplitString`, given a round for each character and one more. -/
def splitString (input : List α) (splitter : α) (needNullStr needTrim : Bool) :
    Option (List (List α)) :=
  run (splitRound input splitter needNullStr needTrim) (input.length + 1) ⟨0, []⟩

section Rounds

variable (splitter : α) (needNullStr needTrim : Bool) (done : List α) (tmp : List (List α))

theorem splitRound_cut (before after : List α) (hfree : splitter ∉ before)
    (hsize : (done ++ (before ++ splitter :: after)).length < 2147483648) :
    splitRound (done ++ (before ++ splitter :: after)) splitter needNullStr needTrim
        ⟨done.length, tmp⟩ =
      .again ⟨(done ++ before ++ [splitter]).length,
        addToVec needNullStr needTrim tmp before⟩ := by
  simp only [List.length_append, List.length_cons] at hsize
  have hstart : size (done.length : ℤ) = done.length := size_natCast (by omega)
  have hdiff : ((done.length + before.length : ℕ) : ℤ) - done.length = before.length := by
    omega
  have hcount : size (before.length : ℤ) = before.length := size_natCast (by omega)
  have hsum : ((done.length + before.length : ℕ) : ℤ) + 1 =
      ((done ++ before ++ [splitter]).length : ℕ) := by
    rw [List.length_append, List.length_append, List.length_singleton]
    rfl
  have hnext : int32 ((done ++ before ++ [splitter]).length : ℕ) =
      ((done ++ before ++ [splitter]).length : ℕ) := by
    apply int32_natCast
    rw [List.length_append, List.length_append, List.length_singleton]
    omega
  simp only [splitRound, hstart, findFrom_append, indexOf_singleton_append hfree,
    Option.map_some, hdiff, hcount, hsum, hnext]
  rw [substr, List.drop_left, List.take_left]

theorem splitRound_last (rest : List α) (hfree : splitter ∉ rest)
    (hsize : (done ++ rest).length < 2147483648) :
    splitRound (done ++ rest) splitter needNullStr needTrim ⟨done.length, tmp⟩ =
      .leave (addToVec needNullStr needTrim tmp rest) := by
  rw [List.length_append] at hsize
  have hstart : size (done.length : ℤ) = done.length := size_natCast (by omega)
  have hlast : (if done.length ≠ (done ++ rest).length then (done ++ rest).drop done.length
      else []) = rest := by
    rw [List.length_append, List.drop_left]
    cases rest with
    | nil => simp
    | cons c rest => simp
  simp only [splitRound, hstart, findFrom_append, indexOf_singleton_eq_none hfree,
    Option.map_none, hlast]

theorem run_splitRound (text : List α) (hsize : (done ++ text).length < 2147483648) :
    run (splitRound (done ++ text) splitter needNullStr needTrim) (text.count splitter + 1)
        ⟨done.length, tmp⟩ =
      some ((text.splitOn splitter).foldl (addToVec needNullStr needTrim) tmp) := by
  induction text using split_induction splitter generalizing done tmp with
  | hfree text hfree =>
    rw [run_leave _ (splitRound_last splitter needNullStr needTrim done tmp text hfree hsize),
      List.splitOn_eq_singleton hfree]
    rfl
  | hcut before after hfree ih =>
    have hassoc : done ++ (before ++ splitter :: after) =
        done ++ before ++ [splitter] ++ after := by
      simp
    have hround := splitRound_cut splitter needNullStr needTrim done tmp before after hfree hsize
    rw [List.count_append, List.count_eq_zero.mpr hfree, List.count_cons_self, Nat.zero_add,
      run_again _ hround, List.splitOn_append_cons_self_of_not_mem hfree, List.foldl_cons]
    rw [hassoc] at hsize ⊢
    exact ih (done ++ before ++ [splitter]) _ hsize

end Rounds

/-- The pieces that a call keeps: stripped if they are trimmed, and not empty unless empty
strings are wanted. -/
def kept (needNullStr needTrim : Bool) (pieces : List (List α)) : List (List α) :=
  (if needTrim then pieces.map (strip isBlank) else pieces).filter
    fun piece => needNullStr || piece ≠ []

omit [SizeType] in
theorem kept_cons (needNullStr needTrim : Bool) (piece : List α) (pieces : List (List α)) :
    kept needNullStr needTrim (piece :: pieces) =
      kept needNullStr needTrim [piece] ++ kept needNullStr needTrim pieces := by
  have happend := @List.filter_append (List α) (fun piece => needNullStr || piece ≠ [])
  cases needTrim with
  | false => exact happend [piece] pieces
  | true => exact happend [strip isBlank piece] (pieces.map (strip isBlank))

theorem addToVec_eq (needNullStr needTrim : Bool) (tmp : List (List α)) (piece : List α)
    (hsize : piece.length < 2147483648) :
    addToVec needNullStr needTrim tmp piece = tmp ++ kept needNullStr needTrim [piece] := by
  have hstr : (if needTrim then trimString piece else piece) =
      if needTrim then strip isBlank piece else piece := by
    rw [trimString_eq_strip piece hsize]
  have hkept : kept needNullStr needTrim [piece] =
      [if needTrim then strip isBlank piece else piece].filter
        fun piece => needNullStr || piece ≠ [] := by
    cases needTrim <;> rfl
  rw [addToVec, hstr, hkept, List.filter_singleton]
  cases needNullStr with
  | true => simp
  | false =>
    by_cases hempty : (if needTrim then strip isBlank piece else piece) = []
    · simp [hempty]
    · simp [hempty]

theorem foldl_addToVec (needNullStr needTrim : Bool) (pieces : List (List α))
    (hsize : ∀ piece ∈ pieces, piece.length < 2147483648) (tmp : List (List α)) :
    pieces.foldl (addToVec needNullStr needTrim) tmp =
      tmp ++ kept needNullStr needTrim pieces := by
  induction pieces generalizing tmp with
  | nil => cases needTrim <;> simp [kept]
  | cons piece rest ih =>
    rw [List.forall_mem_cons] at hsize
    rw [List.foldl_cons, ih hsize.2, addToVec_eq needNullStr needTrim tmp piece hsize.1,
      kept_cons needNullStr needTrim piece rest, List.append_assoc]

theorem splitString_eq (input : List α) (splitter : α) (needNullStr needTrim : Bool)
    (hsize : input.length < 2147483648) :
    splitString input splitter needNullStr needTrim =
      some (kept needNullStr needTrim (input.splitOn splitter)) := by
  have hrun := run_splitRound splitter needNullStr needTrim [] [] input hsize
  have hpieces : ∀ piece ∈ input.splitOn splitter, piece.length < 2147483648 :=
    fun piece hpiece => Nat.lt_of_le_of_lt (length_le_of_mem_splitOn splitter input piece hpiece)
      hsize
  rw [foldl_addToVec needNullStr needTrim _ hpieces, List.nil_append] at hrun
  exact run_mono _ (Nat.succ_le_succ List.count_le_length) hrun

/-- The pieces between the splitters: free of them, one more than there are, and joined by them
to the input. -/
structure Splits (input : List α) (splitter : α) (pieces : List (List α)) : Prop where
  free : ∀ piece ∈ pieces, splitter ∉ piece
  join : [splitter].intercalate pieces = input
  length : pieces.length = input.count splitter + 1

omit [SizeType] [GeneralConstStrings α] in
theorem splits_splitOn (input : List α) (splitter : α) :
    Splits input splitter (input.splitOn splitter) where
  free := free_of_mem_splitOn splitter input
  join := List.intercalate_splitOn splitter
  length := length_splitOn splitter input

omit [SizeType] [GeneralConstStrings α] in
theorem Splits.eq_splitOn {input : List α} {splitter : α} {pieces : List (List α)}
    (h : Splits input splitter pieces) : pieces = input.splitOn splitter := by
  have hne : pieces ≠ [] := by
    intro hnil
    have hlen := h.length
    rw [hnil] at hlen
    exact Nat.succ_ne_zero _ hlen.symm
  rw [← h.join, List.splitOn_intercalate splitter h.free hne]

/-- `SplitString` returns the pieces between the splitters, stripped and without the empty ones
as its flags say. -/
theorem splitString_pieces (input : List α) (splitter : α) (needNullStr needTrim : Bool)
    (hsize : input.length < 2147483648) :
    ∃ pieces, Splits input splitter pieces ∧
      (∀ other, Splits input splitter other → other = pieces) ∧
      splitString input splitter needNullStr needTrim =
        some (kept needNullStr needTrim pieces) ∧
      (needNullStr = true → needTrim = false →
        [splitter].intercalate (kept needNullStr needTrim pieces) = input) := by
  refine ⟨input.splitOn splitter, splits_splitOn input splitter, fun _ h => h.eq_splitOn,
    splitString_eq input splitter needNullStr needTrim hsize, ?_⟩
  rintro rfl rfl
  have hall : kept true false (input.splitOn splitter) = input.splitOn splitter := by
    simp [kept]
  rw [hall]
  exact List.intercalate_splitOn splitter

end AnyWidth

section Concrete

attribute [local instance] sizeType64

/-- The pieces of ` a,,b` are stripped, and the empty one is dropped. -/
theorem splitString_pieces_commas :
    splitString ([32, 97, 44, 44, 98] : List Byte) 44 false true = some [[97], [98]] ∧
      ∃ pieces, Splits ([32, 97, 44, 44, 98] : List Byte) 44 pieces ∧
        splitString ([32, 97, 44, 44, 98] : List Byte) 44 false true =
          some (kept false true pieces) := by
  obtain ⟨pieces, hsplits, _, heq, _⟩ :=
    splitString_pieces ([32, 97, 44, 44, 98] : List Byte) 44 false true (by decide)
  exact ⟨by decide, pieces, hsplits, heq⟩

end Concrete

end BlackCat.Strop
