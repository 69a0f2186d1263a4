import BlackCat.Loops
import BlackCat.Strop
import Mathlib.Data.Nat.Bits

/-!
`SplitCsvString` reads its input through a raw cursor, in two nested loops. Each
of them stops at the terminating zero, but the inner one, between quotes, has
then moved the cursor past it: the outer loop goes on with what lies behind the
string. With an even number of quotes the zero is met by the outer loop.
-/
namespace BlackCat.Strop

open ByteMemory Loops TextSearch

variable {α : Type*} [DecidableEq α] [GeneralConstStrings α]

section AnyWidth

variable [SizeType]

/-- The variables of the loops. In the inner loop `quoted` is set. -/
structure CsvSplitting (α : Type*) where
  str : ℕ
  value : List α
  tmp : List (List α)
  quoted : Bool

/-- One round of the loop the cursor is in: it reads the cell at the cursor. The label `case 0`
cannot be reached, the condition of the loop having read the same cell. -/
def csvRound (cells : ℕ → α) (splitter : α) (s : CsvSplitting α) :
    Round (CsvSplitting α) (List (List α)) :=
  let ch := cells s.str
  if s.quoted then
    if ch = quote ∨ ch = nul then .again { s with str := s.str + 1, quoted := false }
    else .again { s with str := s.str + 1, value := s.value ++ [ch] }
  else if ch = nul then .leave (s.tmp ++ [trimString s.value])
  else if ch = quote then .again { s with str := s.str + 1, quoted := true }
  else if ch = splitter then .again ⟨s.str + 1, [], s.tmp ++ [trimString s.value], false⟩
  else .again { s with str := s.str + 1, value := s.value ++ [ch] }

def csvStart : CsvSplitting α := ⟨0, [], [], false⟩

/-- `SplitCsvString` of the string at the start of the memory. -/
def splitCsvString (rounds : ℕ) (cells : ℕ → α) (splitter : α) : Option (List (List α)) :=
  run (csvRound cells splitter) rounds csvStart

/-- The memory holds a string and its terminating zero; behind it is anything. -/
def Holding (input : List α) (cells : ℕ → α) : Prop :=
  ∀ i c, (input ++ [nul])[i]? = some c → cells i = c

/-- The characters of a text, each with whether it stands between quotes. -/
def quoteMarks : Bool → List α → List (α × Bool)
  | _, [] => []
  | inside, c :: rest =>
    (c, inside) :: quoteMarks (if c = quote then !inside else inside) rest

/-- A splitter outside quotes. -/
def isCut (splitter : α) (mark : α × Bool) : Bool := decide (mark.1 = splitter) && !mark.2

/-- The text of a field: its characters without the quotes. -/
def fieldText (marks : List (α × Bool)) : List α := (marks.map Prod.fst).filter (· ≠ quote)

/-- The texts between the splitters outside quotes. An unclosed quote extends to the end. -/
def csvFields (splitter : α) (inside : Bool) (text : List α) : List (List α) :=
  ((quoteMarks inside text).splitOnP (isCut splitter)).map fieldText

omit [SizeType] in
theorem length_csvFields (splitter : α) (inside : Bool) (text : List α) :
    (csvFields splitter inside text).length =
      (quoteMarks inside text).countP (isCut splitter) + 1 := by
  rw [csvFields, List.length_map, length_splitOnP]

/-- What a round does on a character of the input. -/
def advance (splitter : α) (s : CsvSplitting α) (c : α) : CsvSplitting α :=
  if s.quoted then
    if c = quote then { s with str := s.str + 1, quoted := false }
    else { s with str := s.str + 1, value := s.value ++ [c] }
  else if c = quote then { s with str := s.str + 1, quoted := true }
  else if c = splitter then ⟨s.str + 1, [], s.tmp ++ [trimString s.value], false⟩
  else { s with str := s.str + 1, value := s.value ++ [c] }

theorem csvRound_of_ne_nul (cells : ℕ → α) (splitter : α) (s : CsvSplitting α)
    (h : cells s.str ≠ nul) :
    csvRound cells splitter s = .again (advance splitter s (cells s.str)) := by
  unfold csvRound advance
  by_cases hquoted : s.quoted = true
  · simp only [hquoted, if_true, h, or_false]
    split <;> rfl
  · simp only [hquoted, if_false, h, Bool.false_eq_true]
    split
    · rfl
    · split <;> rfl

theorem csvRound_of_nul (cells : ℕ → α) (splitter : α) (s : CsvSplitting α)
    (h : cells s.str = nul) :
    csvRound cells splitter s =
      if s.quoted then .again { s with str := s.str + 1, quoted := false }
      else .leave (s.tmp ++ [trimString s.value]) := by
  simp only [csvRound, h, or_true, if_true]

section Fold

variable (splitter : α)

theorem advance_cases (s : CsvSplitting α) (c : α) :
    (c = quote ∧ advance splitter s c = { s with str := s.str + 1, quoted := !s.quoted }) ∨
    (c ≠ quote ∧ isCut splitter (c, s.quoted) = true ∧
      advance splitter s c =
        { s with str := s.str + 1, value := [], tmp := s.tmp ++ [trimString s.value] }) ∨
    (c ≠ quote ∧ isCut splitter (c, s.quoted) = false ∧
      advance splitter s c = { s with str := s.str + 1, value := s.value ++ [c] }) := by
  obtain ⟨str, value, tmp, quoted⟩ := s
  by_cases hc : c = quote
  · left
    cases quoted <;> simp [advance, hc]
  · right
    cases quoted with
    | true => simp [advance, isCut, hc]
    | false =>
      by_cases hsplit : c = splitter
      · subst hsplit
        simp [advance, isCut, hc]
      · simp [advance, isCut, hc, hsplit]

theorem str_foldl_advance (text : List α) (s : CsvSplitting α) :
    (text.foldl (advance splitter) s).str = s.str + text.length := by
  induction text generalizing s with
  | nil => rfl
  | cons c rest ih =>
    have hnext : (advance splitter s c).str = s.str + 1 := by
      rcases advance_cases splitter s c with ⟨_, heq⟩ | ⟨_, _, heq⟩ | ⟨_, _, heq⟩ <;> rw [heq]
    rw [List.foldl_cons, ih, hnext, List.length_cons]
    omega

theorem quoted_advance (s : CsvSplitting α) (c : α) :
    (advance splitter s c).quoted = if c = quote then !s.quoted else s.quoted := by
  rcases advance_cases splitter s c with ⟨hc, heq⟩ | ⟨hc, _, heq⟩ | ⟨hc, _, heq⟩
  · rw [heq, if_pos hc]
  · rw [heq, if_neg hc]
  · rw [heq, if_neg hc]

/-- The cursor is between quotes after an odd number of them. -/
theorem quoted_foldl_advance (text : List α) (s : CsvSplitting α) :
    (text.foldl (advance splitter) s).quoted = (s.quoted ^^ (text.count quote).bodd) := by
  induction text generalizing s with
  | nil => simp
  | cons c rest ih =>
    rw [List.foldl_cons, ih, quoted_advance]
    by_cases hc : c = quote
    · rw [if_pos hc, hc, List.count_cons_self, Nat.bodd_succ]
      cases s.quoted <;> simp
    · rw [if_neg hc, List.count_cons_of_ne hc]

omit [SizeType] in
theorem csvFields_cons (inside : Bool) (c : α) (rest : List α) :
    csvFields splitter inside (c :: rest) =
      if isCut splitter (c, inside) then
        [] :: csvFields splitter (if c = quote then !inside else inside) rest
      else (csvFields splitter (if c = quote then !inside else inside) rest).modifyHead
        (fieldText [(c, inside)] ++ ·) := by
  rw [csvFields, quoteMarks, List.splitOnP_cons_eq_if_modifyHead]
  by_cases hcut : isCut splitter (c, inside) = true
  · rw [if_pos hcut, if_pos hcut]
    rfl
  · rw [if_neg hcut, if_neg hcut, csvFields]
    cases (quoteMarks (if c = quote then !inside else inside) rest).splitOnP
        (isCut splitter) with
    | nil => rfl
    | cons piece pieces =>
      have hhead : fieldText ((c, inside) :: piece) =
          fieldText [(c, inside)] ++ fieldText piece := by
        simp only [fieldText, List.map_cons, List.map_nil, ← List.filter_append,
          List.singleton_append]
      simp only [List.modifyHead_cons, List.map_cons, hhead]

omit [SizeType] [DecidableEq α] [GeneralConstStrings α] in
theorem modifyHead_unchanged (fields : List (List α)) :
    fields.modifyHead (fun field => field) = fields :=
  congrFun List.modifyHead_id fields

theorem fields_foldl_advance (hquote : splitter ≠ quote) (text : List α) (s : CsvSplitting α) :
    (text.foldl (advance splitter) s).tmp ++
        [trimString (text.foldl (advance splitter) s).value] =
      s.tmp ++ ((csvFields splitter s.quoted text).modifyHead (s.value ++ ·)).map trimString := by
  induction text generalizing s with
  | nil => simp [csvFields, quoteMarks, fieldText]
  | cons c rest ih =>
    rw [List.foldl_cons, ih, csvFields_cons]
    rcases advance_cases splitter s c with ⟨hc, heq⟩ | ⟨hc, hcut, heq⟩ | ⟨hc, hcut, heq⟩
    · have hnot : isCut splitter (c, s.quoted) = false := by
        simp [isCut, hc, hquote.symm]
      have hempty : fieldText [(c, s.quoted)] = [] := by
        simp [fieldText, hc]
      simp only [heq, if_pos hc, hnot, hempty, Bool.false_eq_true, if_false,
        List.modifyHead_modifyHead, Function.comp_def, List.nil_append]
    · simp only [heq, if_neg hc, hcut, if_true, List.modifyHead_cons, List.append_nil,
        List.map_cons, List.append_assoc, List.singleton_append, List.nil_append,
        modifyHead_unchanged]
    · have hone : fieldText [(c, s.quoted)] = [c] := by
        simp [fieldText, hc]
      simp only [heq, if_neg hc, hcut, hone, Bool.false_eq_true, if_false,
        List.modifyHead_modifyHead, Function.comp_def, List.append_assoc]

end Fold

section Memory

variable {splitter : α} {cells : ℕ → α}

theorem visits_foldl_advance (text : List α) (s : CsvSplitting α)
    (hcells : ∀ i c, text[i]? = some c → cells (s.str + i) = c) (hnul : nul ∉ text) :
    Visits (csvRound cells splitter) s (text.foldl (advance splitter) s) ∧
      ∀ n, run (csvRound cells splitter) (text.length + n) s =
        run (csvRound cells splitter) n (text.foldl (advance splitter) s) := by
  induction text generalizing s with
  | nil => exact ⟨.start, fun n => by rw [List.length_nil, Nat.zero_add]; rfl⟩
  | cons c rest ih =>
    rw [List.mem_cons, not_or] at hnul
    have hc : cells s.str = c := hcells 0 c rfl
    have hround := csvRound_of_ne_nul cells splitter s (by rw [hc]; exact Ne.symm hnul.1)
    rw [hc] at hround
    have hstr := str_foldl_advance splitter [c] s
    have hrest : ∀ i d, rest[i]? = some d → cells ((advance splitter s c).str + i) = d := by
      intro i d hd
      rw [List.foldl_cons, List.foldl_nil, List.length_singleton] at hstr
      rw [hstr, Nat.add_assoc, Nat.add_comm 1]
      exact hcells (i + 1) d hd
    obtain ⟨hvisits, hrun⟩ := ih (advance splitter s c) hrest hnul.2
    refine ⟨hvisits.head hround, ?_⟩
    intro n
    rw [List.length_cons, Nat.add_right_comm, run_again _ hround, List.foldl_cons, hrun]

omit [SizeType] [DecidableEq α] in
theorem Holding.cells_of_append {input : List α} (h : Holding input cells) (done rest : List α)
    (c : α) (hsplit : input ++ [nul] = done ++ c :: rest) : cells done.length = c := by
  apply h
  rw [hsplit, List.getElem?_append_right (Nat.le_refl _), Nat.sub_self]
  rfl

omit [SizeType] [DecidableEq α] in
theorem Holding.cells_text {input : List α} (h : Holding input cells) (i : ℕ) (c : α)
    (hc : input[i]? = some c) : cells ((csvStart : CsvSplitting α).str + i) = c := by
  apply h
  obtain ⟨hi, _⟩ := List.getElem?_eq_some_iff.mp hc
  rw [csvStart, Nat.zero_add, List.getElem?_append_left hi, hc]

/-- The state in which the cursor stands on the terminating zero. -/
def csvLast (splitter : α) (input : List α) : CsvSplitting α :=
  input.foldl (advance splitter) csvStart

theorem str_csvLast (splitter : α) (input : List α) :
    (csvLast splitter input).str = input.length := by
  rw [csvLast, str_foldl_advance, csvStart, Nat.zero_add]

theorem quoted_csvLast (splitter : α) (input : List α) :
    (csvLast splitter input).quoted = (input.count quote).bodd := by
  rw [csvLast, quoted_foldl_advance, csvStart, Bool.false_xor]

theorem Holding.csvRound_csvLast {input : List α} (h : Holding input cells) (splitter : α) :
    csvRound cells splitter (csvLast splitter input) =
      if (input.count quote).bodd then
        .again { csvLast splitter input with
          str := (csvLast splitter input).str + 1, quoted := false }
      else
        .leave ((csvLast splitter input).tmp ++ [trimString (csvLast splitter input).value]) := by
  have hzero : cells (csvLast splitter input).str = nul := by
    rw [str_csvLast]
    exact h.cells_of_append input [] nul rfl
  rw [csvRound_of_nul cells splitter _ hzero, quoted_csvLast]

/-- With the quotes closed no round reads behind the terminating zero. -/
theorem Holding.str_le_of_visits {input : List α} (h : Holding input cells) (hnul : nul ∉ input)
    (heven : (input.count quote).bodd = false) {s : CsvSplitting α}
    (hvisits : Visits (csvRound cells splitter) csvStart s) : s.str ≤ input.length := by
  have hinv : ∃ done rest, input = done ++ rest ∧ s = done.foldl (advance splitter) csvStart := by
    refine hvisits.invariant
      (fun t => ∃ done rest, input = done ++ rest ∧ t = done.foldl (advance splitter) csvStart)
      ?_ ⟨[], input, rfl, rfl⟩
    rintro a b ⟨done, rest, hsplit, rfl⟩ hround
    cases rest with
    | nil =>
      rw [List.append_nil] at hsplit
      have hlast := h.csvRound_csvLast splitter
      rw [heven, if_neg Bool.false_ne_true, csvLast, hsplit, hround] at hlast
      cases hlast
    | cons c rest =>
      have hstr := str_foldl_advance splitter done csvStart
      have hc : cells (done.foldl (advance splitter) csvStart).str = c := by
        rw [hstr, csvStart, Nat.zero_add]
        exact h.cells_of_append done (rest ++ [nul]) c (by rw [hsplit]; simp)
      have hne : c ≠ nul := by
        rintro rfl
        exact hnul (hsplit ▸ List.mem_append_right done List.mem_cons_self)
      rw [csvRound_of_ne_nul cells splitter _ (by rw [hc]; exact hne), hc] at hround
      cases hround
      exact ⟨done ++ [c], rest, by simp [hsplit], by simp [List.foldl_append]⟩
  obtain ⟨done, rest, hsplit, rfl⟩ := hinv
  rw [str_foldl_advance, csvStart, Nat.zero_add, hsplit, List.length_append]
  exact Nat.le_add_right _ _

theorem Holding.splitCsvString_eq {input : List α} (h : Holding input cells)
    (hquote : splitter ≠ quote) (hnul : nul ∉ input)
    (heven : (input.count quote).bodd = false) :
    splitCsvString (input.length + 1) cells splitter =
      some ((csvFields splitter false input).map trimString) := by
  have hlast := h.csvRound_csvLast splitter
  rw [heven, if_neg Bool.false_ne_true] at hlast
  have hfields := fields_foldl_advance splitter hquote input csvStart
  simp only [csvStart, List.nil_append, modifyHead_unchanged] at hfields
  rw [splitCsvString, (visits_foldl_advance input csvStart h.cells_text hnul).2]
  exact (run_leave _ hlast 0).trans (congrArg some hfields)

theorem Holding.exists_visits_behind {input : List α} (h : Holding input cells) (splitter : α)
    (hnul : nul ∉ input) (hodd : (input.count quote).bodd = true) :
    ∃ s, Visits (csvRound cells splitter) csvStart s ∧ s.str = input.length + 1 := by
  have hlast := h.csvRound_csvLast splitter
  rw [hodd, if_pos rfl] at hlast
  refine ⟨_, .next (visits_foldl_advance input csvStart h.cells_text hnul).1 hlast, ?_⟩
  rw [str_csvLast]

end Memory

omit [SizeType] in
theorem length_le_of_mem_csvFields (splitter : α) (input : List α) :
    ∀ field ∈ csvFields splitter false input, field.length ≤ input.length := by
  have hmarks : ∀ inside, (quoteMarks inside input).length = input.length := by
    induction input with
    | nil => exact fun _ => rfl
    | cons c rest ih =>
      intro inside
      rw [quoteMarks, List.length_cons, ih, List.length_cons]
  intro field hfield
  obtain ⟨marks, hpiece, rfl⟩ := List.mem_map.mp hfield
  have hle := length_le_of_mem_splitOnP (isCut splitter) _ marks hpiece
  have hfilter : (fieldText marks).length ≤ (marks.map Prod.fst).length :=
    List.length_filter_le _ _
  rw [List.length_map] at hfilter
  rw [hmarks] at hle
  exact Nat.le_trans hfilter hle

/-- What a call on the string at the start of the memory owes: every cell that is read belongs
to the string or is its terminating zero, and the stripped fields are returned, one more than
there are splitters outside quotes. -/
structure CsvSplits (input : List α) (splitter : α) (cells : ℕ → α) : Prop where
  inside : ∀ s, Visits (csvRound cells splitter) csvStart s → s.str ≤ input.length
  fields : ∃ rounds, splitCsvString rounds cells splitter =
    some ((csvFields splitter false input).map (strip isBlank))
  count : (csvFields splitter false input).length =
    (quoteMarks false input).countP (isCut splitter) + 1

omit [SizeType] [DecidableEq α] in
theorem exists_holding (input : List α) : ∃ cells, Holding input cells := by
  refine ⟨fun i => (input ++ [nul])[i]?.getD nul, ?_⟩
  intro i c hc
  simp only [hc, Option.getD_some]

/-- Calls stay inside their input and return its fields, whatever lies behind it, exactly if the
quotes are closed and the fields can be trimmed. -/
theorem splitCsvString_iff (input : List α) (splitter : α) (hnul : nul ∉ input)
    (hquote : splitter ≠ quote) (hsize : input.length < 4294967296) :
    (∀ cells, Holding input cells → CsvSplits input splitter cells) ↔
      input.count quote % 2 = 0 ∧ ∀ field ∈ csvFields splitter false input, Trims field := by
  have htrims : (csvFields splitter false input).map trimString =
      (csvFields splitter false input).map (strip isBlank) ↔
        ∀ field ∈ csvFields splitter false input, Trims field := by
    rw [List.map_inj_left]
    refine forall₂_congr fun field hfield => trimString_eq_strip_iff field ?_
    exact Nat.lt_of_le_of_lt (length_le_of_mem_csvFields splitter input field hfield) hsize
  rw [Nat.mod_two_of_bodd, ← htrims]
  constructor
  · intro hall
    obtain ⟨cells, hcells⟩ := exists_holding input
    have hsplits := hall cells hcells
    cases hparity : (input.count quote).bodd with
    | true =>
      obtain ⟨s, hvisits, hstr⟩ := hcells.exists_visits_behind splitter hnul hparity
      have hle := hsplits.inside s hvisits
      omega
    | false =>
      obtain ⟨rounds, hrun⟩ := hsplits.fields
      exact ⟨rfl, run_unique _ (hcells.splitCsvString_eq hquote hnul hparity) hrun⟩
  · rintro ⟨hparity, hfields⟩ cells hcells
    have heven : (input.count quote).bodd = false := by
      cases hbodd : (input.count quote).bodd with
      | false => rfl
      | true =>
        rw [hbodd] at hparity
        cases hparity
    refine ⟨fun s hvisits => hcells.str_le_of_visits hnul heven hvisits, ?_,
      length_csvFields splitter false input⟩
    exact ⟨_, (hcells.splitCsvString_eq hquote hnul heven).trans (congrArg some hfields)⟩

end AnyWidth

section Concrete

attribute [local instance] sizeType64

/-- A field with a quoted comma. -/
theorem splitCsvString_quoted_comma :
    csvFields 44 false ([97, 44, 34, 98, 44, 99, 34] : List Byte) = [[97], [98, 44, 99]] ∧
      ∀ cells, Holding ([97, 44, 34, 98, 44, 99, 34] : List Byte) cells →
        CsvSplits [97, 44, 34, 98, 44, 99, 34] 44 cells := by
  have hshort : ∀ field ∈ csvFields 44 false ([97, 44, 34, 98, 44, 99, 34] : List Byte),
      field.length < 2147483648 := by decide
  exact ⟨by decide, (splitCsvString_iff ([97, 44, 34, 98, 44, 99, 34] : List Byte) 44 (by decide)
    (by decide) (by decide)).mpr ⟨by decide, fun field hfield => Or.inl (hshort field hfield)⟩⟩

/-- The quote of `"a` is not closed, and the call takes the `x` behind the string for a part of
the field. -/
theorem csv_reads_behind_input :
    Holding ([34, 97] : List Byte) (fun i => [34, 97, 0, 120].getD i 0) ∧
      splitCsvString 5 (fun i => [34, 97, 0, 120].getD i 0) (44 : Byte) = some [[97, 120]] ∧
      ¬ CsvSplits ([34, 97] : List Byte) 44 (fun i => [34, 97, 0, 120].getD i 0) := by
  have hactual : splitCsvString 5 (fun i => [34, 97, 0, 120].getD i 0) (44 : Byte) =
      some [[97, 120]] := by decide
  refine ⟨?_, hactual, ?_⟩
  · intro i c hc
    obtain ⟨hi, _⟩ := List.getElem?_eq_some_iff.mp hc
    rcases i with _ | _ | _ | i
    · cases hc
      rfl
    · cases hc
      rfl
    · cases hc
      rfl
    · have hbound : i + 1 + 1 + 1 < 3 := hi
      omega
  · intro hsplits
    obtain ⟨rounds, hrun⟩ := hsplits.fields
    have heq := run_unique _ hactual hrun
    revert heq
    decide

end Concrete

end BlackCat.Strop
