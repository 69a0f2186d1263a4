import Mathlib.Data.List.DropRight
import Mathlib.Data.List.Infix

/-!
Searching, stripping and splitting of texts over any type of characters. A
search gives the first position of a pattern; a text without a character and a
text cut at the first occurrence of it are the two cases of an induction that
follows what a splitting loop does.
-/
namespace BlackCat.TextSearch

variable {α : Type*}

theorem intercalate_cons_of_ne_nil (sep piece : List α) {pieces : List (List α)}
    (h : pieces ≠ []) :
    sep.intercalate (piece :: pieces) = piece ++ (sep ++ sep.intercalate pieces) := by
  cases pieces with
  | nil => exact absurd rfl h
  | cons next pieces => rw [List.intercalate_cons_cons, List.append_assoc]

/-- The pieces of a text between the occurrences of a pattern, each the first after the one
before it. -/
inductive LeftmostCuts (pattern : List α) : List α → List (List α) → Prop
  | last (text : List α) : ¬ pattern <:+: text → LeftmostCuts pattern text [text]
  | cut (before after : List α) (pieces : List (List α)) :
      (∀ j < before.length, ¬ pattern <+: (before ++ (pattern ++ after)).drop j) →
      LeftmostCuts pattern after pieces →
      LeftmostCuts pattern (before ++ (pattern ++ after)) (before :: pieces)

theorem LeftmostCuts.ne_nil {pattern text : List α} {pieces : List (List α)}
    (h : LeftmostCuts pattern text pieces) : pieces ≠ [] := by
  cases h with
  | last => exact List.cons_ne_nil _ _
  | cut => exact List.cons_ne_nil _ _

theorem leftmostCuts_self {pattern : List α} (hpattern : pattern ≠ []) :
    LeftmostCuts pattern pattern [[], []] := by
  have hcut : LeftmostCuts pattern ([] ++ (pattern ++ [])) [[], []] :=
    .cut [] [] [[]] (fun j hj => absurd hj (Nat.not_lt_zero j)) (.last [] (by simpa using hpattern))
  rwa [List.nil_append, List.append_nil] at hcut

theorem LeftmostCuts.join {pattern text : List α} {pieces : List (List α)}
    (h : LeftmostCuts pattern text pieces) : pattern.intercalate pieces = text := by
  induction h with
  | last text _ => exact List.intercalate_singleton
  | cut before after pieces _ hrest ih =>
    rw [intercalate_cons_of_ne_nil pattern before hrest.ne_nil, ih]

section Search

variable [DecidableEq α]

/-- The first position at which a pattern begins. -/
def indexOf (pattern : List α) : List α → Option ℕ
  | [] => if pattern = [] then some 0 else none
  | c :: rest => if pattern <+: c :: rest then some 0 else (indexOf pattern rest).map (· + 1)

/-- The first position at which a pattern begins, not before a given one. -/
def findFrom (text pattern : List α) (pos : ℕ) : Option ℕ :=
  if pos ≤ text.length then (indexOf pattern (text.drop pos)).map (pos + ·) else none

theorem findFrom_append (before rest pattern : List α) :
    findFrom (before ++ rest) pattern before.length =
      (indexOf pattern rest).map (before.length + ·) := by
  have hle : before.length ≤ (before ++ rest).length := by
    rw [List.length_append]
    exact Nat.le_add_right _ _
  rw [findFrom, if_pos hle, List.drop_left]

theorem indexOf_eq_none_iff {pattern text : List α} :
    indexOf pattern text = none ↔ ¬ pattern <:+: text := by
  induction text with
  | nil => simp [indexOf]
  | cons c rest ih =>
    rw [indexOf, List.infix_cons_iff, not_or]
    by_cases hhere : pattern <+: c :: rest
    · simp [hhere]
    · rw [if_neg hhere, Option.map_eq_none_iff, ih]
      exact (and_iff_right hhere).symm

theorem indexOf_eq_some {pattern text : List α} {i : ℕ} (h : indexOf pattern text = some i) :
    ∃ before after, text = before ++ (pattern ++ after) ∧ before.length = i ∧
      ∀ j < i, ¬ pattern <+: text.drop j := by
  induction text generalizing i with
  | nil =>
    rw [indexOf] at h
    by_cases hempty : pattern = []
    · rw [if_pos hempty] at h
      cases h
      exact ⟨[], [], by simp [hempty], rfl, fun j hj => absurd hj (Nat.not_lt_zero j)⟩
    · rw [if_neg hempty] at h
      cases h
  | cons c rest ih =>
    rw [indexOf] at h
    by_cases hhere : pattern <+: c :: rest
    · rw [if_pos hhere] at h
      cases h
      obtain ⟨after, hafter⟩ := hhere
      exact ⟨[], after, hafter.symm, rfl, fun j hj => absurd hj (Nat.not_lt_zero j)⟩
    · rw [if_neg hhere] at h
      obtain ⟨k, hk, rfl⟩ := Option.map_eq_some_iff.mp h
      obtain ⟨before, after, rfl, hlen, hfirst⟩ := ih hk
      refine ⟨c :: before, after, rfl, by rw [List.length_cons, hlen], ?_⟩
      intro j hj
      cases j with
      | zero => exact hhere
      | succ j => exact hfirst j (Nat.lt_of_succ_lt_succ hj)

theorem indexOf_of_first {pattern before after : List α}
    (hfirst : ∀ j < before.length, ¬ pattern <+: (before ++ (pattern ++ after)).drop j) :
    indexOf pattern (before ++ (pattern ++ after)) = some before.length := by
  induction before with
  | nil =>
    have hhere : pattern <+: pattern ++ after := List.prefix_append pattern after
    cases htext : pattern ++ after with
    | nil => simp [indexOf, (List.append_eq_nil_iff.mp htext).1]
    | cons c rest =>
      rw [htext] at hhere
      rw [List.nil_append, indexOf, if_pos hhere, List.length_nil]
  | cons c before ih =>
    have hnot := hfirst 0 (Nat.succ_pos _)
    rw [List.drop_zero, List.cons_append] at hnot
    have hlater := ih fun j hj => hfirst (j + 1) (Nat.succ_lt_succ hj)
    rw [List.cons_append, indexOf, if_neg hnot, hlater, Option.map_some, List.length_cons]

theorem indexOf_singleton_append {c : α} {before : List α} (hfree : c ∉ before)
    (after : List α) : indexOf [c] (before ++ c :: after) = some before.length := by
  induction before with
  | nil => simp [indexOf]
  | cons d before ih =>
    rw [List.mem_cons, not_or] at hfree
    have hnot : ¬ [c] <+: d :: (before ++ c :: after) := by
      rw [List.cons_prefix_cons]
      exact fun hhere => hfree.1 hhere.1
    rw [List.cons_append, indexOf, if_neg hnot, ih hfree.2]
    rfl

theorem indexOf_singleton_eq_none {c : α} {text : List α} (hfree : c ∉ text) :
    indexOf [c] text = none :=
  indexOf_eq_none_iff.mpr fun hin => hfree (hin.subset (List.mem_singleton_self c))

theorem exists_leftmostCuts {pattern : List α} (hpattern : pattern ≠ []) (text : List α) :
    ∃ pieces, LeftmostCuts pattern text pieces := by
  induction hlen : text.length using Nat.strong_induction_on generalizing text with
  | _ n ih =>
    cases hindex : indexOf pattern text with
    | none => exact ⟨[text], .last text (indexOf_eq_none_iff.mp hindex)⟩
    | some i =>
      obtain ⟨before, after, rfl, rfl, hfirst⟩ := indexOf_eq_some hindex
      have hpos := List.length_pos_of_ne_nil hpattern
      have hshorter : after.length < n := by
        rw [← hlen, List.length_append, List.length_append]
        omega
      obtain ⟨pieces, hpieces⟩ := ih after.length hshorter after rfl
      exact ⟨before :: pieces, .cut before after pieces hfirst hpieces⟩

theorem LeftmostCuts.unique {pattern text : List α} {pieces other : List (List α)}
    (h : LeftmostCuts pattern text pieces) (h' : LeftmostCuts pattern text other) :
    other = pieces := by
  induction h generalizing other with
  | last text hnone =>
    have hindex := indexOf_eq_none_iff.mpr hnone
    generalize htext : text = same at h'
    cases h' with
    | last => rfl
    | cut before after pieces hfirst hrest =>
      rw [htext, indexOf_of_first hfirst] at hindex
      cases hindex
  | cut before after pieces hfirst hrest ih =>
    have hindex := indexOf_of_first hfirst
    generalize htext : before ++ (pattern ++ after) = same at h' hindex
    cases h' with
    | last _ hnone =>
      rw [indexOf_eq_none_iff.mpr hnone] at hindex
      cases hindex
    | cut before' after' pieces' hfirst' hrest' =>
      rw [indexOf_of_first hfirst'] at hindex
      obtain ⟨rfl, htail⟩ := List.append_inj htext (Option.some.inj hindex).symm
      obtain rfl := List.append_cancel_left htail
      rw [ih hrest']

end Search

section Strip

variable (blank : α → Bool)

/-- A text without the blanks around it. -/
def strip (text : List α) : List α := (text.rdropWhile blank).dropWhile blank

theorem length_strip_le (text : List α) : (strip blank text).length ≤ text.length :=
  Nat.le_trans (List.dropWhile_suffix blank).length_le
    (List.rdropWhile_prefix blank text).length_le

theorem mem_of_mem_strip {text : List α} {c : α} (h : c ∈ strip blank text) : c ∈ text :=
  (List.rdropWhile_prefix blank text).subset ((List.dropWhile_suffix blank).subset h)

theorem mem_strip_of_not_blank {text : List α} {c : α} (hc : c ∈ text) (h : blank c = false) :
    c ∈ strip blank text := by
  have hright : text.rdropWhile blank ++ text.rtakeWhile blank = text :=
    List.rdropWhile_append_rtakeWhile
  rw [← hright, List.mem_append] at hc
  have hleft := List.takeWhile_append_dropWhile (p := blank) (l := text.rdropWhile blank)
  rcases hc with hmem | hblank
  · rw [← hleft, List.mem_append] at hmem
    rcases hmem with hblank | hmem
    · have htrue := List.mem_takeWhile_imp hblank
      rw [h] at htrue
      cases htrue
    · exact hmem
  · have htrue := List.mem_rtakeWhile_imp hblank
    rw [h] at htrue
    cases htrue

theorem head?_strip {c : α} (h : blank c = false) (rest : List α) :
    (strip blank (c :: rest)).head? = some c := by
  have hne : (c :: rest).rdropWhile blank ≠ [] := by
    intro hnil
    have hblank := List.rdropWhile_eq_nil_iff.mp hnil c List.mem_cons_self
    rw [h] at hblank
    cases hblank
  obtain ⟨first, more, hcons⟩ := List.exists_cons_of_ne_nil hne
  have hfirst : first = c := by
    have hpart := List.rdropWhile_prefix blank (c :: rest)
    rw [hcons, List.cons_prefix_cons] at hpart
    exact hpart.1
  rw [strip, hcons, hfirst, List.dropWhile_cons_of_neg (by rw [h]; exact Bool.false_ne_true)]
  rfl

theorem strip_eq_nil_iff (text : List α) : strip blank text = [] ↔ ∀ c ∈ text, blank c := by
  constructor
  · intro h c hc
    by_contra hnot
    have hmem := mem_strip_of_not_blank blank hc (Bool.eq_false_iff.mpr hnot)
    rw [h] at hmem
    exact List.not_mem_nil hmem
  · intro h
    rw [strip, List.dropWhile_eq_nil_iff]
    intro c hc
    exact h c ((List.rdropWhile_prefix blank text).subset hc)

end Strip

section Split

theorem length_splitOnP (p : α → Bool) (text : List α) :
    (text.splitOnP p).length = text.countP p + 1 := by
  induction text with
  | nil => rfl
  | cons c rest ih =>
    rw [List.splitOnP_cons_eq_if_modifyHead]
    by_cases hc : p c = true
    · rw [if_pos hc, List.length_cons, ih, List.countP_cons_of_pos hc]
    · rw [if_neg hc, List.length_modifyHead, ih, List.countP_cons_of_neg hc]

theorem length_le_of_mem_splitOnP (p : α → Bool) (text : List α) :
    ∀ piece ∈ text.splitOnP p, piece.length ≤ text.length := by
  induction text with
  | nil => simp
  | cons c rest ih =>
    have hlater : ∀ piece ∈ rest.splitOnP p, piece.length ≤ (c :: rest).length :=
      fun piece hpiece => Nat.le_succ_of_le (ih piece hpiece)
    rw [List.splitOnP_cons_eq_if_modifyHead]
    by_cases hc : p c = true
    · rw [if_pos hc]
      exact List.forall_mem_cons.mpr ⟨Nat.zero_le _, hlater⟩
    · rw [if_neg hc]
      cases hpieces : rest.splitOnP p with
      | nil => simp
      | cons first pieces =>
        rw [hpieces] at ih hlater
        rw [List.modifyHead_cons]
        refine List.forall_mem_cons.mpr ⟨Nat.succ_le_succ (ih first List.mem_cons_self), ?_⟩
        exact (List.forall_mem_cons.mp hlater).2

theorem split_induction (c : α) {motive : List α → Prop}
    (hfree : ∀ text, c ∉ text → motive text)
    (hcut : ∀ before after, c ∉ before → motive after → motive (before ++ c :: after))
    (text : List α) : motive text := by
  induction hlen : text.length using Nat.strong_induction_on generalizing text with
  | _ n ih =>
    by_cases hmem : c ∈ text
    · obtain ⟨before, after, rfl, hbefore⟩ := List.eq_append_cons_of_mem hmem
      refine hcut before after hbefore (ih after.length ?_ after rfl)
      rw [← hlen, List.length_append, List.length_cons]
      omega
    · exact hfree text hmem

variable [DecidableEq α]

theorem free_of_mem_splitOn (c : α) (text : List α) : ∀ piece ∈ text.splitOn c, c ∉ piece := by
  induction text using split_induction c with
  | hfree text h =>
    rw [List.splitOn_eq_singleton h]
    simpa using h
  | hcut before after h ih =>
    rw [List.splitOn_append_cons_self_of_not_mem h]
    exact List.forall_mem_cons.mpr ⟨h, ih⟩

theorem length_le_of_mem_splitOn (c : α) (text : List α) :
    ∀ piece ∈ text.splitOn c, piece.length ≤ text.length := by
  rw [List.splitOn_eq_splitOnP]
  exact length_le_of_mem_splitOnP _ text

theorem exists_mem_splitOn_iff (c : α) (text : List α) (d : α) :
    (∃ piece ∈ text.splitOn c, d ∈ piece) ↔ d ∈ text ∧ d ≠ c := by
  induction text using split_induction c with
  | hfree text h =>
    rw [List.splitOn_eq_singleton h]
    simp only [List.mem_singleton, exists_eq_left]
    refine (and_iff_left_of_imp ?_).symm
    rintro hd rfl
    exact h hd
  | hcut before after h ih =>
    rw [List.splitOn_append_cons_self_of_not_mem h, List.exists_mem_cons_iff, ih, List.mem_append,
      List.mem_cons]
    constructor
    · rintro (hbefore | ⟨hafter, hne⟩)
      · refine ⟨Or.inl hbefore, ?_⟩
        rintro rfl
        exact h hbefore
      · exact ⟨Or.inr (Or.inr hafter), hne⟩
    · rintro ⟨hbefore | rfl | hafter, hne⟩
      · exact Or.inl hbefore
      · exact absurd rfl hne
      · exact Or.inr ⟨hafter, hne⟩

theorem length_splitOn (c : α) (text : List α) :
    (text.splitOn c).length = text.count c + 1 := by
  rw [List.splitOn_eq_splitOnP, length_splitOnP]
  rfl

end Split

end BlackCat.TextSearch
