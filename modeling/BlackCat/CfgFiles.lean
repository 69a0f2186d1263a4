import BlackCat.CfgReader

/-!
Whole files read by `CfgReader`. The loop applies the rule for lines to the
pieces that `fgets` gives it, and a line of 1000 bytes or more comes in several:
the rest of a long comment is read as a line of its own, and a long value is cut.
A file is read as its lines wherever the pieces of each line store what the line
stores.
-/
namespace BlackCat.Config

open ByteMemory Loops Strop TextSearch

/-- The pieces in which the loop reads a stream. -/
def pieces (stream : List Byte) : List (List Byte) :=
  match _h : fgets 1000 stream with
  | none => []
  | some (line, rest) => line :: pieces rest
termination_by stream.length
decreasing_by exact length_lt_of_fgets ‹_›

theorem pieces_nil : pieces [] = [] := by
  rw [pieces]
  rfl

theorem pieces_of_fgets {stream line rest : List Byte} (h : fgets 1000 stream = some (line, rest)) :
    pieces stream = line :: pieces rest := by
  rw [pieces]
  split
  · rename_i hnone
    rw [h] at hnone
    cases hnone
  · rename_i hsome
    rw [h] at hsome
    cases hsome
    rfl

/-- Entries stored one after the other, a later one for a key replacing an earlier. -/
def storeAll (content : List Byte → Option (List Byte)) (entries : List (List Byte × List Byte)) :
    List Byte → Option (List Byte) :=
  entries.foldl (fun stored entry => Function.update stored entry.1 (some entry.2)) content

def pieceEntries (stream : List Byte) : List (List Byte × List Byte) :=
  (pieces stream).filterMap lineEntry

theorem storeAll_append (content : List Byte → Option (List Byte))
    (first second : List (List Byte × List Byte)) :
    storeAll content (first ++ second) = storeAll (storeAll content first) second :=
  List.foldl_append

theorem store_eq_storeAll (content : List Byte → Option (List Byte))
    (entry : Option (List Byte × List Byte)) :
    store content entry = storeAll content entry.toList := by
  cases entry <;> rfl

theorem filterMap_lineEntry_cons (line : List Byte) (lines : List (List Byte)) :
    (line :: lines).filterMap lineEntry = (lineEntry line).toList ++ lines.filterMap lineEntry := by
  rw [List.filterMap_cons]
  cases lineEntry line <;> rfl

theorem pieceEntries_of_fgets {stream line rest : List Byte}
    (h : fgets 1000 stream = some (line, rest)) :
    pieceEntries stream = (lineEntry line).toList ++ pieceEntries rest := by
  rw [pieceEntries, pieces_of_fgets h, filterMap_lineEntry_cons, pieceEntries]

theorem run_readRound [SizeType] (stream : List Byte) (hnul : nul ∉ stream) (reader : CfgReader)
    (lineNo : ℤ) :
    ∃ rounds last, run readRound rounds ⟨reader, lineNo, stream⟩ = some last ∧
      last.content = storeAll reader.content (pieceEntries stream) := by
  induction hlen : stream.length using Nat.strong_induction_on
    generalizing stream reader lineNo with
  | _ n ih =>
    cases hgets : fgets 1000 stream with
    | none =>
      obtain rfl := eq_nil_of_fgets_none hgets
      refine ⟨1, reader, run_leave _ (readRound_nil reader lineNo) 0, ?_⟩
      rw [pieceEntries, pieces_nil]
      rfl
    | some taken =>
      obtain ⟨line, rest⟩ := taken
      obtain ⟨next, hround, hcontent⟩ := readRound_of_fgets ⟨reader, lineNo, stream⟩ hgets
      have hshorter : rest.length < n := hlen ▸ length_lt_of_fgets hgets
      rw [(fgets_some hgets).1, List.mem_append, not_or] at hnul
      obtain ⟨rounds, last, hrun, hlast⟩ := ih rest.length hshorter rest hnul.2 next _ rfl
      refine ⟨rounds + 1, last, (run_again _ hround rounds).trans hrun, ?_⟩
      rw [hlast, hcontent, cStr_eq_self hnul.1, store_eq_storeAll, ← storeAll_append,
        pieceEntries_of_fgets hgets]

theorem pieceEntries_short {text : List Byte} (hline : 10 ∉ text) (hlen : text.length < 1000) :
    pieceEntries text = (lineEntry text).toList := by
  by_cases hempty : text = []
  · rw [hempty, lineEntry_nil, pieceEntries, pieces_nil]
    rfl
  · rw [pieceEntries_of_fgets (fgets_last hline hempty (by omega)), pieceEntries, pieces_nil]
    exact List.append_nil _

theorem pieceEntries_append (text : List Byte) (hline : 10 ∉ text) (rest : List Byte) :
    pieceEntries (text ++ 10 :: rest) = pieceEntries text ++ pieceEntries rest := by
  induction hlen : text.length using Nat.strong_induction_on generalizing text with
  | _ n ih =>
    by_cases hfits : text.length < 999
    · rw [pieceEntries_of_fgets (fgets_line hline hfits rest), lineEntry_newline,
        pieceEntries_short hline (by omega)]
    · have hfull : 999 ≤ text.length := by omega
      have hshorter : (text.drop 999).length < n := by
        rw [List.length_drop]
        omega
      have hdrop : 10 ∉ text.drop 999 := fun hmem => hline (List.mem_of_mem_drop hmem)
      have hpart := fgets_part hline hfull []
      rw [List.append_nil, List.append_nil] at hpart
      rw [pieceEntries_of_fgets (fgets_part hline hfull (10 :: rest)),
        ih _ hshorter _ hdrop rfl, pieceEntries_of_fgets hpart, List.append_assoc]

/-- The pieces of a line store what the line stores: their entries have one key, and the last of
them is the entry of the line. -/
structure Whole (text : List Byte) : Prop where
  last : (pieceEntries text).getLast? = lineEntry text
  oneKey : ∀ entry ∈ pieceEntries text, ∀ other ∈ pieceEntries text, entry.1 = other.1

theorem whole_of_short {text : List Byte} (hline : 10 ∉ text) (hlen : text.length < 1000) :
    Whole text := by
  have hentries := pieceEntries_short hline hlen
  constructor
  · rw [hentries]
    cases lineEntry text <;> rfl
  · rw [hentries]
    cases lineEntry text with
    | none => simp
    | some entry => simp

theorem storeAll_of_ne {entries : List (List Byte × List Byte)} {key : List Byte}
    (hkeys : ∀ entry ∈ entries, key ≠ entry.1) (content : List Byte → Option (List Byte)) :
    storeAll content entries key = content key := by
  induction entries generalizing content with
  | nil => rfl
  | cons entry entries ih =>
    rw [List.forall_mem_cons] at hkeys
    exact (ih hkeys.2 _).trans (Function.update_of_ne hkeys.1 _ _)

theorem storeAll_concat_self (content : List Byte → Option (List Byte))
    (entries : List (List Byte × List Byte)) (entry : List Byte × List Byte) :
    storeAll content (entries ++ [entry]) entry.1 = some entry.2 := by
  rw [storeAll_append]
  exact Function.update_self _ _ _

theorem Whole.storeAll_eq {text : List Byte} (h : Whole text)
    (content : List Byte → Option (List Byte)) :
    storeAll content (pieceEntries text) = store content (lineEntry text) := by
  rcases List.eq_nil_or_concat' (pieceEntries text) with hnil | ⟨entries, entry, hconcat⟩
  · rw [← h.last, hnil]
    rfl
  · have hkeys := h.oneKey
    rw [← h.last, hconcat, List.getLast?_concat, store]
    rw [hconcat] at hkeys
    funext key
    by_cases hkey : key = entry.1
    · rw [hkey, storeAll_concat_self, Function.update_self]
    · rw [Function.update_of_ne hkey]
      apply storeAll_of_ne
      intro other hother
      rw [hkeys other hother entry (List.mem_append_right _ (List.mem_singleton_self entry))]
      exact hkey

theorem storeAll_ne_none {entries : List (List Byte × List Byte)} {entry : List Byte × List Byte}
    (hentry : entry ∈ entries) (content : List Byte → Option (List Byte)) :
    storeAll content entries entry.1 ≠ none := by
  induction entries using List.reverseRecOn with
  | nil => exact absurd hentry List.not_mem_nil
  | append_singleton entries last ih =>
    by_cases hkey : entry.1 = last.1
    · rw [hkey, storeAll_concat_self]
      exact Option.some_ne_none _
    · have hmem : entry ∈ entries := by
        rcases List.mem_append.mp hentry with hmem | hlast
        · exact hmem
        · exact absurd (congrArg Prod.fst (List.mem_singleton.mp hlast)) hkey
      rw [storeAll_append, storeAll_of_ne (by simpa using hkey)]
      exact ih hmem

theorem whole_of_storeAll_eq {text : List Byte}
    (h : storeAll (fun _ => none) (pieceEntries text) = store (fun _ => none) (lineEntry text)) :
    Whole text := by
  have hpresent : ∀ entry ∈ pieceEntries text,
      store (fun _ => none) (lineEntry text) entry.1 ≠ none := by
    intro entry hentry
    rw [← h]
    exact storeAll_ne_none hentry _
  cases hline : lineEntry text with
  | none =>
    have hnil : pieceEntries text = [] := by
      apply List.eq_nil_iff_forall_not_mem.mpr
      intro entry hentry
      have hsome := hpresent entry hentry
      rw [hline] at hsome
      exact hsome rfl
    exact ⟨by rw [hnil, hline]; rfl, by simp [hnil]⟩
  | some stored =>
    have hkey : ∀ entry ∈ pieceEntries text, entry.1 = stored.1 := by
      intro entry hentry
      by_contra hne
      have hsome := hpresent entry hentry
      rw [hline, store, Function.update_of_ne hne] at hsome
      exact hsome rfl
    refine ⟨?_, fun entry hentry other hother => (hkey entry hentry).trans (hkey other hother).symm⟩
    have hat := congrFun h stored.1
    rw [hline, store, Function.update_self] at hat
    rcases List.eq_nil_or_concat' (pieceEntries text) with hnil | ⟨entries, entry, hconcat⟩
    · rw [hnil] at hat
      cases hat
    · have hlast := hkey entry (by rw [hconcat]; simp)
      rw [hconcat, ← hlast, storeAll_concat_self] at hat
      rw [hconcat, List.getLast?_concat, hline, Prod.ext hlast (Option.some.inj hat)]

/-- Reading a file into an empty reader stores the entries of its lines, in order. -/
def ReadsLines [SizeType] (file : List Byte) : Prop :=
  ∃ rounds last, read rounds fresh (some file) = some (true, last) ∧
    last.content =
      storeAll (fun _ => none) (((skipBom file).splitOn 10).filterMap lineEntry)

theorem mem_of_mem_skipBom {file : List Byte} {c : Byte} (h : c ∈ skipBom file) : c ∈ file := by
  unfold skipBom at h
  split at h
  · exact List.mem_of_mem_drop h
  · exact h

theorem exists_read [SizeType] (file : List Byte) (hnul : nul ∉ file) :
    ∃ rounds last, read rounds fresh (some file) = some (true, last) ∧
      last.content = storeAll (fun _ => none) (pieceEntries (skipBom file)) := by
  obtain ⟨rounds, last, hrun, hcontent⟩ :=
    run_readRound (skipBom file) (fun hmem => hnul (mem_of_mem_skipBom hmem)) fresh 1
  refine ⟨rounds, last, ?_, hcontent⟩
  rw [read]
  exact congrArg _ hrun

theorem readsLines_iff [SizeType] (file : List Byte) (hnul : nul ∉ file) :
    ReadsLines file ↔ storeAll (fun _ => none) (pieceEntries (skipBom file)) =
      storeAll (fun _ => none) (((skipBom file).splitOn 10).filterMap lineEntry) := by
  obtain ⟨rounds, last, hread, hcontent⟩ := exists_read file hnul
  constructor
  · rintro ⟨rounds', last', hread', hcontent'⟩
    obtain ⟨_, hrun, hlast⟩ := Option.map_eq_some_iff.mp hread
    obtain ⟨_, hrun', hlast'⟩ := Option.map_eq_some_iff.mp hread'
    cases hlast
    cases hlast'
    rw [← hcontent, ← hcontent', run_unique _ hrun hrun']
  · intro heq
    exact ⟨rounds, last, hread, hcontent.trans heq⟩

theorem storeAll_pieceEntries (body : List Byte) (hwhole : ∀ line ∈ body.splitOn 10, Whole line)
    (content : List Byte → Option (List Byte)) :
    storeAll content (pieceEntries body) =
      storeAll content ((body.splitOn 10).filterMap lineEntry) := by
  induction body using split_induction (10 : Byte) generalizing content with
  | hfree text hline =>
    rw [List.splitOn_eq_singleton hline] at hwhole ⊢
    rw [(hwhole text (List.mem_singleton_self text)).storeAll_eq, store_eq_storeAll,
      filterMap_lineEntry_cons]
    exact congrArg (storeAll content) (List.append_nil _).symm
  | hcut before after hline ih =>
    rw [List.splitOn_append_cons_self_of_not_mem hline] at hwhole ⊢
    rw [List.forall_mem_cons] at hwhole
    rw [pieceEntries_append before hline, storeAll_append, hwhole.1.storeAll_eq, ih hwhole.2,
      filterMap_lineEntry_cons, storeAll_append, store_eq_storeAll]

/-- All files made of some lines are read as their lines exactly if the pieces of each of these
lines store what the line stores. Lines shorter than the buffer do. -/
theorem files_read_iff [SizeType] (lines : List (List Byte))
    (hlines : ∀ line ∈ lines, 10 ∉ line ∧ nul ∉ line) :
    ((∀ file, nul ∉ file → (∀ line ∈ (skipBom file).splitOn 10, line ∈ lines) →
        ReadsLines file) ↔ ∀ line ∈ lines, Whole line) ∧
      ∀ line : List Byte, 10 ∉ line → line.length < 1000 → Whole line := by
  refine ⟨⟨?_, ?_⟩, fun line hline hlen => whole_of_short hline hlen⟩
  · intro hall line hmem
    obtain ⟨hline, hnul⟩ := hlines line hmem
    have hbody : skipBom ([239, 187, 191] ++ line) = line := rfl
    have hmarked : nul ∉ [239, 187, 191] ++ line := by
      rw [List.mem_append, not_or]
      exact ⟨by decide, hnul⟩
    have hread := hall ([239, 187, 191] ++ line) hmarked (by
      rw [hbody, List.splitOn_eq_singleton hline]
      simpa using hmem)
    rw [readsLines_iff _ hmarked, hbody, List.splitOn_eq_singleton hline,
      filterMap_lineEntry_cons] at hread
    apply whole_of_storeAll_eq
    rw [hread, store_eq_storeAll]
    exact congrArg (storeAll _) (List.append_nil _)
  · intro hwhole file hnul hfile
    rw [readsLines_iff file hnul]
    exact storeAll_pieceEntries _ (fun line hline => hwhole line (hfile line hline)) _

section Concrete

attribute [local instance] sizeType64

/-- A file of the line `a=b` and an empty one. -/
theorem two_lines_read : ReadsLines [97, 61, 98, 10] := by
  have hfiles := files_read_iff [[97, 61, 98], []] (by decide)
  refine hfiles.1.mpr ?_ [97, 61, 98, 10] (by decide) (by decide)
  intro line hline
  have hshort : ∀ line ∈ ([[97, 61, 98], []] : List (List Byte)),
      10 ∉ line ∧ line.length < 1000 := by decide
  exact hfiles.2 line (hshort line hline).1 (hshort line hline).2

/-- A comment of 1002 bytes, of which the last three are `a=b`. -/
def longComment : List Byte := 35 :: (List.replicate 998 120 ++ [97, 61, 98])

theorem mem_longComment {c : Byte} (h : c ∈ longComment) : c ∈ [35, 120, 97, 61, 98] := by
  rw [longComment, List.mem_cons, List.mem_append, List.mem_replicate] at h
  rcases h with rfl | ⟨_, rfl⟩ | hend
  · decide
  · decide
  · exact List.mem_cons_of_mem _ (List.mem_cons_of_mem _ hend)

theorem lineEntry_comment (rest : List Byte) : lineEntry (35 :: rest) = none := by
  apply lineEntry_skipped
  exact Or.inr (head?_strip isBlank (by decide) rest)

theorem skipBom_longComment : skipBom longComment = longComment := by
  rw [skipBom, if_neg]
  rw [longComment, List.take_succ_cons]
  intro h
  exact absurd (List.cons.inj h).1 (by decide)

theorem pieceEntries_longComment : pieceEntries longComment = [([97], [98])] := by
  have hsplit : longComment = (35 :: List.replicate 998 120) ++ [97, 61, 98] := rfl
  have hlen : (35 :: List.replicate 998 (120 : Byte)).length = 999 := by
    rw [List.length_cons, List.length_replicate]
  have hline : 10 ∉ longComment := fun hmem => absurd (mem_longComment hmem) (by decide)
  have hfull : 999 ≤ longComment.length := by
    rw [hsplit, List.length_append, hlen]
    exact Nat.le_add_right _ _
  have hpart := fgets_part hline hfull []
  rw [List.append_nil, List.append_nil, hsplit, List.take_left' hlen, List.drop_left' hlen,
    ← hsplit] at hpart
  rw [pieceEntries_of_fgets hpart, lineEntry_comment,
    pieceEntries_short (by decide) (by decide)]
  decide

/-- The end of a long comment is stored as an entry. -/
theorem long_comment_stored :
    lineEntry longComment = none ∧
      (∃ rounds last, read rounds fresh (some longComment) = some (true, last) ∧
        last.content [97] = some [98]) ∧
      ¬ ReadsLines longComment := by
  have hnul : nul ∉ longComment := fun hmem => absurd (mem_longComment hmem) (by decide)
  have hline : 10 ∉ longComment := fun hmem => absurd (mem_longComment hmem) (by decide)
  have hnone : lineEntry longComment = none := lineEntry_comment _
  have hstored : storeAll (fun _ => none) (pieceEntries (skipBom longComment)) [97] =
      some [98] := by
    rw [skipBom_longComment, pieceEntries_longComment]
    decide
  obtain ⟨rounds, last, hread, hcontent⟩ := exists_read longComment hnul
  refine ⟨hnone, ⟨rounds, last, hread, by rw [hcontent, hstored]⟩, ?_⟩
  rw [readsLines_iff longComment hnul]
  intro heq
  rw [heq, skipBom_longComment, List.splitOn_eq_singleton hline, filterMap_lineEntry_cons,
    hnone] at hstored
  cases hstored

end Concrete

end BlackCat.Config
