import BlackCat.CfgReader

/-!
The grammar of a configuration line, `key = value` with one equals sign, against
what `CfgReader` stores. The reader counts the parts that are left when the line
is split at all equals signs and the blank parts are dropped, so a line with
more of them is an entry too if all but two of its parts are blank. And a line
ends for the reader at a zero, as C strings do.
-/
namespace BlackCat.Config

open ByteMemory Loops Strop TextSearch

/-- A line that has an entry: stripped it is not empty and no comment, has one equals sign, and
something that is not blank on both sides of it. -/
structure IsEntry (text key value : List Byte) : Prop where
  nonempty : strip isBlank text ≠ []
  noComment : (strip isBlank text).head? ≠ some 35
  sides : ∃ left right, strip isBlank text = left ++ 61 :: right ∧ 61 ∉ left ∧ 61 ∉ right ∧
    (∃ c ∈ left, isBlank c = false) ∧ (∃ c ∈ right, isBlank c = false) ∧
    key = strip isBlank left ∧ value = strip isBlank right

theorem kept_trimmed (pieces : List (List Byte)) :
    kept false true pieces = (pieces.map (strip isBlank)).filter (· ≠ []) := by
  simp [kept]

theorem strip_ne_nil_iff (text : List Byte) :
    strip isBlank text ≠ [] ↔ ∃ c ∈ text, isBlank c = false := by
  rw [ne_eq, strip_eq_nil_iff]
  simp

theorem splitOn_two {left right : List Byte} (hleft : 61 ∉ left) (hright : 61 ∉ right) :
    (left ++ 61 :: right).splitOn 61 = [left, right] := by
  rw [List.splitOn_append_cons_self_of_not_mem hleft, List.splitOn_eq_singleton hright]

theorem lineEntry_two {text left right : List Byte} (hne : strip isBlank text ≠ [])
    (hcomment : (strip isBlank text).head? ≠ some 35)
    (hl : strip isBlank text = left ++ 61 :: right) (hleft : 61 ∉ left) (hright : 61 ∉ right) :
    lineEntry text =
      if strip isBlank left ≠ [] ∧ strip isBlank right ≠ [] then
        some (strip isBlank left, strip isBlank right)
      else none := by
  have hkept : kept false true ((strip isBlank text).splitOn 61) =
      [strip isBlank left, strip isBlank right].filter (· ≠ []) := by
    rw [hl, splitOn_two hleft hright, kept_trimmed]
    rfl
  simp only [lineEntry, if_neg (not_or.mpr ⟨hne, hcomment⟩), hkept]
  by_cases hone : strip isBlank left = []
  · by_cases htwo : strip isBlank right = []
    · simp [hone, htwo]
    · simp [hone, htwo]
  · by_cases htwo : strip isBlank right = []
    · simp [hone, htwo]
    · simp [hone, htwo]

theorem not_skipped {text : List Byte} {entry : List Byte × List Byte}
    (h : lineEntry text = some entry) :
    strip isBlank text ≠ [] ∧ (strip isBlank text).head? ≠ some 35 := by
  constructor
  · intro hnil
    rw [lineEntry_skipped (Or.inl hnil)] at h
    cases h
  · intro hcomment
    rw [lineEntry_skipped (Or.inr hcomment)] at h
    cases h

theorem isEntry_iff (text key value : List Byte) :
    IsEntry text key value ↔
      lineEntry text = some (key, value) ∧ (strip isBlank text).count 61 = 1 := by
  constructor
  · rintro ⟨hne, hcomment, left, right, hl, hleft, hright, hleftSide, hrightSide, rfl, rfl⟩
    rw [lineEntry_two hne hcomment hl hleft hright, if_pos]
    · rw [hl, List.count_append, List.count_eq_zero.mpr hleft, List.count_cons_self,
        List.count_eq_zero.mpr hright]
      exact ⟨rfl, rfl⟩
    · exact ⟨(strip_ne_nil_iff left).mpr hleftSide, (strip_ne_nil_iff right).mpr hrightSide⟩
  · rintro ⟨hentry, hcount⟩
    have hskip := not_skipped hentry
    have hmem : 61 ∈ strip isBlank text := List.count_pos_iff.mp (by omega)
    obtain ⟨left, right, hl, hleft⟩ := List.eq_append_cons_of_mem hmem
    have hright : 61 ∉ right := by
      rw [hl, List.count_append, List.count_cons_self] at hcount
      exact List.count_eq_zero.mp (by omega)
    rw [lineEntry_two hskip.1 hskip.2 hl hleft hright] at hentry
    by_cases hsides : strip isBlank left ≠ [] ∧ strip isBlank right ≠ []
    · rw [if_pos hsides] at hentry
      cases hentry
      exact ⟨hskip.1, hskip.2, left, right, hl, hleft, hright,
        (strip_ne_nil_iff left).mp hsides.1, (strip_ne_nil_iff right).mp hsides.2, rfl, rfl⟩
    · rw [if_neg hsides] at hentry
      cases hentry

def grammarEntry (text : List Byte) : Option (List Byte × List Byte) :=
  if (strip isBlank text).count 61 = 1 then lineEntry text else none

theorem grammarEntry_eq_some_iff (text key value : List Byte) :
    grammarEntry text = some (key, value) ↔ IsEntry text key value := by
  rw [isEntry_iff, grammarEntry]
  by_cases hcount : (strip isBlank text).count 61 = 1
  · simp [hcount]
  · simp [hcount]

theorem grammarEntry_eq_none_iff (text : List Byte) :
    grammarEntry text = none ↔ ∀ key value, ¬ IsEntry text key value := by
  simp only [← grammarEntry_eq_some_iff, Option.eq_none_iff_forall_ne_some, Prod.forall, ne_eq]

theorem stored_iff (text : List Byte) (content next : List Byte → Option (List Byte)) :
    ((∀ key value, IsEntry text key value → next = Function.update content key (some value)) ∧
        ((∀ key value, ¬ IsEntry text key value) → next = content)) ↔
      next = store content (grammarEntry text) := by
  rw [← grammarEntry_eq_none_iff]
  simp only [← grammarEntry_eq_some_iff]
  cases grammarEntry text with
  | none => simp [store]
  | some entry => simp [store, Prod.ext_iff]

/-- From a reader at the start of the line, wherever it stands in a file, the loop gets behind
the line with the entry of the line stored, or with the contents unchanged if it has none. -/
def LineRead [SizeType] (text : List Byte) : Prop :=
  ∀ (reader : CfgReader) (lineNo : ℤ) (ending rest : List Byte),
    ending = [10] ∨ (ending = [] ∧ rest = []) →
    ∃ next, Visits readRound ⟨reader, lineNo, text ++ (ending ++ rest)⟩ next ∧
      next.stream = rest ∧
      (∀ key value, IsEntry text key value →
        next.reader.content = Function.update reader.content key (some value)) ∧
      ((∀ key value, ¬ IsEntry text key value) → next.reader.content = reader.content)

theorem visits_of_fgets [SizeType] (reader : CfgReader) (lineNo : ℤ) {stream line rest : List Byte}
    (h : fgets 1000 stream = some (line, rest)) :
    ∃ next, Visits readRound ⟨reader, lineNo, stream⟩ next ∧ next.stream = rest ∧
      next.reader.content = store reader.content (lineEntry (cStr line)) := by
  obtain ⟨next, hround, hcontent⟩ := readRound_of_fgets ⟨reader, lineNo, stream⟩ h
  exact ⟨_, .next .start hround, rfl, hcontent⟩

theorem visits_line [SizeType] {text : List Byte} (hline : 10 ∉ text) (hlen : text.length < 1000)
    (reader : CfgReader) (lineNo : ℤ) (ending rest : List Byte)
    (hending : ending = [10] ∨ (ending = [] ∧ rest = [])) :
    ∃ next, Visits readRound ⟨reader, lineNo, text ++ (ending ++ rest)⟩ next ∧
      next.stream = rest ∧
      next.reader.content = store reader.content (lineEntry (cStr text)) := by
  rcases hending with rfl | ⟨rfl, rfl⟩
  · by_cases hfits : text.length < 999
    · obtain ⟨next, hvisits, hstream, hcontent⟩ :=
        visits_of_fgets reader lineNo (fgets_line hline hfits rest)
      rw [lineEntry_cStr_newline] at hcontent
      exact ⟨next, hvisits, hstream, hcontent⟩
    · have hfull : text.length = 999 := by omega
      have hpart := fgets_part hline hfull.ge (10 :: rest)
      rw [← hfull, List.take_length, List.drop_length] at hpart
      obtain ⟨⟨reader', lineNo', _⟩, hvisits, rfl, hcontent⟩ :=
        visits_of_fgets reader lineNo hpart
      have hnewline := fgets_line List.not_mem_nil (by decide) rest
      obtain ⟨next, hvisits', hstream, hcontent'⟩ := visits_of_fgets reader' lineNo' hnewline
      refine ⟨next, hvisits.trans hvisits', hstream, ?_⟩
      have hblank : lineEntry (cStr ([] ++ [10])) = none :=
        (lineEntry_cStr_newline []).trans lineEntry_nil
      rw [hcontent', hblank, store, hcontent]
  · rw [List.append_nil, List.append_nil]
    by_cases hempty : text = []
    · have hnone : lineEntry (cStr []) = none := lineEntry_nil
      refine ⟨_, .start, hempty, ?_⟩
      rw [hempty, hnone, store]
    · exact visits_of_fgets reader lineNo (fgets_last hline hempty (by omega))

theorem store_injective {entry entry' : Option (List Byte × List Byte)}
    (h : store (fun _ => none) entry = store (fun _ => none) entry') : entry = entry' := by
  cases entry with
  | none =>
    cases entry' with
    | none => rfl
    | some stored =>
      have hat := congrFun h stored.1
      simp [store] at hat
  | some stored =>
    have hat := congrFun h stored.1
    cases entry' with
    | none => simp [store] at hat
    | some other =>
      by_cases hkey : stored.1 = other.1
      · simp only [store, hkey, Function.update_self, Option.some.injEq] at hat
        rw [Prod.ext hkey hat]
      · simp [store, Function.update_of_ne hkey] at hat

theorem lineRead_iff_entry [SizeType] {text : List Byte} (hline : 10 ∉ text)
    (hlen : text.length < 1000) :
    LineRead text ↔ lineEntry (cStr text) = grammarEntry text := by
  constructor
  · intro hread
    obtain ⟨next, hvisits, hstream, hstored⟩ := hread fresh 1 [10] [] (Or.inl rfl)
    obtain ⟨next', hvisits', hstream', hcontent⟩ :=
      visits_line hline hlen fresh 1 [10] [] (Or.inl rfl)
    have hsame : next = next' :=
      hvisits.eq_of_measure_eq (fun s => s.stream.length) (fun _ _ => stream_lt_of_readRound)
        hvisits' (by rw [hstream, hstream'])
    rw [stored_iff, hsame, hcontent] at hstored
    exact store_injective hstored
  · intro heq reader lineNo ending rest hending
    obtain ⟨next, hvisits, hstream, hcontent⟩ := visits_line hline hlen reader lineNo
      ending rest hending
    rw [heq] at hcontent
    exact ⟨next, hvisits, hstream, (stored_iff text reader.content _).mpr hcontent⟩

section Zeros

theorem kept_of_lineEntry {text key value : List Byte} (h : lineEntry text = some (key, value)) :
    kept false true ((strip isBlank text).splitOn 61) = [key, value] := by
  have hskip := not_or.mpr (not_skipped h)
  simp only [lineEntry, if_neg hskip] at h
  split at h
  · rename_i hkept
    cases h
    exact hkept
  · cases h

theorem mem_of_mem_entry {text key value : List Byte} (h : lineEntry text = some (key, value))
    {c : Byte} (hc : c ∈ key ∨ c ∈ value) : c ∈ text := by
  have hpart : ∃ part ∈ [key, value], c ∈ part := by simpa using hc
  obtain ⟨part, hpart, hcpart⟩ := hpart
  rw [← kept_of_lineEntry h, kept_trimmed, List.mem_filter, List.mem_map] at hpart
  obtain ⟨⟨piece, hpiece, rfl⟩, _⟩ := hpart
  have hmem := (exists_mem_splitOn_iff 61 (strip isBlank text) c).mp
    ⟨piece, hpiece, mem_of_mem_strip isBlank hcpart⟩
  exact mem_of_mem_strip isBlank hmem.1

theorem mem_entry_of_mem {text key value : List Byte} (h : lineEntry text = some (key, value))
    {c : Byte} (hc : c ∈ text) (hblank : isBlank c = false) (hequals : c ≠ 61) :
    c ∈ key ∨ c ∈ value := by
  obtain ⟨piece, hpiece, hcpiece⟩ := (exists_mem_splitOn_iff 61 (strip isBlank text) c).mpr
    ⟨mem_strip_of_not_blank isBlank hc hblank, hequals⟩
  have hcstrip := mem_strip_of_not_blank isBlank hcpiece hblank
  have hkept : strip isBlank piece ∈ [key, value] := by
    rw [← kept_of_lineEntry h, kept_trimmed, List.mem_filter, List.mem_map, decide_eq_true_eq]
    exact ⟨⟨piece, hpiece, rfl⟩, List.ne_nil_of_mem hcstrip⟩
  rcases List.mem_pair.mp hkept with hkey | hvalue
  · exact Or.inl (hkey ▸ hcstrip)
  · exact Or.inr (hvalue ▸ hcstrip)

/-- When the reader and the grammar agree on a line. A line without a zero that the reader takes
for an entry has one equals sign. A line with a zero has no entry, nor has its part before it. -/
def Agrees (text : List Byte) : Prop :=
  if nul ∈ text then
    lineEntry (cStr text) = none ∧ ∀ key value, ¬ IsEntry text key value
  else lineEntry text ≠ none → (strip isBlank text).count 61 = 1

theorem entry_eq_iff_agrees (text : List Byte) :
    lineEntry (cStr text) = grammarEntry text ↔ Agrees text := by
  by_cases hnul : nul ∈ text
  · rw [Agrees, if_pos hnul]
    rw [← grammarEntry_eq_none_iff]
    constructor
    · intro heq
      cases hentry : grammarEntry text with
      | none => exact ⟨heq.trans hentry, rfl⟩
      | some entry =>
        have hIs := (grammarEntry_eq_some_iff text entry.1 entry.2).mp hentry
        have hin := mem_entry_of_mem ((isEntry_iff text entry.1 entry.2).mp hIs).1 hnul
          (by decide) (by decide)
        exact absurd (mem_of_mem_entry (heq.trans hentry) hin) (nul_notMem_cStr text)
    · rintro ⟨hcStr, hnone⟩
      rw [hcStr, hnone]
  · rw [Agrees, if_neg hnul, cStr_eq_self hnul, grammarEntry]
    by_cases hcount : (strip isBlank text).count 61 = 1
    · simp [hcount]
    · simp [hcount]

end Zeros

/-- A line that is shorter than the buffer is read by the grammar exactly if the two agree on
it. -/
theorem line_read_iff [SizeType] (text : List Byte) (hline : 10 ∉ text)
    (hlen : text.length < 1000) :
    LineRead text ↔ Agrees text :=
  (lineRead_iff_entry hline hlen).trans (entry_eq_iff_agrees text)

section Concrete

attribute [local instance] sizeType64

/-- The line `port = 8991`. -/
theorem port_line_read :
    lineEntry [112, 111, 114, 116, 32, 61, 32, 56, 57, 57, 49] =
        some ([112, 111, 114, 116], [56, 57, 57, 49]) ∧
      LineRead [112, 111, 114, 116, 32, 61, 32, 56, 57, 57, 49] := by
  refine ⟨by decide, (line_read_iff _ (by decide) (by decide)).mpr ?_⟩
  rw [Agrees, if_neg (by decide)]
  intro _
  decide

/-- The line `a==b` has two equals signs, and stores `b` under `a`. -/
theorem double_equals_stored :
    (read 2 fresh (some [97, 61, 61, 98, 10])).map (fun last => last.2.content [97]) =
        some (some [98]) ∧
      (strip isBlank ([97, 61, 61, 98] : List Byte)).count 61 = 2 ∧
      ¬ LineRead [97, 61, 61, 98] := by
  refine ⟨by decide, by decide, ?_⟩
  intro hread
  have heq := (lineRead_iff_entry (by decide) (by decide)).mp hread
  revert heq
  decide

end Concrete

end BlackCat.Config
