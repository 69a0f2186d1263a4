import BlackCat.SplitString

/-!
`CfgReader` reads a file through a buffer of 1000 bytes, so each round of its
loop gets a line, or a piece of 999 bytes of a longer one. What a round does to
`content_` is one rule on the text it got: trim it, pass over blanks and
comments, split it at the equals signs, and store an entry if two parts remain.
-/
namespace BlackCat.Config

open ByteMemory Loops Strop TextSearch

structure CfgReader where
  errMsg : List String
  content : List Byte → Option (List Byte)

def fresh : CfgReader := ⟨[], fun _ => none⟩

def pushError (reader : CfgReader) (line : ℤ) (msg : String) : CfgReader :=
  { reader with errMsg := reader.errMsg ++ ["error at line " ++ toString line ++ ": " ++ msg] }

/-- `fgets`: up to the next newline, and one byte less than the buffer has. Without a byte left
there is no line. -/
def fgets (bufferSize : ℕ) (stream : List Byte) : Option (List Byte × List Byte) :=
  if stream = [] then none
  else
    let count := min (bufferSize - 1) (stream.findIdx (· = 10) + 1)
    some (stream.take count, stream.drop count)

/-- The file behind a byte-order mark. -/
def skipBom (file : List Byte) : List Byte :=
  if file.take 3 = [239, 187, 191] then file.drop 3 else file

/-- What a round does with the line in the buffer. `none` if `SplitString` does not return. -/
def readLine [SizeType] (reader : CfgReader) (lineNo : ℤ) (line : List Byte) : Option CfgReader :=
  let l := trimString (cStr line)
  if l = [] ∨ l.head? = some 35 then some reader
  else
    (splitString l 61 false true).map fun kv =>
      match kv with
      | [key, value] => { reader with content := Function.update reader.content key (some value) }
      | _ => pushError reader lineNo "invalid k/v, skip it."

/-- The variables of the loop, with what is left of the stream. -/
structure Reading where
  reader : CfgReader
  lineNo : ℤ
  stream : List Byte

/-- The loop goes on with what follows the line, unless the line is never done with. -/
def afterLine (s : Reading) (rest : List Byte) : Option CfgReader → Round Reading CfgReader
  | some reader => .again ⟨reader, int32 (s.lineNo + 1), rest⟩
  | none => .again s

def readRound [SizeType] (s : Reading) : Round Reading CfgReader :=
  match fgets 1000 s.stream with
  | none => .leave s.reader
  | some (line, rest) => afterLine s rest (readLine s.reader (int32 (s.lineNo + 1)) line)

/-- `Read` of a file with the given content, or of none if it cannot be opened. -/
def read [SizeType] (rounds : ℕ) (reader : CfgReader) (file : Option (List Byte)) :
    Option (Bool × CfgReader) :=
  let cleared : CfgReader := { reader with errMsg := [] }
  match file with
  | none => some (false, cleared)
  | some bytes =>
    (run readRound rounds ⟨cleared, 1, skipBom bytes⟩).map fun last => (true, last)

/-- The rule for a line: its entry, if it is neither blank nor a comment and has two parts. -/
def lineEntry (text : List Byte) : Option (List Byte × List Byte) :=
  let l := strip isBlank text
  if l = [] ∨ l.head? = some 35 then none
  else
    match kept false true (l.splitOn 61) with
    | [key, value] => some (key, value)
    | _ => none

/-- What an entry does to the contents. -/
def store (content : List Byte → Option (List Byte)) :
    Option (List Byte × List Byte) → List Byte → Option (List Byte)
  | some (key, value) => Function.update content key (some value)
  | none => content

theorem lineEntry_skipped {text : List Byte}
    (h : strip isBlank text = [] ∨ (strip isBlank text).head? = some 35) :
    lineEntry text = none :=
  if_pos h

theorem lineEntry_nil : lineEntry [] = none := lineEntry_skipped (Or.inl rfl)

theorem readLine_content [SizeType] (reader : CfgReader) (lineNo : ℤ) (line : List Byte)
    (hsize : line.length < 2147483648) :
    ∃ next, readLine reader lineNo line = some next ∧
      next.content = store reader.content (lineEntry (cStr line)) := by
  have hcStr := length_cStr_le line
  have htrim : trimString (cStr line) = strip isBlank (cStr line) :=
    trimString_eq_strip _ (by omega)
  have hstrip := length_strip_le isBlank (cStr line)
  have hsplit : splitString (strip isBlank (cStr line)) 61 false true =
      some (kept false true ((strip isBlank (cStr line)).splitOn 61)) :=
    splitString_eq _ _ _ _ (by omega)
  simp only [readLine, lineEntry, htrim]
  by_cases hskip : strip isBlank (cStr line) = [] ∨ (strip isBlank (cStr line)).head? = some 35
  · rw [if_pos hskip, if_pos hskip]
    exact ⟨reader, rfl, rfl⟩
  · rw [if_neg hskip, if_neg hskip, hsplit, Option.map_some]
    refine ⟨_, rfl, ?_⟩
    split <;> rfl

theorem fgets_some {stream line rest : List Byte} (h : fgets 1000 stream = some (line, rest)) :
    stream = line ++ rest ∧ line ≠ [] ∧ line.length ≤ 999 := by
  unfold fgets at h
  by_cases hempty : stream = []
  · rw [if_pos hempty] at h
    cases h
  · rw [if_neg hempty] at h
    simp only [Option.some.injEq, Prod.mk.injEq] at h
    obtain ⟨rfl, rfl⟩ := h
    have hpos := List.length_pos_of_ne_nil hempty
    refine ⟨(List.take_append_drop _ _).symm, ?_, ?_⟩
    · apply List.ne_nil_of_length_pos
      rw [List.length_take]
      omega
    · rw [List.length_take]
      omega

theorem length_lt_of_fgets {stream line rest : List Byte}
    (h : fgets 1000 stream = some (line, rest)) : rest.length < stream.length := by
  obtain ⟨hstream, hline, _⟩ := fgets_some h
  rw [hstream, List.length_append]
  exact Nat.lt_add_of_pos_left (List.length_pos_of_ne_nil hline)

theorem eq_nil_of_fgets_none {stream : List Byte} (h : fgets 1000 stream = none) :
    stream = [] := by
  by_contra hne
  rw [fgets, if_neg hne] at h
  cases h

theorem readRound_of_fgets [SizeType] (s : Reading) {line rest : List Byte}
    (h : fgets 1000 s.stream = some (line, rest)) :
    ∃ next, readRound s = .again ⟨next, int32 (s.lineNo + 1), rest⟩ ∧
      next.content = store s.reader.content (lineEntry (cStr line)) := by
  have hlen := (fgets_some h).2.2
  have hsize : line.length < 2147483648 := Nat.lt_of_le_of_lt hlen (by decide)
  obtain ⟨next, hnext, hcontent⟩ :=
    readLine_content s.reader (int32 (s.lineNo + 1)) line hsize
  have hround : readRound s =
      afterLine s rest (readLine s.reader (int32 (s.lineNo + 1)) line) := by
    simp only [readRound, h]
  exact ⟨next, hround.trans (congrArg (afterLine s rest) hnext), hcontent⟩

theorem readRound_nil [SizeType] (reader : CfgReader) (lineNo : ℤ) :
    readRound ⟨reader, lineNo, []⟩ = .leave reader := rfl

theorem stream_lt_of_readRound [SizeType] {s t : Reading} (h : readRound s = .again t) :
    t.stream.length < s.stream.length := by
  cases hgets : fgets 1000 s.stream with
  | none =>
    simp only [readRound, hgets] at h
    cases h
  | some taken =>
    obtain ⟨line, rest⟩ := taken
    obtain ⟨next, hround, _⟩ := readRound_of_fgets s hgets
    rw [hround] at h
    cases h
    exact length_lt_of_fgets hgets

section Lines

theorem findIdx_append_of_line {text : List Byte} (hline : 10 ∉ text) (rest : List Byte) :
    (text ++ rest).findIdx (· = 10) = rest.findIdx (· = 10) + text.length := by
  have hnone : text.findIdx (· = 10) = text.length := by
    rw [List.findIdx_eq_length]
    intro c hc
    rw [decide_eq_false_iff_not]
    rintro rfl
    exact hline hc
  rw [List.findIdx_append, hnone, if_neg (Nat.lt_irrefl _)]

theorem fgets_line {text : List Byte} (hline : 10 ∉ text) (hlen : text.length < 999)
    (rest : List Byte) : fgets 1000 (text ++ 10 :: rest) = some (text ++ [10], rest) := by
  have hcount : min (1000 - 1) (text.length + 1) = (text ++ [10]).length := by
    rw [List.length_append, List.length_singleton]
    omega
  have hidx : (text ++ 10 :: rest).findIdx (· = 10) = text.length := by
    rw [findIdx_append_of_line hline, List.findIdx_cons, decide_eq_true rfl, cond_true,
      Nat.zero_add]
  rw [fgets, if_neg (by simp)]
  simp only [hidx, hcount]
  rw [List.append_cons text 10 rest, List.take_left, List.drop_left]

theorem fgets_part {text : List Byte} (hline : 10 ∉ text) (hlen : 999 ≤ text.length)
    (rest : List Byte) :
    fgets 1000 (text ++ rest) = some (text.take 999, text.drop 999 ++ rest) := by
  have hnot : text ++ rest ≠ [] := by
    apply List.ne_nil_of_length_pos
    rw [List.length_append]
    omega
  have hidx := findIdx_append_of_line hline rest
  have hcount : min (1000 - 1) ((text ++ rest).findIdx (· = 10) + 1) = 999 := by omega
  rw [fgets, if_neg hnot]
  simp only [hcount]
  rw [List.take_append_of_le_length hlen, List.drop_append_of_le_length hlen]

theorem fgets_last {text : List Byte} (hline : 10 ∉ text) (hne : text ≠ [])
    (hlen : text.length ≤ 999) : fgets 1000 text = some (text, []) := by
  have hidx := findIdx_append_of_line hline []
  rw [List.append_nil] at hidx
  have hall : text.length ≤ min (1000 - 1) (text.findIdx (· = 10) + 1) := by omega
  rw [fgets, if_neg hne]
  simp only [List.take_of_length_le hall, List.drop_of_length_le hall]

theorem lineEntry_newline (text : List Byte) : lineEntry (text ++ [10]) = lineEntry text := by
  have hstrip : strip isBlank (text ++ [10]) = strip isBlank text := by
    rw [strip, List.rdropWhile_concat_pos _ _ _ (by decide), strip]
  simp only [lineEntry, hstrip]

theorem lineEntry_cStr_newline (text : List Byte) :
    lineEntry (cStr (text ++ [10])) = lineEntry (cStr text) := by
  by_cases hnul : nul ∈ text
  · have hsame : cStr (text ++ [10]) = cStr text := by
      have hshort := cStr_length_lt hnul
      rw [cStr, List.takeWhile_append, if_neg]
      · rfl
      · exact Nat.ne_of_lt hshort
    rw [hsame]
  · have hnot : nul ∉ text ++ [10] := by
      rw [List.mem_append, not_or]
      exact ⟨hnul, by decide⟩
    rw [cStr_eq_self hnul, cStr_eq_self hnot, lineEntry_newline]

end Lines

end BlackCat.Config
