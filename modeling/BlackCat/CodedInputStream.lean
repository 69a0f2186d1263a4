import BlackCat.WireFields

/-!
Protobuf's `CodedInputStream` over an array. Numbers are read by unrolled code
that follows a pointer without looking for the end of the buffer, provided ten
bytes are left or the last byte of the buffer can end a number; otherwise by a
loop that checks every byte. Either way the answer is that of the plain reader
of the bytes in the buffer, whatever stands behind it in memory.
-/
namespace BlackCat.CodedInputStream

open ByteMemory Varints WireFields

def kMaxVarintBytes : ℤ := 10

def kDefaultTotalBytesLimit : ℤ := 67108864

def kDefaultRecursionLimit : ℕ := 64

/-- A stream over an array. No limit is pushed on it, so `total_bytes_read_` and
`current_limit_` keep the size of the array, and `Refresh` fails. -/
structure Stream where
  mem : Memory
  buffer : ℤ
  bufferEnd : ℤ
  totalBytesRead : ℤ
  lastTag : UInt32
  legitimateMessageEnd : Bool
  recursionDepth : ℕ

/-- The constructor for an array. -/
def ofArray (mem : Memory) (data size : ℤ) : Stream :=
  ⟨mem, data, data + size, size, 0, false, 0⟩

def Stream.bufferSize (s : Stream) : ℤ := s.bufferEnd - s.buffer

def Stream.advance (s : Stream) (amount : ℤ) : Stream := { s with buffer := s.buffer + amount }

section Unrolled

/-- The bytes after the fifth, up to the tenth, are passed over. -/
def discardHighBytes (mem : Memory) : ℕ → ℤ → Option ℤ
  | 0, _ => none
  | n + 1, ptr =>
    if (mem ptr).toUInt32 &&& 0x80 = 0 then some (ptr + 1) else discardHighBytes mem n (ptr + 1)

def readVarint32FromArray (mem : Memory) (ptr : ℤ) : Option (UInt32 × ℤ) :=
  let b (i : ℤ) : UInt32 := (mem (ptr + i)).toUInt32
  let result := b 0 &&& 0x7F
  if b 0 &&& 0x80 = 0 then some (result, ptr + 1) else
  let result := result ||| (b 1 &&& 0x7F) <<< 7
  if b 1 &&& 0x80 = 0 then some (result, ptr + 2) else
  let result := result ||| (b 2 &&& 0x7F) <<< 14
  if b 2 &&& 0x80 = 0 then some (result, ptr + 3) else
  let result := result ||| (b 3 &&& 0x7F) <<< 21
  if b 3 &&& 0x80 = 0 then some (result, ptr + 4) else
  let result := result ||| b 4 <<< 28
  if b 4 &&& 0x80 = 0 then some (result, ptr + 5) else
  (discardHighBytes mem 5 (ptr + 5)).map fun last => (result, last)

/-- The three parts of a 64-bit number put together. -/
def joinParts (part0 part1 part2 : UInt32) : UInt64 :=
  part0.toUInt64 ||| part1.toUInt64 <<< 28 ||| part2.toUInt64 <<< 56

/-- The fast path of `ReadVarint64Fallback`, in 32-bit parts of four bytes each. -/
def readVarint64FromArray (mem : Memory) (ptr : ℤ) : Option (UInt64 × ℤ) :=
  let b (i : ℤ) : UInt32 := (mem (ptr + i)).toUInt32
  let part0 := b 0 &&& 0x7F
  if b 0 &&& 0x80 = 0 then some (joinParts part0 0 0, ptr + 1) else
  let part0 := part0 ||| (b 1 &&& 0x7F) <<< 7
  if b 1 &&& 0x80 = 0 then some (joinParts part0 0 0, ptr + 2) else
  let part0 := part0 ||| (b 2 &&& 0x7F) <<< 14
  if b 2 &&& 0x80 = 0 then some (joinParts part0 0 0, ptr + 3) else
  let part0 := part0 ||| (b 3 &&& 0x7F) <<< 21
  if b 3 &&& 0x80 = 0 then some (joinParts part0 0 0, ptr + 4) else
  let part1 := b 4 &&& 0x7F
  if b 4 &&& 0x80 = 0 then some (joinParts part0 part1 0, ptr + 5) else
  let part1 := part1 ||| (b 5 &&& 0x7F) <<< 7
  if b 5 &&& 0x80 = 0 then some (joinParts part0 part1 0, ptr + 6) else
  let part1 := part1 ||| (b 6 &&& 0x7F) <<< 14
  if b 6 &&& 0x80 = 0 then some (joinParts part0 part1 0, ptr + 7) else
  let part1 := part1 ||| (b 7 &&& 0x7F) <<< 21
  if b 7 &&& 0x80 = 0 then some (joinParts part0 part1 0, ptr + 8) else
  let part2 := b 8 &&& 0x7F
  if b 8 &&& 0x80 = 0 then some (joinParts part0 part1 part2, ptr + 9) else
  let part2 := part2 ||| (b 9 &&& 0x7F) <<< 7
  if b 9 &&& 0x80 = 0 then some (joinParts part0 part1 part2, ptr + 10) else
  none

end Unrolled

section Numbers

/-- The fast path may be taken: it will not run over the end of the buffer. -/
def Stream.canReadFromArray (s : Stream) : Bool :=
  kMaxVarintBytes ≤ s.bufferSize ∨
    s.buffer < s.bufferEnd ∧ (s.mem (s.bufferEnd - 1)).toUInt32 &&& 0x80 = 0

/-- The loop of `ReadVarint64Slow`, with the number of bytes it may still read. -/
def readVarint64Loop : ℕ → ℕ → UInt64 → Stream → Option (UInt64 × Stream)
  | 0, _, _, _ => none
  | left + 1, count, result, s =>
    if s.buffer = s.bufferEnd then none
    else
      let b := (s.mem s.buffer).toUInt32
      let result := result ||| (b &&& 0x7F).toUInt64 <<< UInt64.ofNat (7 * count)
      if b &&& 0x80 = 0 then some (result, s.advance 1)
      else readVarint64Loop left (count + 1) result (s.advance 1)

def readVarint64Slow (s : Stream) : Option (UInt64 × Stream) :=
  readVarint64Loop kMaxVarintBytes.toNat 0 0 s

def readVarint64Fallback (s : Stream) : Option (UInt64 × Stream) :=
  if s.canReadFromArray then
    (readVarint64FromArray s.mem s.buffer).map fun read => (read.1, { s with buffer := read.2 })
  else readVarint64Slow s

def readVarint64 (s : Stream) : Option (UInt64 × Stream) :=
  if s.buffer < s.bufferEnd ∧ (s.mem s.buffer).toNat < 0x80 then
    some ((s.mem s.buffer).toUInt64, s.advance 1)
  else readVarint64Fallback s

def readVarint32Slow (s : Stream) : Option (UInt32 × Stream) :=
  (readVarint64Fallback s).map fun read => (read.1.toUInt32, read.2)

def readVarint32Fallback (s : Stream) : Option (UInt32 × Stream) :=
  if s.canReadFromArray then
    (readVarint32FromArray s.mem s.buffer).map fun read => (read.1, { s with buffer := read.2 })
  else readVarint32Slow s

def readVarint32 (s : Stream) : Option (UInt32 × Stream) :=
  if s.buffer < s.bufferEnd ∧ (s.mem s.buffer).toNat < 0x80 then
    some ((s.mem s.buffer).toUInt32, s.advance 1)
  else readVarint32Fallback s

end Numbers

section Tags

/-- `ReadTagSlow`. At the end of the array the message ends legitimately, unless
the array is larger than the limit on all bytes. The position after a failed
read is not kept, since nothing is read after it. -/
def readTagSlow (s : Stream) : UInt32 × Stream :=
  if s.buffer = s.bufferEnd then
    if kDefaultTotalBytesLimit ≤ s.totalBytesRead then
      (0, { s with legitimateMessageEnd := s.totalBytesRead = kDefaultTotalBytesLimit })
    else (0, { s with legitimateMessageEnd := true })
  else
    match readVarint64 s with
    | some (result, s) => (result.toUInt32, s)
    | none => (0, s)

def readTagFallback (s : Stream) : UInt32 × Stream :=
  if s.canReadFromArray then
    match readVarint32FromArray s.mem s.buffer with
    | some (tag, last) => (tag, { s with buffer := last })
    | none => (0, s)
  else readTagSlow s

def readTag (s : Stream) : UInt32 × Stream :=
  if s.buffer < s.bufferEnd ∧ (s.mem s.buffer).toNat < 0x80 then
    let tag := (s.mem s.buffer).toUInt32
    (tag, { s.advance 1 with lastTag := tag })
  else
    let (tag, s) := readTagFallback s
    (tag, { s with lastTag := tag })

/-- `ExpectTag` for a tag of one byte: it is passed over if it comes next. -/
def expectTag (s : Stream) (expected : UInt32) : Option Stream :=
  if expected < 128 then
    if s.buffer < s.bufferEnd ∧ (s.mem s.buffer).toUInt32 = expected then some (s.advance 1)
    else none
  else if expected < 16384 then
    if 2 ≤ s.bufferSize ∧ s.mem s.buffer = (expected ||| 0x80).toUInt8 ∧
        s.mem (s.buffer + 1) = (expected >>> 7).toUInt8 then some (s.advance 2)
    else none
  else none

end Tags

section Strings

/-- The string of the given size; a negative size is refused. -/
def readString (s : Stream) (size : ℤ) : Option (List Byte × Stream) :=
  if size < 0 then none
  else if size ≤ s.bufferSize then some (load s.mem s.buffer size.toNat, s.advance size)
  else none

def readLittleEndian32 (s : Stream) : Option (UInt32 × Stream) :=
  if 4 ≤ s.bufferSize then
    some (UInt32.ofNat (bytesValue (load s.mem s.buffer 4)), s.advance 4)
  else none

def readLittleEndian64 (s : Stream) : Option (UInt64 × Stream) :=
  if 8 ≤ s.bufferSize then
    some (UInt64.ofNat (bytesValue (load s.mem s.buffer 8)), s.advance 8)
  else none

def incrementRecursionDepth (s : Stream) : Option Stream :=
  if s.recursionDepth + 1 ≤ kDefaultRecursionLimit then
    some { s with recursionDepth := s.recursionDepth + 1 }
  else none

def decrementRecursionDepth (s : Stream) : Stream :=
  if 0 < s.recursionDepth then { s with recursionDepth := s.recursionDepth - 1 } else s

end Strings

section Bits

theorem toNat_and_low (b : Byte) : (b.toUInt32 &&& 0x7F).toNat = b.toNat % 128 := by
  rw [UInt32.toNat_and, UInt8.toNat_toUInt32]
  exact Nat.and_two_pow_sub_one_eq_mod b.toNat 7

theorem and_high_eq_zero_iff (b : Byte) : b.toUInt32 &&& 0x80 = 0 ↔ b.toNat < 128 := by
  have hbit : ∀ n < 256, n &&& 128 = 0 ↔ n < 128 := by decide +kernel
  rw [← UInt32.toNat_inj, UInt32.toNat_and, UInt8.toNat_toUInt32]
  exact hbit b.toNat b.toNat_lt

end Bits

section Parts

variable (b0 b1 b2 b3 : Byte)

theorem toNat_two_groups :
    ((b0.toUInt32 &&& (0x7F : UInt32)) ||| (b1.toUInt32 &&& 0x7F) <<< 7).toNat =
      b0.toNat % 128 + 128 * (b1.toNat % 128) := by
  have h0 := toNat_and_low b0
  have h1 := toNat_and_low b1
  rw [toNat_or_shiftLeft32 _ _ _ 7 rfl (by omega) (by omega)]
  omega

theorem toNat_three_groups :
    ((b0.toUInt32 &&& (0x7F : UInt32)) ||| (b1.toUInt32 &&& 0x7F) <<< 7 |||
      (b2.toUInt32 &&& 0x7F) <<< 14).toNat =
      b0.toNat % 128 + 128 * (b1.toNat % 128) + 16384 * (b2.toNat % 128) := by
  have h01 := toNat_two_groups b0 b1
  have h2 := toNat_and_low b2
  rw [toNat_or_shiftLeft32 _ _ _ 14 rfl (by omega) (by omega)]
  omega

theorem toNat_four_groups :
    ((b0.toUInt32 &&& (0x7F : UInt32)) ||| (b1.toUInt32 &&& 0x7F) <<< 7 |||
      (b2.toUInt32 &&& 0x7F) <<< 14 ||| (b3.toUInt32 &&& 0x7F) <<< 21).toNat =
      b0.toNat % 128 + 128 * (b1.toNat % 128) + 16384 * (b2.toNat % 128) +
        2097152 * (b3.toNat % 128) := by
  have h012 := toNat_three_groups b0 b1 b2
  have h3 := toNat_and_low b3
  rw [toNat_or_shiftLeft32 _ _ _ 21 rfl (by omega) (by omega)]
  omega

theorem toNat_joinParts (part0 part1 part2 : UInt32) (h0 : part0.toNat < 268435456)
    (h1 : part1.toNat < 268435456) :
    (joinParts part0 part1 part2).toNat =
      (part0.toNat + 268435456 * part1.toNat + 72057594037927936 * part2.toNat) % 2 ^ 64 := by
  have hlow : (part0.toUInt64 ||| part1.toUInt64 <<< 28).toNat =
      part0.toNat + 268435456 * part1.toNat := by
    rw [toNat_or_shiftLeft64 _ _ _ 28 rfl (by omega) (by rw [UInt32.toNat_toUInt64]; omega)]
    simp only [UInt32.toNat_toUInt64]
    omega
  have h2 := part2.toNat_lt
  rw [joinParts, toNat_or_shiftLeft64 _ _ _ 56 rfl (by omega) (by rw [hlow]; omega), hlow,
    UInt32.toNat_toUInt64]
  omega

end Parts

section FromArray

theorem load_ten (mem : Memory) (ptr : ℤ) :
    load mem ptr 10 = [mem (ptr + 0), mem (ptr + 1), mem (ptr + 2), mem (ptr + 3), mem (ptr + 4),
      mem (ptr + 5), mem (ptr + 6), mem (ptr + 7), mem (ptr + 8), mem (ptr + 9)] := by
  simp [load, Int.add_assoc]

theorem joinParts_eq_ofNat (part0 part1 part2 : UInt32) (n : ℕ) (h0 : part0.toNat < 268435456)
    (h1 : part1.toNat < 268435456)
    (hn : part0.toNat + 268435456 * part1.toNat + 72057594037927936 * part2.toNat = n) :
    joinParts part0 part1 part2 = UInt64.ofNat n := by
  rw [← UInt64.toNat_inj, toNat_joinParts _ _ _ h0 h1, UInt64.toNat_ofNat', hn]

theorem some_joinParts (part0 part1 part2 : UInt32) (n : ℕ) {p q : ℤ}
    (h0 : part0.toNat < 268435456) (h1 : part1.toNat < 268435456)
    (hn : part0.toNat + 268435456 * part1.toNat + 72057594037927936 * part2.toNat = n)
    (hpq : p = q) :
    some (joinParts part0 part1 part2, p) = some (UInt64.ofNat n, q) := by
  rw [joinParts_eq_ofNat _ _ _ _ h0 h1 hn, hpq]

theorem readVarint64FromArray_eq (mem : Memory) (ptr : ℤ) :
    readVarint64FromArray mem ptr =
      (decode 10 (load mem ptr 10)).map fun read =>
        (UInt64.ofNat read.1, ptr + 10 - read.2.length) := by
  simp only [readVarint64FromArray, load_ten, decode, and_high_eq_zero_iff]
  generalize mem (ptr + 0) = b0
  generalize mem (ptr + 1) = b1
  generalize mem (ptr + 2) = b2
  generalize mem (ptr + 3) = b3
  generalize mem (ptr + 4) = b4
  generalize mem (ptr + 5) = b5
  generalize mem (ptr + 6) = b6
  generalize mem (ptr + 7) = b7
  generalize mem (ptr + 8) = b8
  generalize mem (ptr + 9) = b9
  have hzero : (0 : UInt32).toNat = 0 := rfl
  have h01 := toNat_and_low b0
  have h02 := toNat_two_groups b0 b1
  have h03 := toNat_three_groups b0 b1 b2
  have h04 := toNat_four_groups b0 b1 b2 b3
  have h11 := toNat_and_low b4
  have h12 := toNat_two_groups b4 b5
  have h13 := toNat_three_groups b4 b5 b6
  have h14 := toNat_four_groups b4 b5 b6 b7
  have h21 := toNat_and_low b8
  have h22 := toNat_two_groups b8 b9
  by_cases c0 : b0.toNat < 128
  · simp only [c0, ↓reduceIte, Option.map_some, List.length_cons, List.length_nil]
    exact some_joinParts _ _ _ _ (by omega) (by omega) (by omega) (by omega)
  by_cases c1 : b1.toNat < 128
  · simp only [c0, c1, ↓reduceIte, Option.map_some, List.length_cons, List.length_nil]
    exact some_joinParts _ _ _ _ (by omega) (by omega) (by omega) (by omega)
  by_cases c2 : b2.toNat < 128
  · simp only [c0, c1, c2, ↓reduceIte, Option.map_some, List.length_cons, List.length_nil]
    exact some_joinParts _ _ _ _ (by omega) (by omega) (by omega) (by omega)
  by_cases c3 : b3.toNat < 128
  · simp only [c0, c1, c2, c3, ↓reduceIte, Option.map_some, List.length_cons, List.length_nil]
    exact some_joinParts _ _ _ _ (by omega) (by omega) (by omega) (by omega)
  by_cases c4 : b4.toNat < 128
  · simp only [c0, c1, c2, c3, c4, ↓reduceIte, Option.map_some, List.length_cons,
      List.length_nil]
    exact some_joinParts _ _ _ _ (by omega) (by omega) (by omega) (by omega)
  by_cases c5 : b5.toNat < 128
  · simp only [c0, c1, c2, c3, c4, c5, ↓reduceIte, Option.map_some, List.length_cons,
      List.length_nil]
    exact some_joinParts _ _ _ _ (by omega) (by omega) (by omega) (by omega)
  by_cases c6 : b6.toNat < 128
  · simp only [c0, c1, c2, c3, c4, c5, c6, ↓reduceIte, Option.map_some, List.length_cons,
      List.length_nil]
    exact some_joinParts _ _ _ _ (by omega) (by omega) (by omega) (by omega)
  by_cases c7 : b7.toNat < 128
  · simp only [c0, c1, c2, c3, c4, c5, c6, c7, ↓reduceIte, Option.map_some, List.length_cons,
      List.length_nil]
    exact some_joinParts _ _ _ _ (by omega) (by omega) (by omega) (by omega)
  by_cases c8 : b8.toNat < 128
  · simp only [c0, c1, c2, c3, c4, c5, c6, c7, c8, ↓reduceIte, Option.map_some, List.length_cons,
      List.length_nil]
    exact some_joinParts _ _ _ _ (by omega) (by omega) (by omega) (by omega)
  by_cases c9 : b9.toNat < 128
  · simp only [c0, c1, c2, c3, c4, c5, c6, c7, c8, c9, ↓reduceIte, Option.map_some,
      List.length_nil]
    exact some_joinParts _ _ _ _ (by omega) (by omega) (by omega) (by omega)
  simp only [c0, c1, c2, c3, c4, c5, c6, c7, c8, c9, ↓reduceIte, Option.map_none]

theorem discardHighBytes_eq (mem : Memory) (n : ℕ) (ptr : ℤ) :
    discardHighBytes mem n ptr =
      (decode n (load mem ptr n)).map fun read => ptr + n - read.2.length := by
  induction n generalizing ptr with
  | zero => rfl
  | succ n ih =>
    simp only [discardHighBytes, load, decode, and_high_eq_zero_iff]
    by_cases hb : (mem ptr).toNat < 128
    · have hptr : ptr + 1 = ptr + (n + 1 : ℕ) - n := by omega
      rw [if_pos hb, if_pos hb, Option.map_some, load_length, hptr]
    · have hptr : ptr + 1 + n = ptr + (n + 1 : ℕ) := by omega
      rw [if_neg hb, if_neg hb, ih, Option.map_map, hptr]
      rfl

theorem some_ofNat32 (result : UInt32) (n : ℕ) {p q : ℤ} (hn : result.toNat = n % 4294967296)
    (hpq : p = q) : some (result, p) = some (UInt32.ofNat n, q) := by
  have hresult : result = UInt32.ofNat n := by
    rw [← UInt32.toNat_inj, UInt32.toNat_ofNat', hn]
  rw [hresult, hpq]

theorem readVarint32FromArray_eq (mem : Memory) (ptr : ℤ) :
    readVarint32FromArray mem ptr =
      (decode 10 (load mem ptr 10)).map fun read =>
        (UInt32.ofNat read.1, ptr + 10 - read.2.length) := by
  have hload : load mem ptr 10 = mem (ptr + 0) :: mem (ptr + 1) :: mem (ptr + 2) ::
      mem (ptr + 3) :: mem (ptr + 4) :: load mem (ptr + 5) 5 := by
    simp [load, Int.add_assoc]
  have htail := load_length mem (ptr + 5) 5
  have hdiscard := discardHighBytes_eq mem 5 (ptr + 5)
  rw [hload]
  simp only [readVarint32FromArray, decode_succ_cons, and_high_eq_zero_iff, hdiscard]
  generalize mem (ptr + 0) = b0
  generalize mem (ptr + 1) = b1
  generalize mem (ptr + 2) = b2
  generalize mem (ptr + 3) = b3
  generalize mem (ptr + 4) = b4
  have h1 := toNat_and_low b0
  have h2 := toNat_two_groups b0 b1
  have h3 := toNat_three_groups b0 b1 b2
  have h4 := toNat_four_groups b0 b1 b2 b3
  have h5 := toNat_or_shiftLeft32 ((b0.toUInt32 &&& (0x7F : UInt32)) |||
    (b1.toUInt32 &&& 0x7F) <<< 7 ||| (b2.toUInt32 &&& 0x7F) <<< 14 |||
    (b3.toUInt32 &&& 0x7F) <<< 21) b4.toUInt32 28 28 rfl (by omega) (by omega)
  rw [UInt8.toNat_toUInt32] at h5
  by_cases c0 : b0.toNat < 128
  · simp only [c0, ↓reduceIte, Option.map_some, List.length_cons, htail]
    exact some_ofNat32 _ _ (by omega) (by omega)
  by_cases c1 : b1.toNat < 128
  · simp only [c0, c1, ↓reduceIte, Option.map_some, List.length_cons, htail]
    exact some_ofNat32 _ _ (by omega) (by omega)
  by_cases c2 : b2.toNat < 128
  · simp only [c0, c1, c2, ↓reduceIte, Option.map_some, List.length_cons, htail]
    exact some_ofNat32 _ _ (by omega) (by omega)
  by_cases c3 : b3.toNat < 128
  · simp only [c0, c1, c2, c3, ↓reduceIte, Option.map_some, List.length_cons, htail]
    exact some_ofNat32 _ _ (by omega) (by omega)
  by_cases c4 : b4.toNat < 128
  · simp only [c0, c1, c2, c3, c4, ↓reduceIte, Option.map_some, htail]
    exact some_ofNat32 _ _ (by omega) (by omega)
  simp only [c0, c1, c2, c3, c4, ↓reduceIte, Option.map_map]
  cases decode 5 (load mem (ptr + 5) 5) with
  | none => rfl
  | some read =>
    simp only [Option.map_some, Function.comp_apply]
    exact some_ofNat32 _ _ (by omega) (by omega)

end FromArray

section Views

/-- The unread bytes of the stream. -/
structure Views (s : Stream) (bytes : List Byte) : Prop where
  holds : Holds s.mem s.buffer bytes
  ends : s.bufferEnd = s.buffer + bytes.length

/-- The stream once only the rest is unread. -/
def Stream.seek (s : Stream) (rest : List Byte) : Stream :=
  { s with buffer := s.bufferEnd - rest.length }

variable {s : Stream} {bytes : List Byte}

theorem Views.seek {front rest : List Byte} (h : Views s (front ++ rest)) :
    Views (s.seek rest) rest := by
  have hends := h.ends
  rw [List.length_append] at hends
  have hptr : s.bufferEnd - rest.length = s.buffer + front.length := by omega
  constructor
  · rw [Stream.seek, hptr]
    exact ((holds_append s.mem s.buffer front rest).mp h.holds).2
  · simp only [Stream.seek]
    omega

theorem Views.seek_self (h : Views s bytes) : s.seek bytes = s := by
  have hends := h.ends
  have hptr : s.bufferEnd - bytes.length = s.buffer := by omega
  rw [Stream.seek, hptr]

/-- The stream after a tag was read. -/
def Stream.tagged (s : Stream) (tag : ℕ) : Stream := { s with lastTag := UInt32.ofNat tag }

theorem Views.tagged (h : Views s bytes) (tag : ℕ) : Views (s.tagged tag) bytes :=
  ⟨h.holds, h.ends⟩

/-- The stream one level deeper in groups. -/
def Stream.deeper (s : Stream) : Stream := { s with recursionDepth := s.recursionDepth + 1 }

theorem Views.deeper (h : Views s bytes) : Views s.deeper bytes := ⟨h.holds, h.ends⟩

theorem Views.advance {front rest : List Byte} (h : Views s (front ++ rest)) :
    s.advance front.length = s.seek rest := by
  have hends := h.ends
  rw [List.length_append] at hends
  have hptr : s.buffer + front.length = s.bufferEnd - rest.length := by omega
  rw [Stream.advance, Stream.seek, hptr]

theorem Views.tail {b : Byte} {rest : List Byte} (h : Views s (b :: rest)) :
    Views (s.seek rest) rest :=
  Views.seek (List.singleton_append (x := b) ▸ h)

theorem Views.advance_one {b : Byte} {rest : List Byte} (h : Views s (b :: rest)) :
    s.advance 1 = s.seek rest :=
  Views.advance (List.singleton_append (x := b) ▸ h)

theorem Views.front_byte {b : Byte} {rest : List Byte} (h : Views s (b :: rest)) :
    s.mem s.buffer = b :=
  ((holds_cons s.mem s.buffer b rest).mp h.holds).1

theorem Views.buffer_lt {b : Byte} {rest : List Byte} (h : Views s (b :: rest)) :
    s.buffer < s.bufferEnd := by
  have hends := h.ends
  rw [List.length_cons] at hends
  omega

theorem load_append (mem : Memory) (a : ℤ) (n m : ℕ) :
    load mem a (n + m) = load mem a n ++ load mem (a + n) m := by
  induction n generalizing a with
  | zero => simp [load]
  | succ n ih =>
    have hidx : a + 1 + (n : ℤ) = a + (n + 1 : ℕ) := by omega
    rw [Nat.add_right_comm, load, ih, hidx, load, List.cons_append]

theorem decode_load (h : Views s bytes) (hcan : s.canReadFromArray = true) :
    (decode 10 (load s.mem s.buffer 10)).map
        (fun read => (read.1, s.buffer + 10 - (read.2.length : ℤ))) =
      (decode 10 bytes).map fun read => (read.1, s.bufferEnd - (read.2.length : ℤ)) := by
  have hends := h.ends
  have hholds := h.holds
  unfold Holds at hholds
  by_cases hten : 10 ≤ bytes.length
  · have hload : load s.mem s.buffer 10 = bytes.take 10 := by
      have hsplit := load_append s.mem s.buffer 10 (bytes.length - 10)
      rw [Nat.add_sub_cancel' hten, hholds] at hsplit
      rw [hsplit, List.take_left' (load_length _ _ _)]
    rw [hload, decode_take 10 bytes, Option.map_map]
    cases decode 10 (bytes.take 10) with
    | none => rfl
    | some read =>
      have hptr : s.buffer + 10 - (read.2.length : ℤ) =
          s.bufferEnd - ((read.2 ++ bytes.drop 10).length : ℤ) := by
        rw [List.length_append, List.length_drop]
        omega
      simp only [Option.map_some, Function.comp_apply, hptr]
  · have hlast : s.buffer < s.bufferEnd ∧ (s.mem (s.bufferEnd - 1)).toUInt32 &&& 0x80 = 0 := by
      unfold Stream.canReadFromArray Stream.bufferSize kMaxVarintBytes at hcan
      rcases of_decide_eq_true hcan with hsize | hlast
      · omega
      · exact hlast
    obtain ⟨front, b, rfl⟩ : ∃ front b, bytes = front ++ [b] := by
      rcases List.eq_nil_or_concat bytes with rfl | ⟨front, b, hconcat⟩
      · rw [List.length_nil] at hends
        omega
      · exact ⟨front, b, by rw [hconcat, List.concat_eq_append]⟩
    have hbyte := ((holds_append s.mem s.buffer front [b]).mp h.holds).2
    rw [holds_cons] at hbyte
    rw [List.length_append, List.length_singleton] at hends hten
    have hptr : s.bufferEnd - 1 = s.buffer + front.length := by omega
    rw [hptr, hbyte.1, and_high_eq_zero_iff] at hlast
    obtain ⟨read, hread⟩ := exists_decode_of_last 10 front b hlast.2 (by omega)
    have hload : load s.mem s.buffer 10 =
        (front ++ [b]) ++
          load s.mem (s.buffer + (front ++ [b]).length) (10 - (front ++ [b]).length) := by
      have hlen : (front ++ [b]).length ≤ 10 := by
        rw [List.length_append, List.length_singleton]
        omega
      have hsplit := load_append s.mem s.buffer (front ++ [b]).length (10 - (front ++ [b]).length)
      rw [Nat.add_sub_cancel' hlen, hholds] at hsplit
      exact hsplit
    have hpos : s.buffer + 10 - ((read.2.length + (10 - (front.length + 1)) : ℕ) : ℤ) =
        s.bufferEnd - (read.2.length : ℤ) := by omega
    rw [hload, decode_append hread, hread]
    simp only [Option.map_some, List.length_append, load_length, List.length_singleton, hpos]

end Views

section Specs

variable {s : Stream} {bytes : List Byte}

theorem readVarint64Loop_eq {left count : ℕ} {result : UInt64} (h : Views s bytes)
    (hleft : left + count = 10) (hresult : result.toNat < 2 ^ (7 * count)) :
    readVarint64Loop left count result s =
      (decode left bytes).map fun read =>
        (UInt64.ofNat (result.toNat + 2 ^ (7 * count) * read.1), s.seek read.2) := by
  induction left generalizing count result s bytes with
  | zero => rfl
  | succ left ih =>
    cases bytes with
    | nil =>
      have hends := h.ends
      rw [readVarint64Loop, if_pos (by simpa using hends.symm)]
      rfl
    | cons b rest =>
      have hcount : (UInt64.ofNat (7 * count)).toNat = 7 * count := by
        rw [UInt64.toNat_ofNat']
        omega
      have hseek : s.advance 1 = s.seek rest := h.advance_one
      have hor := toNat_or_shiftLeft64 result (b.toUInt32 &&& 0x7F).toUInt64 _ _ hcount
        (by omega) hresult
      rw [UInt32.toNat_toUInt64, toNat_and_low] at hor
      have hne : s.buffer ≠ s.bufferEnd := by
        have hlt := h.buffer_lt
        omega
      rw [readVarint64Loop, if_neg hne, h.front_byte, decode_succ_cons, hseek]
      simp only [and_high_eq_zero_iff]
      by_cases hb : b.toNat < 128
      · have hvalue : result ||| (b.toUInt32 &&& 0x7F).toUInt64 <<< UInt64.ofNat (7 * count) =
            UInt64.ofNat (result.toNat + 2 ^ (7 * count) * b.toNat) := by
          have hlt := (result ||| (b.toUInt32 &&& 0x7F).toUInt64 <<<
            UInt64.ofNat (7 * count)).toNat_lt
          rw [← UInt64.toNat_inj, UInt64.toNat_ofNat', ← Nat.mod_eq_of_lt hlt, hor,
            Nat.add_mod_mod, Nat.mod_eq_of_lt hb, Nat.mul_comm]
        rw [if_pos hb, if_pos hb, Option.map_some, hvalue]
      · rw [if_neg hb, if_neg hb]
        cases left with
        | zero => rfl
        | succ left =>
          have hpow : 2 ^ (7 * (count + 1)) = 2 ^ (7 * count) * 128 := by
            rw [Nat.mul_add, Nat.pow_add]
          have hroom : 2 ^ (7 * (count + 1)) ≤ 2 ^ 63 :=
            Nat.pow_le_pow_right (by omega) (by omega)
          have hgroup : b.toNat % 128 * 2 ^ (7 * count) ≤ 127 * 2 ^ (7 * count) :=
            Nat.mul_le_mul_right _ (by omega)
          rw [Nat.mod_eq_of_lt (by omega)] at hor
          have hnext := h.tail
          rw [ih hnext (by omega) (by rw [hor]; omega), hor, Option.map_map]
          cases decode (left + 1) rest with
          | none => rfl
          | some read =>
            have hvalue : result.toNat + b.toNat % 128 * 2 ^ (7 * count) +
                2 ^ (7 * (count + 1)) * read.1 =
                result.toNat + 2 ^ (7 * count) * (b.toNat % 128 + 128 * read.1) := by
              rw [hpow, Nat.mul_add, Nat.mul_comm (b.toNat % 128), Nat.mul_assoc, Nat.add_assoc]
            simp only [Option.map_some, Function.comp_apply, hvalue]
            rfl

theorem readVarint64Slow_eq (h : Views s bytes) :
    readVarint64Slow s =
      (decode 10 bytes).map fun read => (UInt64.ofNat read.1, s.seek read.2) := by
  have hloop := @readVarint64Loop_eq s bytes 10 0 0 h rfl (by decide)
  have hzero : (0 : UInt64).toNat = 0 := rfl
  simp only [hzero, Nat.mul_zero, Nat.pow_zero, Nat.one_mul, Nat.zero_add] at hloop
  exact hloop

theorem readVarint64Fallback_eq (h : Views s bytes) :
    readVarint64Fallback s =
      (decode 10 bytes).map fun read => (UInt64.ofNat read.1, s.seek read.2) := by
  by_cases hcan : s.canReadFromArray = true
  · have hload := congrArg (Option.map fun read : ℕ × ℤ =>
      (UInt64.ofNat read.1, { s with buffer := read.2 })) (decode_load h hcan)
    simp only [Option.map_map] at hload
    rw [readVarint64Fallback, if_pos hcan, readVarint64FromArray_eq, Option.map_map]
    exact hload
  · rw [readVarint64Fallback, if_neg hcan, readVarint64Slow_eq h]

theorem toUInt64_eq_ofNat (b : Byte) : b.toUInt64 = UInt64.ofNat b.toNat := by
  have hb := b.toNat_lt
  rw [← UInt64.toNat_inj, UInt8.toNat_toUInt64, UInt64.toNat_ofNat', Nat.mod_eq_of_lt (by omega)]

theorem toUInt32_eq_ofNat (b : Byte) : b.toUInt32 = UInt32.ofNat b.toNat := by
  have hb := b.toNat_lt
  rw [← UInt32.toNat_inj, UInt8.toNat_toUInt32, UInt32.toNat_ofNat', Nat.mod_eq_of_lt (by omega)]

theorem Views.exists_cons (h : Views s bytes) (hlt : s.buffer < s.bufferEnd) :
    ∃ b rest, bytes = b :: rest ∧ s.mem s.buffer = b ∧ s.advance 1 = s.seek rest := by
  cases bytes with
  | nil =>
    have hends := h.ends
    rw [List.length_nil] at hends
    omega
  | cons b rest => exact ⟨b, rest, rfl, h.front_byte, h.advance_one⟩

theorem readVarint64_eq (h : Views s bytes) :
    readVarint64 s =
      (decode 10 bytes).map fun read => (UInt64.ofNat read.1, s.seek read.2) := by
  by_cases hone : s.buffer < s.bufferEnd ∧ (s.mem s.buffer).toNat < 0x80
  · obtain ⟨b, rest, rfl, hb, hseek⟩ := h.exists_cons hone.1
    rw [readVarint64, if_pos hone, hb, hseek, decode_byte 9 b rest (hb ▸ hone.2),
      Option.map_some, toUInt64_eq_ofNat]
  · rw [readVarint64, if_neg hone, readVarint64Fallback_eq h]

theorem map_readVarint32 (bytes : List Byte) :
    ((WireFields.readVarint32 bytes).map fun read => (UInt32.ofNat read.1, s.seek read.2)) =
      (decode 10 bytes).map fun read => (UInt32.ofNat read.1, s.seek read.2) := by
  rw [WireFields.readVarint32, Option.map_map]
  congr 1
  funext read
  have hcut : UInt32.ofNat (read.1 % 4294967296) = UInt32.ofNat read.1 := by
    rw [← UInt32.toNat_inj, UInt32.toNat_ofNat', UInt32.toNat_ofNat']
    omega
  simp only [Function.comp_apply, hcut]

theorem readVarint32Fallback_eq (h : Views s bytes) :
    readVarint32Fallback s =
      (WireFields.readVarint32 bytes).map fun read => (UInt32.ofNat read.1, s.seek read.2) := by
  rw [map_readVarint32]
  by_cases hcan : s.canReadFromArray = true
  · have hload := congrArg (Option.map fun read : ℕ × ℤ =>
      (UInt32.ofNat read.1, { s with buffer := read.2 })) (decode_load h hcan)
    simp only [Option.map_map] at hload
    rw [readVarint32Fallback, if_pos hcan, readVarint32FromArray_eq, Option.map_map]
    exact hload
  · rw [readVarint32Fallback, if_neg hcan, readVarint32Slow, readVarint64Fallback_eq h,
      Option.map_map]
    congr 1
    funext read
    have hcut : (UInt64.ofNat read.1).toUInt32 = UInt32.ofNat read.1 := by
      rw [← UInt32.toNat_inj, UInt64.toNat_toUInt32, UInt64.toNat_ofNat', UInt32.toNat_ofNat']
      omega
    simp only [Function.comp_apply, hcut]

theorem readVarint32_eq (h : Views s bytes) :
    readVarint32 s =
      (WireFields.readVarint32 bytes).map fun read => (UInt32.ofNat read.1, s.seek read.2) := by
  by_cases hone : s.buffer < s.bufferEnd ∧ (s.mem s.buffer).toNat < 0x80
  · obtain ⟨b, rest, rfl, hb, hseek⟩ := h.exists_cons hone.1
    rw [map_readVarint32, readVarint32, if_pos hone, hb, hseek,
      decode_byte 9 b rest (hb ▸ hone.2), Option.map_some, toUInt32_eq_ofNat]
  · rw [readVarint32, if_neg hone, readVarint32Fallback_eq h]

theorem readTag_nil (h : Views s []) :
    readTag s = (0, { s with
      lastTag := 0
      legitimateMessageEnd := s.totalBytesRead ≤ kDefaultTotalBytesLimit }) := by
  have hends := h.ends
  rw [List.length_nil] at hends
  have hcan : ¬ s.canReadFromArray = true := by
    unfold Stream.canReadFromArray Stream.bufferSize kMaxVarintBytes
    rw [decide_eq_true_iff]
    omega
  rw [readTag, if_neg (by omega), readTagFallback, if_neg hcan, readTagSlow,
    if_pos (by omega)]
  by_cases hlimit : kDefaultTotalBytesLimit ≤ s.totalBytesRead
  · rw [if_pos hlimit]
    have heq : s.totalBytesRead = kDefaultTotalBytesLimit ↔
        s.totalBytesRead ≤ kDefaultTotalBytesLimit := by omega
    simp only [heq]
  · rw [if_neg hlimit]
    have hle : s.totalBytesRead ≤ kDefaultTotalBytesLimit := by omega
    simp only [hle, decide_true]

theorem readTag_some (h : Views s bytes) {tag : ℕ} {rest : List Byte}
    (hread : WireFields.readVarint32 bytes = some (tag, rest)) :
    readTag s = (UInt32.ofNat tag, (s.seek rest).tagged tag) := by
  by_cases hone : s.buffer < s.bufferEnd ∧ (s.mem s.buffer).toNat < 0x80
  · have hnum := readVarint32_eq h
    rw [hread, readVarint32, if_pos hone, Option.map_some] at hnum
    injection hnum with hpair
    injection hpair with htag hseek
    rw [readTag, if_pos hone, htag, hseek, Stream.tagged]
  · have hfall : readTagFallback s = (UInt32.ofNat tag, s.seek rest) := by
      have hnum := readVarint32Fallback_eq h
      rw [hread, Option.map_some] at hnum
      by_cases hcan : s.canReadFromArray = true
      · rw [readVarint32Fallback, if_pos hcan] at hnum
        obtain ⟨read, harray, heq⟩ := Option.map_eq_some_iff.mp hnum
        rw [readTagFallback, if_pos hcan, harray]
        exact heq
      · rw [readVarint32Fallback, if_neg hcan, readVarint32Slow] at hnum
        obtain ⟨read, hslow, heq⟩ := Option.map_eq_some_iff.mp hnum
        have hne : s.buffer ≠ s.bufferEnd := by
          intro hend
          have hends := h.ends
          have hnil : bytes = [] := List.length_eq_zero_iff.mp (by omega)
          rw [hnil] at hread
          cases hread
        rw [readTagFallback, if_neg hcan, readTagSlow, if_neg hne, readVarint64, if_neg hone, hslow]
        exact heq
    rw [readTag, if_neg hone, hfall]
    rfl

theorem readTag_none (h : Views s bytes) (hne : bytes ≠ [])
    (hread : WireFields.readVarint32 bytes = none) :
    readTag s = (0, { s with lastTag := 0 }) := by
  have hone : ¬ (s.buffer < s.bufferEnd ∧ (s.mem s.buffer).toNat < 0x80) := by
    intro hone
    have hnum := readVarint32_eq h
    rw [hread, readVarint32, if_pos hone] at hnum
    cases hnum
  have hends : s.buffer ≠ s.bufferEnd := by
    intro hend
    have hends := h.ends
    exact hne (List.length_eq_zero_iff.mp (by omega))
  have hnum := readVarint32Fallback_eq h
  rw [hread, Option.map_none] at hnum
  have hfall : readTagFallback s = (0, s) := by
    by_cases hcan : s.canReadFromArray = true
    · rw [readVarint32Fallback, if_pos hcan, Option.map_eq_none_iff] at hnum
      rw [readTagFallback, if_pos hcan, hnum]
    · rw [readVarint32Fallback, if_neg hcan, readVarint32Slow, Option.map_eq_none_iff] at hnum
      rw [readTagFallback, if_neg hcan, readTagSlow, if_neg hends, readVarint64, if_neg hone,
        hnum]
  rw [readTag, if_neg hone, hfall]

theorem expectTag_eq (h : Views s bytes) (expected : ℕ) (hexpected : expected < 128) :
    expectTag s (UInt32.ofNat expected) =
      match bytes with
      | [] => none
      | b :: rest => if b.toNat = expected then some (s.seek rest) else none := by
  have hsmall : UInt32.ofNat expected < 128 := by
    rw [UInt32.lt_iff_toNat_lt, UInt32.toNat_ofNat', Nat.mod_eq_of_lt (by omega)]
    exact hexpected
  rw [expectTag, if_pos hsmall]
  cases bytes with
  | nil =>
    have hends := h.ends
    rw [List.length_nil] at hends
    rw [if_neg (by omega)]
  | cons b rest =>
    have hseek : s.advance 1 = s.seek rest := h.advance_one
    have hbyte : b.toUInt32 = UInt32.ofNat expected ↔ b.toNat = expected := by
      rw [← UInt32.toNat_inj, UInt8.toNat_toUInt32, UInt32.toNat_ofNat',
        Nat.mod_eq_of_lt (by omega)]
    have hlt := h.buffer_lt
    simp only [h.front_byte, hlt, true_and, hbyte, hseek]

theorem readString_eq (h : Views s bytes) (size : ℕ) :
    readString s size = (readBytes size bytes).map fun read => (read.1, s.seek read.2) := by
  have hends := h.ends
  have hholds := h.holds
  unfold Holds at hholds
  rw [readString, if_neg (by omega), readBytes]
  by_cases hsize : size ≤ bytes.length
  · have hsplit := load_append s.mem s.buffer size (bytes.length - size)
    rw [Nat.add_sub_cancel' hsize, hholds] at hsplit
    have hload : load s.mem s.buffer size = bytes.take size := by
      rw [hsplit, List.take_left' (load_length _ _ _)]
    have hseek : s.advance size = s.seek (bytes.drop size) := by
      rw [Stream.advance, Stream.seek, List.length_drop]
      have hptr : s.buffer + size = s.bufferEnd - ((bytes.length - size : ℕ) : ℤ) := by omega
      rw [hptr]
    rw [if_pos (by unfold Stream.bufferSize; omega), if_pos hsize, Option.map_some,
      Int.toNat_natCast, hload, hseek]
  · rw [if_neg (by unfold Stream.bufferSize; omega), if_neg hsize, Option.map_none]

theorem readLittleEndian32_eq (h : Views s bytes) :
    readLittleEndian32 s = (readBytes 4 bytes).map fun read =>
      (UInt32.ofNat (bytesValue read.1), s.seek read.2) := by
  have hstring : readLittleEndian32 s = (readString s (4 : ℕ)).map fun read =>
      (UInt32.ofNat (bytesValue read.1), read.2) := by
    by_cases hsize : 4 ≤ s.bufferSize <;> simp [readLittleEndian32, readString, hsize]
  rw [hstring, readString_eq h, Option.map_map]
  rfl

theorem readLittleEndian64_eq (h : Views s bytes) :
    readLittleEndian64 s = (readBytes 8 bytes).map fun read =>
      (UInt64.ofNat (bytesValue read.1), s.seek read.2) := by
  have hstring : readLittleEndian64 s = (readString s (8 : ℕ)).map fun read =>
      (UInt64.ofNat (bytesValue read.1), read.2) := by
    by_cases hsize : 8 ≤ s.bufferSize <;> simp [readLittleEndian64, readString, hsize]
  rw [hstring, readString_eq h, Option.map_map]
  rfl

end Specs

section Paths

theorem views_load (s : Stream) (h : s.buffer ≤ s.bufferEnd) :
    Views s (load s.mem s.buffer (s.bufferEnd - s.buffer).toNat) := by
  constructor
  · rw [Holds, load_length]
  · rw [load_length]
    omega

theorem load_congr {mem mem' : Memory} (a : ℤ) (n : ℕ)
    (h : ∀ b, a ≤ b → b < a + n → mem' b = mem b) : load mem' a n = load mem a n := by
  induction n generalizing a with
  | zero => rfl
  | succ n ih =>
    have hrest := ih (a + 1) (fun b hlow hhigh => h b (by omega) (by omega))
    rw [load, load, h a (Int.le_refl a) (by omega), hrest]

/-- The unrolled paths give what the loop gives that reads a byte at a time, for 32
bits the low half of it, and what stands behind the array plays no part. -/
theorem readVarint_eq_slow (s : Stream) (h : s.buffer ≤ s.bufferEnd) :
    readVarint64 s = readVarint64Slow s ∧
    readVarint32 s = (readVarint64Slow s).map (fun read => (read.1.toUInt32, read.2)) ∧
    ∀ mem : Memory, (∀ a, s.buffer ≤ a → a < s.bufferEnd → mem a = s.mem a) →
      readVarint64 { s with mem := mem } =
        (readVarint64Slow s).map fun read => (read.1, { read.2 with mem := mem }) := by
  have hviews := views_load s h
  have hslow := readVarint64Slow_eq hviews
  refine ⟨(readVarint64_eq hviews).trans hslow.symm, ?_, ?_⟩
  · rw [readVarint32_eq hviews, map_readVarint32, hslow, Option.map_map]
    congr 1
    funext read
    simp only [Function.comp, ← UInt32.toNat_inj, UInt32.toNat_ofNat', UInt64.toNat_toUInt32,
      UInt64.toNat_ofNat', Prod.mk.injEq, and_true]
    omega
  · intro mem hmem
    have hload := load_congr s.buffer (s.bufferEnd - s.buffer).toNat
      (fun b hlow hhigh => hmem b hlow (by omega))
    have hother := views_load { s with mem := mem } h
    rw [readVarint64_eq hother, hslow, Option.map_map]
    simp only [hload]
    rfl

theorem readVarint_eq_slow_short :
    (readVarint64Slow (ofArray (blockMemory (fun _ => 255) [0x96, 0x01]) 0 2)).map Prod.fst =
        some 150 ∧
      readVarint64 (ofArray (blockMemory (fun _ => 255) [0x96, 0x01]) 0 2) =
        readVarint64Slow (ofArray (blockMemory (fun _ => 255) [0x96, 0x01]) 0 2) :=
  ⟨by decide, (readVarint_eq_slow _ (by decide)).1⟩

end Paths

end BlackCat.CodedInputStream
