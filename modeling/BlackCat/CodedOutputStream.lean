import BlackCat.WireFields

/-!
Protobuf's writers of numbers to an array, and the sizes it computes for them
beforehand. The writers are unrolled and find the number of bytes by
comparisons, for 64 bits on three parts of the number. All of them produce the
bytes of the plain writer, and the computed size is the number of these bytes.
-/
namespace BlackCat.CodedOutputStream

open ByteMemory Varints

section Writers

def writeVarint32FallbackToArray (value : UInt32) : List Byte :=
  let target0 := (value ||| 0x80).toUInt8
  if 128 ≤ value then
    let target1 := (value >>> 7 ||| 0x80).toUInt8
    if 16384 ≤ value then
      let target2 := (value >>> 14 ||| 0x80).toUInt8
      if 2097152 ≤ value then
        let target3 := (value >>> 21 ||| 0x80).toUInt8
        if 268435456 ≤ value then
          [target0, target1, target2, target3, (value >>> 28).toUInt8]
        else [target0, target1, target2, target3 &&& 0x7F]
      else [target0, target1, target2 &&& 0x7F]
    else [target0, target1 &&& 0x7F]
  else [target0 &&& 0x7F]

def writeVarint32ToArray (value : UInt32) : List Byte :=
  if value < 0x80 then [value.toUInt8] else writeVarint32FallbackToArray value

def writeTagToArray (value : UInt32) : List Byte :=
  if value < 128 then [value.toUInt8]
  else if value < 16384 then [(value ||| 0x80).toUInt8, (value >>> 7).toUInt8]
  else writeVarint32FallbackToArray value

/-- The search tree over the parts. -/
def varint64Size (part0 part1 part2 : UInt32) : ℕ :=
  if part2 = 0 then
    if part1 = 0 then
      if part0 < 16384 then
        if part0 < 128 then 1 else 2
      else if part0 < 2097152 then 3 else 4
    else if part1 < 16384 then
      if part1 < 128 then 5 else 6
    else if part1 < 2097152 then 7 else 8
  else if part2 < 128 then 9 else 10

def writeVarint64ToArray (value : UInt64) : List Byte :=
  let part0 := value.toUInt32
  let part1 := (value >>> 28).toUInt32
  let part2 := (value >>> 56).toUInt32
  let size := varint64Size part0 part1 part2
  let target := [(part0 ||| 0x80).toUInt8, (part0 >>> 7 ||| 0x80).toUInt8,
    (part0 >>> 14 ||| 0x80).toUInt8, (part0 >>> 21 ||| 0x80).toUInt8,
    (part1 ||| 0x80).toUInt8, (part1 >>> 7 ||| 0x80).toUInt8,
    (part1 >>> 14 ||| 0x80).toUInt8, (part1 >>> 21 ||| 0x80).toUInt8,
    (part2 ||| 0x80).toUInt8, (part2 >>> 7 ||| 0x80).toUInt8]
  (target.take size).modify (size - 1) fun last => last &&& 0x7F

def varintSize32Fallback (value : UInt32) : ℕ :=
  if value < 128 then 1
  else if value < 16384 then 2
  else if value < 2097152 then 3
  else if value < 268435456 then 4
  else 5

def varintSize32 (value : UInt32) : ℕ := if value < 128 then 1 else varintSize32Fallback value

def varintSize64 (value : UInt64) : ℕ :=
  if value < 34359738368 then
    if value < 128 then 1
    else if value < 16384 then 2
    else if value < 2097152 then 3
    else if value < 268435456 then 4
    else 5
  else if value < 4398046511104 then 6
  else if value < 562949953421312 then 7
  else if value < 72057594037927936 then 8
  else if value < 9223372036854775808 then 9
  else 10

end Writers

section Bytes

theorem or_high (n : ℕ) : (n ||| 128) % 256 = n % 128 + 128 := by
  have hbyte : ∀ m < 256, m ||| 128 = m % 128 + 128 := by decide +kernel
  have hmod : (n ||| 128) % 256 = n % 256 ||| 128 := Nat.or_mod_two_pow (n := 8)
  have hlow := hbyte (n % 256) (Nat.mod_lt n (by omega))
  omega

theorem high_eq_ofNat (x : UInt32) :
    (x ||| 0x80).toUInt8 = UInt8.ofNat (x.toNat % 128 + 128) := by
  rw [← UInt8.toNat_inj, UInt32.toNat_toUInt8, UInt32.toNat_or, UInt8.toNat_ofNat']
  have hor := or_high x.toNat
  have hlit : (0x80 : UInt32).toNat = 128 := rfl
  rw [hlit]
  omega

theorem ofNat_high_and_low (n : ℕ) :
    UInt8.ofNat (n % 128 + 128) &&& 0x7F = UInt8.ofNat (n % 128) := by
  rw [← UInt8.toNat_inj, UInt8.toNat_and, UInt8.toNat_ofNat', UInt8.toNat_ofNat']
  have hand := Nat.and_two_pow_sub_one_eq_mod ((n % 128 + 128) % 2 ^ 8) 7
  have hlit : (0x7F : UInt8).toNat = 2 ^ 7 - 1 := rfl
  rw [hlit, hand]
  omega

theorem toNat_shiftRight32 (x k : UInt32) (n : ℕ) (hk : k.toNat = n) (hn : n < 32) :
    (x >>> k).toNat = x.toNat / 2 ^ n := by
  rw [UInt32.toNat_shiftRight, hk, Nat.mod_eq_of_lt hn, Nat.shiftRight_eq_div_pow]

theorem toNat_shiftRight64 (x k : UInt64) (n : ℕ) (hk : k.toNat = n) (hn : n < 64) :
    (x >>> k).toNat = x.toNat / 2 ^ n := by
  rw [UInt64.toNat_shiftRight, hk, Nat.mod_eq_of_lt hn, Nat.shiftRight_eq_div_pow]

theorem toUInt8_eq_ofNat (x : UInt32) : x.toUInt8 = UInt8.ofNat x.toNat := by
  rw [← UInt8.toNat_inj, UInt32.toNat_toUInt8, UInt8.toNat_ofNat']

end Bytes

section ThirtyTwo

variable (value : UInt32)

theorem writeVarint32FallbackToArray_eq :
    writeVarint32FallbackToArray value = encode 4 value.toNat := by
  have h7 := toNat_shiftRight32 value 7 7 rfl (by omega)
  have h14 := toNat_shiftRight32 value 14 14 rfl (by omega)
  have h21 := toNat_shiftRight32 value 21 21 rfl (by omega)
  have h28 : (value >>> 28).toUInt8 = UInt8.ofNat (value.toNat / 2 ^ 28) := by
    rw [toUInt8_eq_ofNat, toNat_shiftRight32 value 28 28 rfl (by omega)]
  have hlt := value.toNat_lt
  simp only [writeVarint32FallbackToArray, high_eq_ofNat, ofNat_high_and_low,
    UInt32.le_iff_toNat_le, UInt32.reduceToNat, h7, h14, h21, h28, Nat.reducePow]
  by_cases c1 : 128 ≤ value.toNat
  · by_cases c2 : 16384 ≤ value.toNat
    · by_cases c3 : 2097152 ≤ value.toNat
      · by_cases c4 : 268435456 ≤ value.toNat
        · rw [encode_groups 4 4 _ (by omega) (by omega) (by omega)]
          simp only [c1, c2, c3, c4, ↓reduceIte, List.range, List.range.loop, List.map_cons,
            List.map_nil, List.cons_append, List.nil_append, Nat.reducePow, Nat.div_one]
        · rw [encode_groups 4 3 _ (by omega) (by omega) (by omega)]
          simp only [c1, c2, c3, c4, ↓reduceIte, List.range, List.range.loop, List.map_cons,
            List.map_nil, List.cons_append, List.nil_append, Nat.reducePow, Nat.div_one]
          rw [Nat.mod_eq_of_lt (by omega : value.toNat / 2097152 < 128)]
      · rw [encode_groups 4 2 _ (by omega) (by omega) (by omega)]
        simp only [c1, c2, c3, ↓reduceIte, List.range, List.range.loop, List.map_cons,
          List.map_nil, List.cons_append, List.nil_append, Nat.reducePow, Nat.div_one]
        rw [Nat.mod_eq_of_lt (by omega : value.toNat / 16384 < 128)]
    · rw [encode_groups 4 1 _ (by omega) (by omega) (by omega)]
      simp only [c1, c2, ↓reduceIte, List.range, List.range.loop, List.map_cons, List.map_nil,
        List.cons_append, List.nil_append, Nat.reducePow, Nat.div_one]
      rw [Nat.mod_eq_of_lt (by omega : value.toNat / 128 < 128)]
  · rw [if_neg c1, encode_small 4 _ (by omega), Nat.mod_eq_of_lt (by omega)]

theorem writeVarint32ToArray_eq : writeVarint32ToArray value = encode 4 value.toNat := by
  unfold writeVarint32ToArray
  by_cases hsmall : value < 0x80
  · rw [if_pos hsmall, toUInt8_eq_ofNat, encode_small 4 _ (UInt32.lt_iff_toNat_lt.mp hsmall)]
  · rw [if_neg hsmall, writeVarint32FallbackToArray_eq]

theorem writeTagToArray_eq : writeTagToArray value = encode 4 value.toNat := by
  unfold writeTagToArray
  by_cases hone : value < 128
  · rw [if_pos hone, toUInt8_eq_ofNat, encode_small 4 _ (UInt32.lt_iff_toNat_lt.mp hone)]
  · by_cases htwo : value < 16384
    · have hlow : 128 ≤ value.toNat := UInt32.le_iff_toNat_le.mp (UInt32.not_lt.mp hone)
      have hhigh : value.toNat < 16384 := UInt32.lt_iff_toNat_lt.mp htwo
      rw [if_neg hone, if_pos htwo, high_eq_ofNat, toUInt8_eq_ofNat,
        toNat_shiftRight32 value 7 7 rfl (by omega), encode_large 3 _ hlow,
        encode_small 3 _ (by omega), Nat.pow_succ]
    · rw [if_neg hone, if_neg htwo, writeVarint32FallbackToArray_eq]

theorem varintSize32_eq : varintSize32 value = (encode 4 value.toNat).length := by
  have hlt := value.toNat_lt
  simp only [varintSize32, varintSize32Fallback, UInt32.lt_iff_toNat_lt, UInt32.reduceToNat]
  split
  · rw [length_encode_eq 4 0 _ (by omega) (by omega) (by omega)]
  split
  · rw [length_encode_eq 4 1 _ (by omega) (by omega) (by omega)]
  split
  · rw [length_encode_eq 4 2 _ (by omega) (by omega) (by omega)]
  split
  · rw [length_encode_eq 4 3 _ (by omega) (by omega) (by omega)]
  · rw [length_encode_eq 4 4 _ (by omega) (by omega) (by omega)]

end ThirtyTwo

section SixtyFour

variable (value : UInt64)

theorem varint64Size_eq :
    varint64Size value.toUInt32 (value >>> 28).toUInt32 (value >>> 56).toUInt32 =
      (encode 9 value.toNat).length := by
  have hlt := value.toNat_lt
  have h28 := toNat_shiftRight64 value 28 28 rfl (by omega)
  have h56 := toNat_shiftRight64 value 56 56 rfl (by omega)
  simp only [varint64Size, UInt32.lt_iff_toNat_lt, ← UInt32.toNat_inj, UInt32.reduceToNat,
    UInt64.toNat_toUInt32, h28, h56]
  split
  · split
    · split
      · split
        · rw [length_encode_eq 9 0 _ (by omega) (by omega) (by omega)]
        · rw [length_encode_eq 9 1 _ (by omega) (by omega) (by omega)]
      · split
        · rw [length_encode_eq 9 2 _ (by omega) (by omega) (by omega)]
        · rw [length_encode_eq 9 3 _ (by omega) (by omega) (by omega)]
    · split
      · split
        · rw [length_encode_eq 9 4 _ (by omega) (by omega) (by omega)]
        · rw [length_encode_eq 9 5 _ (by omega) (by omega) (by omega)]
      · split
        · rw [length_encode_eq 9 6 _ (by omega) (by omega) (by omega)]
        · rw [length_encode_eq 9 7 _ (by omega) (by omega) (by omega)]
  · split
    · rw [length_encode_eq 9 8 _ (by omega) (by omega) (by omega)]
    · rw [length_encode_eq 9 9 _ (by omega) (by omega) (by omega)]

theorem varintSize64_eq : varintSize64 value = (encode 9 value.toNat).length := by
  have hlt := value.toNat_lt
  simp only [varintSize64, UInt64.lt_iff_toNat_lt, UInt64.reduceToNat]
  split
  · split
    · rw [length_encode_eq 9 0 _ (by omega) (by omega) (by omega)]
    split
    · rw [length_encode_eq 9 1 _ (by omega) (by omega) (by omega)]
    split
    · rw [length_encode_eq 9 2 _ (by omega) (by omega) (by omega)]
    split
    · rw [length_encode_eq 9 3 _ (by omega) (by omega) (by omega)]
    · rw [length_encode_eq 9 4 _ (by omega) (by omega) (by omega)]
  split
  · rw [length_encode_eq 9 5 _ (by omega) (by omega) (by omega)]
  split
  · rw [length_encode_eq 9 6 _ (by omega) (by omega) (by omega)]
  split
  · rw [length_encode_eq 9 7 _ (by omega) (by omega) (by omega)]
  split
  · rw [length_encode_eq 9 8 _ (by omega) (by omega) (by omega)]
  · rw [length_encode_eq 9 9 _ (by omega) (by omega) (by omega)]

theorem target_eq :
    [(value.toUInt32 ||| 0x80).toUInt8, (value.toUInt32 >>> 7 ||| 0x80).toUInt8,
      (value.toUInt32 >>> 14 ||| 0x80).toUInt8, (value.toUInt32 >>> 21 ||| 0x80).toUInt8,
      ((value >>> 28).toUInt32 ||| 0x80).toUInt8, ((value >>> 28).toUInt32 >>> 7 ||| 0x80).toUInt8,
      ((value >>> 28).toUInt32 >>> 14 ||| 0x80).toUInt8,
      ((value >>> 28).toUInt32 >>> 21 ||| 0x80).toUInt8,
      ((value >>> 56).toUInt32 ||| 0x80).toUInt8,
      ((value >>> 56).toUInt32 >>> 7 ||| 0x80).toUInt8] =
      (List.range 10).map fun i => UInt8.ofNat (value.toNat / 128 ^ i % 128 + 128) := by
  have h28 := toNat_shiftRight64 value 28 28 rfl (by omega)
  have h56 := toNat_shiftRight64 value 56 56 rfl (by omega)
  have hlt := value.toNat_lt
  simp only [high_eq_ofNat, toNat_shiftRight32 _ 7 7 rfl (by omega),
    toNat_shiftRight32 _ 14 14 rfl (by omega), toNat_shiftRight32 _ 21 21 rfl (by omega),
    UInt64.toNat_toUInt32, h28, h56, List.range, List.range.loop, List.map_cons, List.map_nil,
    Nat.reducePow, List.cons.injEq, and_true]
  refine ⟨?_, ?_, ?_, ?_, ?_, ?_, ?_, ?_, ?_, ?_⟩ <;> congr 2 <;> omega

theorem modify_last (front : List Byte) (last : Byte) (f : Byte → Byte) :
    (front ++ [last]).modify front.length f = front ++ [f last] := by
  rw [List.modify_eq_take_drop, List.take_left, List.drop_left]
  rfl

theorem writeVarint64ToArray_eq : writeVarint64ToArray value = encode 9 value.toNat := by
  have hlt := value.toNat_lt
  obtain ⟨j, hj, hlow, hhigh⟩ := exists_groups 9 value.toNat (by omega)
  have hlast : value.toNat / 128 ^ j < 128 := by
    apply Nat.div_lt_of_lt_mul
    rw [← Nat.pow_succ]
    exact hhigh
  have hmin : min (j + 1) 10 = j + 1 := by omega
  simp only [writeVarint64ToArray, varint64Size_eq, target_eq,
    length_encode_eq 9 j _ hj hlow hhigh, Nat.add_sub_cancel]
  rw [← List.map_take, List.take_range, hmin, List.range_succ, List.map_append, List.map_singleton,
    encode_groups 9 j _ hj hlow hhigh]
  have hmodify := modify_last ((List.range j).map fun i =>
    UInt8.ofNat (value.toNat / 128 ^ i % 128 + 128))
    (UInt8.ofNat (value.toNat / 128 ^ j % 128 + 128)) (fun last => last &&& 0x7F)
  rw [List.length_map, List.length_range] at hmodify
  rw [hmodify, ofNat_high_and_low, Nat.mod_eq_of_lt hlast]

end SixtyFour

end BlackCat.CodedOutputStream
