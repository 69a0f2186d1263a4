import Mathlib.Algebra.Group.Nat.Defs
import Mathlib.Data.Int.Notation
import Mathlib.Data.List.Basic
import Mathlib.Data.Nat.Notation

/-!
A byte-addressed memory and 32-bit words in it. Pointers are integers, so a
scan may step outside the block it was given; what it reads there is whatever
the memory holds. Signed words are integers brought back into range after
each operation, least significant byte first in memory.
-/
namespace BlackCat.ByteMemory

abbrev Byte := UInt8

abbrev Memory := ℤ → Byte

/-- The value of x as a 32-bit two's complement word. -/
def int32 (x : ℤ) : ℤ := (x + 2147483648) % 4294967296 - 2147483648

/-- The value of x as an unsigned 32-bit word. -/
def uint32 (x : ℤ) : ℤ := x % 4294967296

theorem int32_eq_self (x : ℤ) (hlow : -2147483648 ≤ x) (hhigh : x < 2147483648) :
    int32 x = x := by
  unfold int32
  omega

theorem int32_range (x : ℤ) : -2147483648 ≤ int32 x ∧ int32 x < 2147483648 := by
  unfold int32
  omega

/-- The value of a sequence of bytes, least significant first. -/
def bytesValue : List Byte → ℕ
  | [] => 0
  | b :: rest => b.toNat + 256 * bytesValue rest

/-- The w low bytes of n, least significant first. -/
def valueBytes : ℕ → ℕ → List Byte
  | 0, _ => []
  | w + 1, n => UInt8.ofNat n :: valueBytes w (n / 256)

theorem valueBytes_length (w n : ℕ) : (valueBytes w n).length = w := by
  induction w generalizing n with
  | zero => rfl
  | succ w ih => simp only [valueBytes, List.length_cons, ih]

theorem bytesValue_lt (bytes : List Byte) : bytesValue bytes < 256 ^ bytes.length := by
  induction bytes with
  | nil => simp [bytesValue]
  | cons b rest ih =>
    have hb := b.toNat_lt
    simp only [bytesValue, List.length_cons, Nat.pow_succ]
    omega

theorem bytesValue_valueBytes (w n : ℕ) : bytesValue (valueBytes w n) = n % 256 ^ w := by
  induction w generalizing n with
  | zero => simp [bytesValue, valueBytes, Nat.mod_one]
  | succ w ih =>
    have hmod : n % 256 ^ (w + 1) = n % 256 + 256 * (n / 256 % 256 ^ w) := by
      rw [Nat.pow_succ', Nat.mod_mul]
    rw [hmod, valueBytes, bytesValue, ih, UInt8.toNat_ofNat']

theorem valueBytes_bytesValue (bytes : List Byte) :
    valueBytes bytes.length (bytesValue bytes) = bytes := by
  induction bytes with
  | nil => rfl
  | cons b rest ih =>
    have hb := b.toNat_lt
    have hdiv : (b.toNat + 256 * bytesValue rest) / 256 = bytesValue rest := by omega
    have hlow : UInt8.ofNat (b.toNat + 256 * bytesValue rest) = b := by
      apply UInt8.toNat_inj.mp
      rw [UInt8.toNat_ofNat']
      omega
    simp only [List.length_cons, bytesValue, valueBytes, hdiv, hlow, ih]

theorem valueBytes_add (v w n : ℕ) :
    valueBytes (v + w) n = valueBytes v n ++ valueBytes w (n / 256 ^ v) := by
  induction v generalizing n with
  | zero => simp [valueBytes]
  | succ v ih =>
    rw [Nat.add_right_comm, valueBytes, valueBytes, ih, Nat.div_div_eq_div_mul, Nat.pow_succ',
      List.cons_append]

/-- The four bytes at the front of a list, read as a signed word. -/
def word (bytes : List Byte) : ℤ := int32 (bytesValue (bytes.take 4))

/-- The four bytes by which a signed word is stored. -/
def wordBytes (x : ℤ) : List Byte := valueBytes 4 (uint32 x).toNat

theorem wordBytes_length (x : ℤ) : (wordBytes x).length = 4 := valueBytes_length 4 _

theorem word_wordBytes_append (x : ℤ) (rest : List Byte) :
    word (wordBytes x ++ rest) = int32 x := by
  have htake : (wordBytes x ++ rest).take 4 = wordBytes x := by
    rw [List.take_append_of_le_length (Nat.le_of_eq (wordBytes_length x).symm),
      ← wordBytes_length x, List.take_length]
  rw [word, htake, wordBytes, bytesValue_valueBytes]
  unfold int32 uint32
  omega

theorem word_range (bytes : List Byte) :
    -2147483648 ≤ word bytes ∧ word bytes < 2147483648 := int32_range _

theorem word_append (bytes rest : List Byte) (h : 4 ≤ bytes.length) :
    word (bytes ++ rest) = word bytes := by
  rw [word, word, List.take_append_of_le_length h]

theorem wordBytes_word (bytes : List Byte) (h : 4 ≤ bytes.length) :
    wordBytes (word bytes) ++ bytes.drop 4 = bytes := by
  have hlen : (bytes.take 4).length = 4 := by simp only [List.length_take]; omega
  have hlt := bytesValue_lt (bytes.take 4)
  have hback := valueBytes_bytesValue (bytes.take 4)
  rw [hlen] at hlt hback
  have hvalue : (uint32 (word bytes)).toNat = bytesValue (bytes.take 4) := by
    unfold word int32 uint32
    omega
  rw [wordBytes, hvalue, hback, List.take_append_drop]

def load (mem : Memory) : ℤ → ℕ → List Byte
  | _, 0 => []
  | a, n + 1 => mem a :: load mem (a + 1) n

theorem load_length (mem : Memory) (a : ℤ) (n : ℕ) : (load mem a n).length = n := by
  induction n generalizing a with
  | zero => rfl
  | succ n ih => simp only [load, List.length_cons, ih]

def loadWord (mem : Memory) (a : ℤ) : ℤ := word (load mem a 4)

/-- The given bytes stand in memory from address a on. -/
def Holds (mem : Memory) (a : ℤ) (bytes : List Byte) : Prop :=
  load mem a bytes.length = bytes

theorem holds_nil (mem : Memory) (a : ℤ) : Holds mem a [] := rfl

theorem holds_cons (mem : Memory) (a : ℤ) (b : Byte) (bytes : List Byte) :
    Holds mem a (b :: bytes) ↔ mem a = b ∧ Holds mem (a + 1) bytes := by
  simp only [Holds, List.length_cons, load, List.cons.injEq]

theorem holds_append (mem : Memory) (a : ℤ) (left right : List Byte) :
    Holds mem a (left ++ right) ↔
      Holds mem a left ∧ Holds mem (a + left.length) right := by
  induction left generalizing a with
  | nil => simp [holds_nil]
  | cons b left ih =>
    have hidx : a + 1 + (left.length : ℤ) = a + ((b :: left).length : ℤ) := by
      simp only [List.length_cons]
      omega
    rw [List.cons_append, holds_cons, holds_cons, ih, hidx, and_assoc]

theorem loadWord_of_holds (mem : Memory) (a : ℤ) (bytes : List Byte)
    (h : Holds mem a bytes) (hlen : 4 ≤ bytes.length) : loadWord mem a = word bytes := by
  have hsplit : Holds mem a (bytes.take 4 ++ bytes.drop 4) := by
    rwa [List.take_append_drop]
  have hfront := ((holds_append mem a _ _).mp hsplit).1
  have htake : (bytes.take 4).length = 4 := by simp only [List.length_take]; omega
  rw [Holds, htake] at hfront
  rw [loadWord, hfront, word, word, List.take_take, Nat.min_self]

/-- Memory in which a block of bytes stands at address 0, amid other bytes. -/
def blockMemory (around : Memory) (block : List Byte) : Memory :=
  fun a => if a < 0 then around a else block.getD a.toNat (around a)

private theorem load_blockMemory (around : Memory) (left right : List Byte) :
    load (blockMemory around (left ++ right)) left.length right.length = right := by
  induction right generalizing left with
  | nil => rfl
  | cons b right ih =>
    have hnext := ih (left ++ [b])
    simp only [List.append_assoc, List.singleton_append, List.length_append,
      List.length_singleton, Int.natCast_add, Int.cast_ofNat_Int] at hnext
    simp only [List.length_cons, load, hnext, List.cons.injEq, and_true]
    have hpos : ¬ ((left.length : ℤ) < 0) := by omega
    simp [blockMemory, hpos]

theorem holds_blockMemory (around : Memory) (block : List Byte) :
    Holds (blockMemory around block) 0 block :=
  load_blockMemory around [] block

theorem load_blockMemory_behind (around : Memory) (block : List Byte) (a : ℤ) (n : ℕ)
    (h : (block.length : ℤ) ≤ a) : load (blockMemory around block) a n = load around a n := by
  induction n generalizing a with
  | zero => rfl
  | succ n ih =>
    have hbyte : blockMemory around block a = around a := by
      have hnone : block[a.toNat]? = none := List.getElem?_eq_none (by omega)
      rw [blockMemory, if_neg (by omega), List.getD_eq_getElem?_getD, hnone, Option.getD_none]
    simp only [load, hbyte, ih (a + 1) (by omega)]

theorem or_shiftLeft_mod (acc x k w : ℕ) (hk : k ≤ w) (h : acc < 2 ^ k) :
    acc ||| x <<< k % 2 ^ w = acc + x * 2 ^ k % 2 ^ w := by
  have hsplit : 2 ^ w = 2 ^ k * 2 ^ (w - k) := by rw [← Nat.pow_add, Nat.add_sub_cancel' hk]
  have hmod : x * 2 ^ k % 2 ^ w = 2 ^ k * (x % 2 ^ (w - k)) := by
    rw [hsplit, Nat.mul_comm x, Nat.mul_mod_mul_left]
  rw [Nat.shiftLeft_eq, hmod, Nat.or_comm, ← Nat.two_pow_add_eq_or_of_lt h, Nat.add_comm]

theorem toNat_or_shiftLeft32 (acc x k : UInt32) (n : ℕ) (hk : k.toNat = n) (hn : n < 32)
    (h : acc.toNat < 2 ^ n) :
    (acc ||| x <<< k).toNat = acc.toNat + x.toNat * 2 ^ n % 2 ^ 32 := by
  rw [UInt32.toNat_or, UInt32.toNat_shiftLeft, hk, Nat.mod_eq_of_lt hn,
    or_shiftLeft_mod _ _ _ 32 (by omega) h]

theorem toNat_or_shiftLeft64 (acc x k : UInt64) (n : ℕ) (hk : k.toNat = n) (hn : n < 64)
    (h : acc.toNat < 2 ^ n) :
    (acc ||| x <<< k).toNat = acc.toNat + x.toNat * 2 ^ n % 2 ^ 64 := by
  rw [UInt64.toNat_or, UInt64.toNat_shiftLeft, hk, Nat.mod_eq_of_lt hn,
    or_shiftLeft_mod _ _ _ 64 (by omega) h]

end BlackCat.ByteMemory
