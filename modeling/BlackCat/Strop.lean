import BlackCat.ByteMemory
import BlackCat.TextSearch

/-!
The string operations of `strop.h` that the others are made of. They are
templates over the string type, so the model is over any type of characters
that has the constants of `general_const_strings`. Sizes are kept in an `int`:
a text of 2^31 characters or more has a negative length there, and `TrimString`
leaves it as it is, except for the trailing blanks of a text of exactly 2^31. The
width of `size_t`, to which positions are converted, is that of the build.
-/
namespace BlackCat.Strop

open ByteMemory TextSearch

/-- The constants of a string type: the blanks and the quote. Its strings end with a zero. -/
class GeneralConstStrings (α : Type*) where
  blankStr : List α
  quote : α
  nul : α
  quote_ne_nul : quote ≠ nul

/-- The constants of `std::string`. -/
instance : GeneralConstStrings Byte where
  blankStr := [32, 9, 13, 10]
  quote := 34
  nul := 0
  quote_ne_nul := by decide

export GeneralConstStrings (blankStr quote nul quote_ne_nul)

/-- The width of `size_t` in the build. -/
class SizeType where
  bits : ℕ
  wide : 32 ≤ bits

abbrev sizeType64 : SizeType := ⟨64, by decide⟩

variable {α : Type*} [DecidableEq α] [GeneralConstStrings α]

def isBlank (c : α) : Bool := decide (c ∈ (blankStr : List α))

/-- A position or a count as a `size_t`. -/
def size [SizeType] (x : ℤ) : ℕ := (x % (2 ^ SizeType.bits : ℕ)).toNat

def substr (str : List α) (pos count : ℕ) : List α := (str.drop pos).take count

/-- The loop stops at the first character that is not blank, or at `len`. -/
def trimLeft [SizeType] (str : List α) : List α :=
  let len := int32 str.length
  let index : ℤ := (str.take len.toNat).findIdx fun c => !isBlank c
  substr str (size index) (size (len - index))

/-- The loop goes down from `len - 1` to a character that is not blank, or past zero. -/
def trimRight [SizeType] (str : List α) : List α :=
  let len := int32 str.length
  let last := int32 (len - 1)
  let index := last - ((str.take (last + 1).toNat).reverse.findIdx fun c => !isBlank c : ℕ)
  substr str 0 (size (int32 (index + 1)))

def trimString [SizeType] (str : List α) : List α := trimLeft (trimRight str)

/-- What a function that is given `c_str()` sees of a string. -/
def cStr (str : List α) : List α := str.takeWhile (· ≠ nul)

theorem cStr_eq_self {str : List α} (h : nul ∉ str) : cStr str = str := by
  rw [cStr, List.takeWhile_eq_self_iff]
  intro c hc
  rw [decide_eq_true_eq]
  rintro rfl
  exact h hc

theorem length_cStr_le (str : List α) : (cStr str).length ≤ str.length :=
  (List.takeWhile_prefix _).length_le

theorem nul_notMem_cStr (str : List α) : nul ∉ cStr str := by
  intro hmem
  have htrue := List.mem_takeWhile_imp hmem
  simp at htrue

theorem cStr_length_lt {str : List α} (h : nul ∈ str) : (cStr str).length < str.length := by
  rcases Nat.lt_or_eq_of_le (length_cStr_le str) with hlt | heq
  · exact hlt
  · have hall : cStr str = str := (List.takeWhile_prefix _).eq_of_length heq
    rw [cStr, List.takeWhile_eq_self_iff] at hall
    have hnul := hall nul h
    simp at hnul

theorem int32_natCast {n : ℕ} (h : n < 2147483648) : int32 n = n :=
  int32_eq_self _ (by omega) (by omega)

section Sizes

variable [SizeType]

theorem le_two_pow_bits : 4294967296 ≤ 2 ^ SizeType.bits := by
  have hle : 2 ^ 32 ≤ 2 ^ SizeType.bits := Nat.pow_le_pow_right (by decide) SizeType.wide
  exact hle

theorem size_natCast {n : ℕ} (h : n < 4294967296) : size n = n := by
  have hle := le_two_pow_bits
  rw [size, Int.emod_eq_of_lt (by omega) (by omega), Int.toNat_natCast]

/-- A length that is negative as an `int` is no smaller as a `size_t`. -/
theorem le_size_wrapped {n : ℕ} (h : n < 4294967296) : n ≤ size ((n : ℤ) - 4294967296) := by
  have hle := le_two_pow_bits
  have hwrap : ((n : ℤ) - 4294967296) % (2 ^ SizeType.bits : ℕ) =
      (n : ℤ) - 4294967296 + (2 ^ SizeType.bits : ℕ) := by
    rw [← Int.add_emod_right, Int.emod_eq_of_lt (by omega) (by omega)]
  rw [size, hwrap]
  omega

end Sizes

theorem take_eq_rdropWhile (str : List α) :
    str.take (str.length - str.reverse.findIdx fun c => !isBlank c) = str.rdropWhile isBlank := by
  rw [List.rdropWhile, List.dropWhile_eq_drop_findIdx_not, List.reverse_drop, List.length_reverse,
    List.reverse_reverse]

theorem findIdx_reverse_le (str : List α) :
    (str.reverse.findIdx fun c => !isBlank c) ≤ str.length := by
  rw [← List.length_reverse]
  exact List.findIdx_le_length

section Short

variable [SizeType]

theorem trimLeft_eq_dropWhile (str : List α) (h : str.length < 2147483648) :
    trimLeft str = str.dropWhile isBlank := by
  have hle : (str.findIdx fun c => !isBlank c) ≤ str.length := List.findIdx_le_length
  have hcount : size ((str.length : ℤ) - (str.findIdx fun c => !isBlank c : ℕ)) =
      str.length - str.findIdx fun c => !isBlank c := by
    rw [← Int.natCast_sub hle]
    exact size_natCast (by omega)
  simp only [trimLeft, int32_natCast h, Int.toNat_natCast, List.take_length, hcount]
  rw [size_natCast (by omega), substr, List.dropWhile_eq_drop_findIdx_not, ← List.length_drop,
    List.take_length]

theorem trimRight_eq_rdropWhile (str : List α) (h : str.length < 2147483648) :
    trimRight str = str.rdropWhile isBlank := by
  have hle := findIdx_reverse_le str
  have hlast : int32 ((str.length : ℤ) - 1) = (str.length : ℤ) - 1 :=
    int32_eq_self _ (by omega) (by omega)
  have hcount : (str.length : ℤ) - 1 - (str.reverse.findIdx fun c => !isBlank c : ℕ) + 1 =
      (str.length - str.reverse.findIdx fun c => !isBlank c : ℕ) := by
    omega
  simp only [trimRight, int32_natCast h, hlast, Int.sub_add_cancel, Int.toNat_natCast,
    List.take_length, hcount]
  rw [int32_natCast (by omega), size_natCast (by omega), substr, List.drop_zero,
    take_eq_rdropWhile]

theorem trimString_eq_strip (str : List α) (h : str.length < 2147483648) :
    trimString str = strip isBlank str := by
  have hle := (List.rdropWhile_prefix (isBlank : α → Bool) str).length_le
  rw [trimString, trimRight_eq_rdropWhile str h,
    trimLeft_eq_dropWhile _ (Nat.lt_of_le_of_lt hle h), strip]

end Short

section Large

variable [SizeType]

omit [SizeType] in
theorem int32_natCast_large {n : ℕ} (hlow : 2147483648 ≤ n) (hhigh : n < 4294967296) :
    int32 n = (n : ℤ) - 4294967296 := by
  unfold int32
  omega

theorem trimLeft_eq_self (str : List α) (hlow : 2147483648 ≤ str.length)
    (hhigh : str.length < 4294967296) : trimLeft str = str := by
  have hlen := int32_natCast_large hlow hhigh
  have hnone : ((str.length : ℤ) - 4294967296).toNat = 0 := by omega
  have hstart : size 0 = 0 := size_natCast (by decide)
  simp only [trimLeft, hlen, hnone, List.take_zero, List.findIdx_nil, Int.natCast_zero,
    Int.sub_zero, hstart, substr, List.drop_zero]
  exact List.take_of_length_le (le_size_wrapped hhigh)

theorem trimRight_eq_self (str : List α) (hlow : 2147483648 < str.length)
    (hhigh : str.length < 4294967296) : trimRight str = str := by
  have hlen := int32_natCast_large hlow.le hhigh
  have hlast : int32 ((str.length : ℤ) - 4294967296 - 1) = (str.length : ℤ) - 4294967297 := by
    unfold int32
    omega
  have hnone : ((str.length : ℤ) - 4294967297 + 1).toNat = 0 := by omega
  have hindex : int32 ((str.length : ℤ) - 4294967297 + 1) = (str.length : ℤ) - 4294967296 := by
    unfold int32
    omega
  simp only [trimRight, hlen, hlast, hnone, List.take_zero, List.reverse_nil, List.findIdx_nil,
    Int.natCast_zero, Int.sub_zero, hindex, substr, List.drop_zero]
  exact List.take_of_length_le (le_size_wrapped hhigh)

/-- For a text of 2^31 characters `len - 1` wraps around to its last position. -/
theorem trimRight_of_length_eq (str : List α) (h : str.length = 2147483648) :
    trimRight str = str.rdropWhile isBlank := by
  have hle := findIdx_reverse_le str
  have hlast : int32 (int32 str.length - 1) + 1 = str.length := by
    rw [h]
    decide
  rw [← take_eq_rdropWhile]
  simp only [trimRight, hlast, Int.toNat_natCast, List.take_length, substr, List.drop_zero]
  by_cases hnone : (str.reverse.findIdx fun c => !isBlank c) = 0
  · have hindex : int32 (int32 (int32 str.length - 1) -
        (str.reverse.findIdx fun c => !isBlank c : ℕ) + 1) = (str.length : ℤ) - 4294967296 := by
      rw [hnone, h]
      decide
    rw [hindex, hnone, Nat.sub_zero, List.take_length]
    exact List.take_of_length_le (le_size_wrapped (by omega))
  · have hindex : int32 (int32 (int32 str.length - 1) -
        (str.reverse.findIdx fun c => !isBlank c : ℕ) + 1) =
          (str.length - str.reverse.findIdx fun c => !isBlank c : ℕ) := by
      unfold int32
      omega
    rw [hindex, size_natCast (by omega)]

/-- When `TrimString` strips a text: it is shorter than 2^31, it has no blanks around it, or it
has 2^31 characters of which the last is blank. -/
def Trims (str : List α) : Prop :=
  str.length < 2147483648 ∨ strip isBlank str = str ∨
    (str.length = 2147483648 ∧ str.rdropWhile isBlank ≠ str)

theorem trims_iff_of_unchanged {str : List α} (hself : trimString str = str)
    (hlow : 2147483648 ≤ str.length)
    (hlast : str.length = 2147483648 → str.rdropWhile isBlank = str) :
    trimString str = strip isBlank str ↔ Trims str := by
  rw [hself, Trims]
  constructor
  · intro h
    exact Or.inr (Or.inl h.symm)
  · rintro (hlt | hstrip | ⟨heq, hne⟩)
    · omega
    · exact hstrip.symm
    · exact absurd (hlast heq) hne

theorem trimString_eq_strip_iff (str : List α) (hsize : str.length < 4294967296) :
    trimString str = strip isBlank str ↔ Trims str := by
  rcases Nat.lt_trichotomy str.length 2147483648 with hlt | heq | hgt
  · exact iff_of_true (trimString_eq_strip str hlt) (Or.inl hlt)
  · have hright := trimRight_of_length_eq str heq
    by_cases hlast : str.rdropWhile isBlank = str
    · apply trims_iff_of_unchanged _ heq.ge fun _ => hlast
      rw [trimString, hright, hlast, trimLeft_eq_self str heq.ge hsize]
    · have hpart := List.rdropWhile_prefix isBlank str
      have hshort : (str.rdropWhile isBlank).length < 2147483648 := by
        rw [← heq]
        exact Nat.lt_of_le_of_ne hpart.length_le fun hlen => hlast (hpart.eq_of_length hlen)
      refine iff_of_true ?_ (Or.inr (Or.inr ⟨heq, hlast⟩))
      rw [trimString, hright, trimLeft_eq_dropWhile _ hshort, strip]
  · apply trims_iff_of_unchanged _ hgt.le fun heq => absurd heq hgt.ne'
    rw [trimString, trimRight_eq_self str hgt hsize, trimLeft_eq_self str hgt.le hsize]

end Large

end BlackCat.Strop
