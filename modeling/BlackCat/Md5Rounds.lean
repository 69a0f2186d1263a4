import BlackCat.Md5
import BlackCat.Sines

/-!
`MD5Transform` against the algorithm it unrolls: 64 rounds that each replace one
word of the state and turn the four by one place. The constants of the rounds
are the sines of 1 to 64, the rotations repeat with period four in each group of
16, and the words of the block are taken in four arithmetic progressions.
-/
namespace BlackCat.Md5

open ByteMemory

def mix : ℕ → UInt32 → UInt32 → UInt32 → UInt32
  | 0, x, y, z => (x &&& y) ||| (~~~x &&& z)
  | 1, x, y, z => (x &&& z) ||| (y &&& ~~~z)
  | 2, x, y, z => x ^^^ y ^^^ z
  | _, x, y, z => y ^^^ (x ||| ~~~z)

/-- The word of the block that round i adds. -/
def wordIndex (i : ℕ) : ℕ :=
  match i / 16 with
  | 0 => i % 16
  | 1 => (5 * i + 1) % 16
  | 2 => (3 * i + 5) % 16
  | _ => 7 * i % 16

def rotation (i : ℕ) : ℕ :=
  match i / 16, i % 4 with
  | 0, 0 => 7
  | 0, 1 => 12
  | 0, 2 => 17
  | 0, _ => 22
  | 1, 0 => 5
  | 1, 1 => 9
  | 1, 2 => 14
  | 1, _ => 20
  | 2, 0 => 4
  | 2, 1 => 11
  | 2, 2 => 16
  | 2, _ => 23
  | _, 0 => 6
  | _, 1 => 10
  | _, 2 => 15
  | _, _ => 21

noncomputable def sineWord (i : ℕ) : UInt32 :=
  UInt32.ofNat ⌊((2 ^ 32 : ℕ) : ℝ) * |Real.sin (i + 1 : ℕ)|⌋₊

def rotateLeft (w : UInt32) (s : ℕ) : UInt32 := UInt32.ofBitVec (w.toBitVec.rotateLeft s)

noncomputable def round (block : ℕ → UInt32) (r : Buf) (i : ℕ) : Buf :=
  ⟨r.d, r.b + rotateLeft (r.a + mix (i / 16) r.b r.c r.d + block (wordIndex i) + sineWord i)
    (rotation i), r.b, r.c⟩

/-- The state after a block of 64 bytes. -/
noncomputable def compress (buf : Buf) (block : List Byte) : Buf :=
  buf.add ((List.range 64).foldl (round (wordAt .little block)) buf)

section Rounds

theorem f1_eq (x y z : UInt32) : f1 x y z = (x &&& y) ||| (~~~x &&& z) := by
  apply UInt32.toBitVec_inj.mp
  ext i hi
  simp only [f1, UInt32.toBitVec_xor, UInt32.toBitVec_and, UInt32.toBitVec_or,
    UInt32.toBitVec_not, BitVec.getElem_xor, BitVec.getElem_and, BitVec.getElem_or,
    BitVec.getElem_not]
  cases x.toBitVec[i] <;> cases y.toBitVec[i] <;> cases z.toBitVec[i] <;> rfl

def coreFunction : ℕ → CoreFunction
  | 0 => .f1
  | 1 => .f2
  | 2 => .f3
  | _ => .f4

theorem apply_coreFunction (n : ℕ) (x y z : UInt32) :
    (coreFunction n).apply x y z = mix n x y z := by
  match n with
  | 0 => exact f1_eq x y z
  | 1 =>
    change f1 z x y = _
    rw [f1_eq, mix, UInt32.and_comm z x, UInt32.and_comm (~~~z) y]
  | 2 => rfl
  | n + 3 => rfl

theorem rotation_range (i : ℕ) : 0 < rotation i ∧ rotation i < 32 := by
  unfold rotation
  split <;> decide

theorem shifts_eq_rotateLeft (w : UInt32) (s : ℕ) (hpos : 0 < s) (hlt : s < 32) :
    w <<< UInt32.ofNat s ||| w >>> (32 - UInt32.ofNat s) = rotateLeft w s := by
  have hs : (UInt32.ofNat s).toNat = s := UInt32.toNat_ofNat_of_lt' (by
    change s < 4294967296
    omega)
  apply UInt32.toBitVec_inj.mp
  rw [UInt32.toBitVec_or, UInt32.toBitVec_shiftLeft, UInt32.toBitVec_shiftRight, rotateLeft,
    UInt32.toBitVec_ofBitVec, BitVec.rotateLeft_eq_rotateLeftAux_of_lt hlt,
    BitVec.rotateLeftAux, BitVec.shiftLeft_eq', BitVec.ushiftRight_eq']
  congr 2
  · simp
    omega
  · simp
    omega

/-- The registers that `MD5STEP` takes in round i, as w, x, y and z. -/
def roles (i : ℕ) : Register × Register × Register × Register :=
  match i % 4 with
  | 0 => (.a, .b, .c, .d)
  | 1 => (.d, .a, .b, .c)
  | 2 => (.c, .d, .a, .b)
  | _ => (.b, .c, .d, .a)

/-- The local variables in the places they have in round i. -/
def view (i : ℕ) (r : Buf) : Buf :=
  ⟨r.get (roles i).1, r.get (roles i).2.1, r.get (roles i).2.2.1, r.get (roles i).2.2.2⟩

/-- The line of `MD5Transform` for round i. -/
noncomputable def stepAt (i : ℕ) : Step :=
  ⟨coreFunction (i / 16), (roles i).1, (roles i).2.1, (roles i).2.2.1, (roles i).2.2.2,
    wordIndex i, sineWord i, UInt32.ofNat (rotation i)⟩

theorem view_set (i : ℕ) (r : Buf) (v : UInt32) :
    view (i + 1) (r.set v (roles i).1) = ⟨(view i r).d, v, (view i r).b, (view i r).c⟩ := by
  have hturn : i % 4 = 0 ∧ (i + 1) % 4 = 1 ∨ i % 4 = 1 ∧ (i + 1) % 4 = 2 ∨
      i % 4 = 2 ∧ (i + 1) % 4 = 3 ∨ i % 4 = 3 ∧ (i + 1) % 4 = 0 := by omega
  rcases hturn with ⟨h, hnext⟩ | ⟨h, hnext⟩ | ⟨h, hnext⟩ | ⟨h, hnext⟩
  all_goals
    simp only [view, roles, h, hnext]
    rfl

theorem view_md5Step (block : ℕ → UInt32) (r : Buf) (i : ℕ) :
    view (i + 1) (md5Step block r (stepAt i)) = round block (view i r) i := by
  have hrange := rotation_range i
  simp only [md5Step, stepAt, apply_coreFunction, shifts_eq_rotateLeft _ _ hrange.1 hrange.2]
  rw [view_set, round]
  congr 1
  rw [UInt32.add_comm]
  simp only [view, UInt32.add_assoc]

/-- Running the lines is running the rounds, with the words where the rounds have them. -/
theorem view_foldl_md5Step (block : ℕ → UInt32) (r : Buf) (n : ℕ) :
    view n (((List.range n).map stepAt).foldl (md5Step block) r) =
      (List.range n).foldl (round block) (view 0 r) := by
  induction n with
  | zero => rfl
  | succ n ih =>
    rw [List.range_succ, List.map_append, List.foldl_append, List.foldl_append, ← ih]
    exact view_md5Step block _ n

end Rounds

section Constants

theorem sineWord_eq (i k : ℕ) (hi : i < 64)
    (hlow : 2 ^ 50 * k * Sines.scale ^ (i + 1) + 2 ^ 32 * Sines.scale ^ (i + 1) ≤
      2 ^ 50 * 2 ^ 32 * (Sines.turn ^ (i + 1)).im.natAbs)
    (hhigh : 2 ^ 50 * 2 ^ 32 * (Sines.turn ^ (i + 1)).im.natAbs + 2 ^ 32 * Sines.scale ^ (i + 1) <
      2 ^ 50 * (k + 1) * Sines.scale ^ (i + 1)) : sineWord i = UInt32.ofNat k := by
  rw [sineWord, Sines.floor_mul_abs_sin (i + 1) (2 ^ 32) k (by omega) hlow hhigh]

theorem length_md5Steps : md5Steps.length = 64 := rfl

theorem sineWord_eq_constant (i : Fin md5Steps.length) :
    sineWord i = (md5Steps.get i).constant := by
  have hlow : ∀ i : Fin md5Steps.length,
      2 ^ 50 * (md5Steps.get i).constant.toNat * Sines.scale ^ (i.val + 1) +
        2 ^ 32 * Sines.scale ^ (i.val + 1) ≤
      2 ^ 50 * 2 ^ 32 * (Sines.turn ^ (i.val + 1)).im.natAbs := by decide +kernel
  have hhigh : ∀ i : Fin md5Steps.length,
      2 ^ 50 * 2 ^ 32 * (Sines.turn ^ (i.val + 1)).im.natAbs +
        2 ^ 32 * Sines.scale ^ (i.val + 1) <
      2 ^ 50 * ((md5Steps.get i).constant.toNat + 1) * Sines.scale ^ (i.val + 1) := by
    decide +kernel
  rw [sineWord_eq i _ (length_md5Steps ▸ i.isLt) (hlow i) (hhigh i), UInt32.ofNat_toNat]

theorem md5Steps_eq : md5Steps = (List.range 64).map stepAt := by
  have hshape : ∀ i : Fin md5Steps.length, md5Steps.get i =
      ⟨coreFunction (i / 16), (roles i).1, (roles i).2.1, (roles i).2.2.1, (roles i).2.2.2,
        wordIndex i, (md5Steps.get i).constant, UInt32.ofNat (rotation i)⟩ := by decide +kernel
  apply List.ext_getElem
  · rw [length_md5Steps, List.length_map, List.length_range]
  · intro i hi _
    have hline := hshape ⟨i, hi⟩
    rw [← sineWord_eq_constant ⟨i, hi⟩] at hline
    rw [List.getElem_map, List.getElem_range]
    exact hline

theorem md5Transform_eq (buf : Buf) (input : ℕ → UInt32) :
    md5Transform buf input = buf.add ((List.range 64).foldl (round input) buf) := by
  have hback : ∀ r, view 64 r = r := fun _ => rfl
  have hstart : view 0 buf = buf := rfl
  have hrounds := view_foldl_md5Step input buf 64
  rw [hback, hstart, ← md5Steps_eq] at hrounds
  rw [md5Transform, hrounds]

end Constants

end BlackCat.Md5
