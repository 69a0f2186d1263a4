import BlackCat.ByteMemory

/-!
Variable-length numbers: seven bits a byte, least significant first, the high
bit set on every byte but the last. The writer is given the number of bytes
it may put before the last one, the reader the number of bytes it may read.
The reader accepts more than the writer produces, since zeros may follow the
last significant group, but never a shorter encoding.
-/
namespace BlackCat.Varints

open ByteMemory

/-- The encoding of n, which has at most w + 1 groups of seven bits. -/
def encode : ℕ → ℕ → List Byte
  | 0, n => [UInt8.ofNat (n % 128)]
  | w + 1, n =>
    if n < 128 then [UInt8.ofNat n] else UInt8.ofNat (n % 128 + 128) :: encode w (n / 128)

/-- The number at the front of the bytes, in at most w bytes, and what follows it. -/
def decode : ℕ → List Byte → Option (ℕ × List Byte)
  | 0, _ => none
  | _ + 1, [] => none
  | w + 1, b :: rest =>
    if b.toNat < 128 then some (b.toNat, rest)
    else (decode w rest).map fun read => (b.toNat % 128 + 128 * read.1, read.2)

theorem encode_small (w n : ℕ) (h : n < 128) : encode w n = [UInt8.ofNat n] := by
  cases w with
  | zero => rw [encode, Nat.mod_eq_of_lt h]
  | succ w => rw [encode, if_pos h]

theorem encode_large (w n : ℕ) (h : 128 ≤ n) :
    encode (w + 1) n = UInt8.ofNat (n % 128 + 128) :: encode w (n / 128) := by
  rw [encode, if_neg (by omega)]

theorem length_encode_pos (w n : ℕ) : 0 < (encode w n).length := by
  cases w with
  | zero => simp [encode]
  | succ w =>
    by_cases hn : n < 128
    · simp [encode_small _ n hn]
    · simp [encode_large w n (by omega)]

theorem length_encode_le (w n : ℕ) : (encode w n).length ≤ w + 1 := by
  induction w generalizing n with
  | zero => simp [encode]
  | succ w ih =>
    by_cases hn : n < 128
    · simp [encode_small _ n hn]
    · have hrest := ih (n / 128)
      rw [encode_large w n (by omega), List.length_cons]
      omega

theorem length_encode_mono (w : ℕ) {n m : ℕ} (h : n ≤ m) :
    (encode w n).length ≤ (encode w m).length := by
  induction w generalizing n m with
  | zero => simp [encode]
  | succ w ih =>
    by_cases hn : n < 128
    · rw [encode_small _ n hn]
      exact length_encode_pos _ m
    · have hrest := ih (Nat.div_le_div_right h : n / 128 ≤ m / 128)
      rw [encode_large w n (by omega), encode_large w m (by omega), List.length_cons,
        List.length_cons]
      omega

theorem encode_more (w v n : ℕ) (h : n < 128 ^ (w + 1)) (hwv : w ≤ v) :
    encode v n = encode w n := by
  induction w generalizing v n with
  | zero =>
    have hn : n < 128 := by simpa using h
    rw [encode_small v n hn, encode_small 0 n hn]
  | succ w ih =>
    obtain ⟨v, rfl⟩ : ∃ k, v = k + 1 := ⟨v - 1, by omega⟩
    by_cases hn : n < 128
    · rw [encode_small _ n hn, encode_small _ n hn]
    · have hdiv : n / 128 < 128 ^ (w + 1) := by
        apply Nat.div_lt_of_lt_mul
        rw [Nat.mul_comm, ← Nat.pow_succ]
        exact h
      rw [encode_large v n (by omega), encode_large w n (by omega),
        ih v (n / 128) hdiv (by omega)]

theorem decode_succ_cons (w : ℕ) (b : Byte) (rest : List Byte) :
    decode (w + 1) (b :: rest) =
      if b.toNat < 128 then some (b.toNat, rest)
      else (decode w rest).map fun read => (b.toNat % 128 + 128 * read.1, read.2) := rfl

theorem decode_byte (w : ℕ) (b : Byte) (rest : List Byte) (h : b.toNat < 128) :
    decode (w + 1) (b :: rest) = some (b.toNat, rest) := by
  rw [decode, if_pos h]

theorem decode_more (w : ℕ) (b : Byte) (rest : List Byte) (h : 128 ≤ b.toNat) :
    decode (w + 1) (b :: rest) =
      (decode w rest).map fun read => (b.toNat % 128 + 128 * read.1, read.2) := by
  rw [decode, if_neg (by omega)]

theorem decode_encode (w k n : ℕ) (rest : List Byte) (hn : n < 128 ^ (w + 1)) (hk : w < k) :
    decode k (encode w n ++ rest) = some (n, rest) := by
  induction w generalizing k n with
  | zero =>
    obtain ⟨k, rfl⟩ : ∃ j, k = j + 1 := ⟨k - 1, by omega⟩
    have hsmall : n < 128 := by simpa using hn
    have hbyte : (UInt8.ofNat n).toNat = n := by rw [UInt8.toNat_ofNat']; omega
    rw [encode_small 0 n hsmall, List.singleton_append, decode_byte _ _ _ (by omega), hbyte]
  | succ w ih =>
    obtain ⟨k, rfl⟩ : ∃ j, k = j + 1 := ⟨k - 1, by omega⟩
    by_cases hsmall : n < 128
    · have hbyte : (UInt8.ofNat n).toNat = n := by rw [UInt8.toNat_ofNat']; omega
      rw [encode_small _ n hsmall, List.singleton_append, decode_byte _ _ _ (by omega), hbyte]
    · have hbyte : (UInt8.ofNat (n % 128 + 128)).toNat = n % 128 + 128 := by
        rw [UInt8.toNat_ofNat']
        omega
      have hdiv : n / 128 < 128 ^ (w + 1) := by
        apply Nat.div_lt_of_lt_mul
        rw [Nat.mul_comm, ← Nat.pow_succ]
        exact hn
      have hvalue : (n % 128 + 128) % 128 + 128 * (n / 128) = n := by omega
      rw [encode_large w n (by omega), List.cons_append, decode_more _ _ _ (by omega),
        ih k (n / 128) hdiv (by omega), Option.map_some, hbyte, hvalue]

theorem decode_append {w v : ℕ} {bytes rest : List Byte} (h : decode w bytes = some (v, rest))
    (more : List Byte) : decode w (bytes ++ more) = some (v, rest ++ more) := by
  induction w generalizing bytes v with
  | zero => simp [decode] at h
  | succ w ih =>
    cases bytes with
    | nil => simp [decode] at h
    | cons b tail =>
      rw [List.cons_append]
      by_cases hb : b.toNat < 128
      · rw [decode_byte w b _ hb] at h ⊢
        cases h
        rfl
      · rw [decode_more w b _ (by omega)] at h ⊢
        obtain ⟨read, hread, heq⟩ := Option.map_eq_some_iff.mp h
        cases heq
        rw [ih hread, Option.map_some]

theorem exists_of_decode {w v : ℕ} {bytes rest : List Byte} (h : decode w bytes = some (v, rest)) :
    ∃ front, bytes = front ++ rest ∧ 0 < front.length ∧ front.length ≤ w ∧
      v < 128 ^ front.length ∧ ∀ k, (encode k v).length ≤ front.length := by
  induction w generalizing bytes v with
  | zero => simp [decode] at h
  | succ w ih =>
    cases bytes with
    | nil => simp [decode] at h
    | cons b tail =>
      by_cases hb : b.toNat < 128
      · rw [decode_byte w b _ hb] at h
        cases h
        refine ⟨[b], rfl, by simp, by simp, by simpa using hb, ?_⟩
        intro k
        rw [encode_small k _ hb]
        simp
      · rw [decode_more w b _ (by omega)] at h
        obtain ⟨⟨u, after⟩, hread, heq⟩ := Option.map_eq_some_iff.mp h
        cases heq
        obtain ⟨front, htail, hpos, hle, hlt, hlen⟩ := ih hread
        have hbyte := b.toNat_lt
        refine ⟨b :: front, by rw [htail, List.cons_append], by simp, by simpa using hle, ?_, ?_⟩
        · rw [List.length_cons, Nat.pow_succ]
          omega
        · intro k
          cases k with
          | zero => simp [encode]
          | succ k =>
            by_cases hsmall : b.toNat % 128 + 128 * u < 128
            · simp [encode_small _ _ hsmall]
            · have hdiv : (b.toNat % 128 + 128 * u) / 128 = u := by omega
              rw [encode_large k _ (by omega), hdiv, List.length_cons, List.length_cons]
              have hrest := hlen k
              omega

theorem length_lt_of_decode {w v : ℕ} {bytes rest : List Byte}
    (h : decode w bytes = some (v, rest)) : rest.length < bytes.length := by
  obtain ⟨front, hbytes, hpos, -⟩ := exists_of_decode h
  rw [hbytes, List.length_append]
  omega

theorem decode_take (w : ℕ) (bytes : List Byte) :
    decode w bytes =
      (decode w (bytes.take w)).map fun read => (read.1, read.2 ++ bytes.drop w) := by
  induction w generalizing bytes with
  | zero => rfl
  | succ w ih =>
    cases bytes with
    | nil => rfl
    | cons b rest =>
      rw [List.take_succ_cons, List.drop_succ_cons]
      by_cases hb : b.toNat < 128
      · rw [decode_byte w b _ hb, decode_byte w b _ hb, Option.map_some, List.take_append_drop]
      · rw [decode_more w b _ (by omega), decode_more w b _ (by omega), ih rest,
          Option.map_map, Option.map_map]
        rfl

theorem exists_decode_of_last (w : ℕ) (front : List Byte) (b : Byte) (hb : b.toNat < 128)
    (hw : front.length < w) : ∃ read, decode w (front ++ [b]) = some read := by
  induction front generalizing w with
  | nil =>
    obtain ⟨w, rfl⟩ : ∃ k, w = k + 1 := ⟨w - 1, by rw [List.length_nil] at hw; omega⟩
    exact ⟨_, decode_byte w b [] hb⟩
  | cons c front ih =>
    rw [List.length_cons] at hw
    obtain ⟨w, rfl⟩ : ∃ k, w = k + 1 := ⟨w - 1, by omega⟩
    rw [List.cons_append]
    by_cases hc : c.toNat < 128
    · exact ⟨_, decode_byte w c _ hc⟩
    · obtain ⟨read, hread⟩ := ih w (by omega)
      rw [decode_more w c _ (by omega), hread]
      exact ⟨_, rfl⟩

theorem exists_groups (w n : ℕ) (h : n < 128 ^ (w + 1)) :
    ∃ j ≤ w, (j = 0 ∨ 128 ^ j ≤ n) ∧ n < 128 ^ (j + 1) := by
  induction w with
  | zero => exact ⟨0, Nat.le_refl 0, Or.inl rfl, h⟩
  | succ w ih =>
    by_cases hn : n < 128 ^ (w + 1)
    · obtain ⟨j, hj, hlow, hhigh⟩ := ih hn
      exact ⟨j, by omega, hlow, hhigh⟩
    · exact ⟨w + 1, Nat.le_refl _, Or.inr (by omega), h⟩

theorem encode_groups (w j n : ℕ) (hj : j ≤ w) (hlow : j = 0 ∨ 128 ^ j ≤ n)
    (hhigh : n < 128 ^ (j + 1)) :
    encode w n = (List.range j).map (fun i => UInt8.ofNat (n / 128 ^ i % 128 + 128)) ++
      [UInt8.ofNat (n / 128 ^ j)] := by
  induction j generalizing w n with
  | zero => simpa using encode_small w n (by simpa using hhigh)
  | succ j ih =>
    obtain ⟨w, rfl⟩ : ∃ k, w = k + 1 := ⟨w - 1, by omega⟩
    have hpow : 128 ^ (j + 1) ≤ n := by
      rcases hlow with hzero | hle
      · omega
      · exact hle
    have hone : 0 < 128 ^ j := Nat.pow_pos (by omega)
    have hstep : 128 ^ (j + 1) = 128 ^ j * 128 := Nat.pow_succ ..
    have hdivlow : 128 ^ j ≤ n / 128 := (Nat.le_div_iff_mul_le (by omega)).mpr (by omega)
    have hdivhigh : n / 128 < 128 ^ (j + 1) := by
      apply Nat.div_lt_of_lt_mul
      rw [Nat.mul_comm, ← Nat.pow_succ]
      exact hhigh
    have hdiv : ∀ i, n / 128 / 128 ^ i = n / 128 ^ (i + 1) := by
      intro i
      rw [Nat.div_div_eq_div_mul, Nat.pow_succ, Nat.mul_comm]
    rw [encode_large w n (by omega), ih w (n / 128) (by omega) (Or.inr hdivlow) hdivhigh,
      List.range_succ_eq_map, List.map_cons, List.map_map, List.cons_append]
    simp only [hdiv, Nat.pow_zero, Nat.div_one, Function.comp_def]

theorem length_encode_eq (w j n : ℕ) (hj : j ≤ w) (hlow : j = 0 ∨ 128 ^ j ≤ n)
    (hhigh : n < 128 ^ (j + 1)) : (encode w n).length = j + 1 := by
  rw [encode_groups w j n hj hlow hhigh, List.length_append, List.length_map, List.length_range,
    List.length_singleton]

end BlackCat.Varints
