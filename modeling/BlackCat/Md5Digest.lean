import BlackCat.BlockStreams
import BlackCat.Md5Rounds

/-!
The digest of a message. The abstract digest pads the whole message and
compresses it block by block; `MD5Update` takes the message in parts of any
lengths, and `MD5Final` builds the padding in place. They agree on machines of
either byte order, whatever the context held before, and no write leaves `in`.
-/
namespace BlackCat.Md5

open ByteMemory BlockStreams

/-- The message, one bit set, zeros up to eight bytes before the end of a block, and
the length in bits. -/
def pad (message : List Byte) : List Byte :=
  message ++ (0x80 :: (List.replicate ((119 - message.length % 64) % 64) 0 ++
    valueBytes 8 (8 * message.length)))

def initialBuf : Buf := ⟨0x67452301, 0xefcdab89, 0x98badcfe, 0x10325476⟩

noncomputable def digest (message : List Byte) : List Byte :=
  (absorb 64 compress (initialBuf, []) (pad message)).1.store .little

section Words

theorem length_storeWord (order : ByteOrder) (w : UInt32) : (storeWord order w).length = 4 := by
  cases order
  · exact valueBytes_length 4 _
  · exact List.length_reverse.trans (valueBytes_length 4 _)

theorem toNat_readWord_little (bytes : List Byte) (h : bytes.length = 4) :
    (readWord .little bytes).toNat = bytesValue bytes := by
  have hlt := bytesValue_lt bytes
  rw [h] at hlt
  exact UInt32.toNat_ofNat_of_lt' hlt

theorem readWord_storeWord (order : ByteOrder) (w : UInt32) :
    readWord order (storeWord order w) = w := by
  have hvalue : UInt32.ofNat (bytesValue (valueBytes 4 w.toNat)) = w := by
    have hlt : w.toNat < 256 ^ 4 := w.toNat_lt
    rw [bytesValue_valueBytes, Nat.mod_eq_of_lt hlt, UInt32.ofNat_toNat]
  cases order
  · exact hvalue
  · rw [readWord, storeWord, List.reverse_reverse, hvalue]

theorem storeWord_readWord (order : ByteOrder) (bytes : List Byte) (h : bytes.length = 4) :
    storeWord order (readWord order bytes) = bytes := by
  cases order with
  | little =>
    have hback := valueBytes_bytesValue bytes
    rw [h] at hback
    rw [storeWord, toNat_readWord_little bytes h, hback]
  | big =>
    have hreverse : bytes.reverse.length = 4 := List.length_reverse.trans h
    have hback := valueBytes_bytesValue bytes.reverse
    have hvalue := toNat_readWord_little bytes.reverse hreverse
    rw [hreverse] at hback
    change (valueBytes 4 (readWord .little bytes.reverse).toNat).reverse = bytes
    rw [hvalue, hback, List.reverse_reverse]

theorem store_read (order : ByteOrder) (mem : List Byte) (h : mem.length = 16) :
    (Buf.read order mem).store order = mem := by
  have hword : ∀ i < 4, storeWord order (wordAt order mem i) = (mem.drop (4 * i)).take 4 := by
    intro i hi
    apply storeWord_readWord
    rw [List.length_take, List.length_drop]
    omega
  have hlast : (mem.drop 12).take 4 = mem.drop 12 :=
    List.take_of_length_le (by rw [List.length_drop]; omega)
  have hsplit : ∀ i, (mem.drop i).take 4 ++ mem.drop (i + 4) = mem.drop i := by
    intro i
    rw [← List.drop_drop, List.take_append_drop]
  rw [Buf.store, Buf.read, hword 0 (by omega), hword 1 (by omega), hword 2 (by omega),
    hword 3 (by omega)]
  change (mem.drop 0).take 4 ++ ((mem.drop 4).take 4 ++ ((mem.drop 8).take 4 ++
    (mem.drop 12).take 4)) = mem
  rw [hlast, hsplit 8, hsplit 4, hsplit 0, List.drop_zero]

theorem storeWord_readWord_little (order : ByteOrder) (w : UInt32) :
    storeWord order (readWord .little (storeWord order w)) = storeWord .little w := by
  cases order with
  | little => rw [readWord_storeWord]
  | big =>
    have hlength := length_storeWord .big w
    have hback := valueBytes_bytesValue (storeWord .big w)
    rw [hlength] at hback
    calc storeWord .big (readWord .little (storeWord .big w))
        = (valueBytes 4 (bytesValue (storeWord .big w))).reverse := by
          rw [← toNat_readWord_little _ hlength]
          rfl
      _ = storeWord .little w := by
          rw [hback]
          exact List.reverse_reverse _

theorem toNat_pair (p q : Byte) :
    (q.toUInt32 <<< 8 ||| p.toUInt32).toNat = p.toNat + 256 * q.toNat := by
  have hp : p.toUInt32.toNat < 2 ^ 8 := p.toNat_lt
  have hq := q.toNat_lt
  rw [UInt32.or_comm, toNat_or_shiftLeft32 p.toUInt32 q.toUInt32 8 8 rfl (by omega) hp,
    UInt8.toNat_toUInt32, UInt8.toNat_toUInt32]
  omega

theorem swapped_eq (p0 p1 p2 p3 : Byte) :
    (p3.toUInt32 <<< 8 ||| p2.toUInt32) <<< 16 ||| (p1.toUInt32 <<< 8 ||| p0.toUInt32) =
      readWord .little [p0, p1, p2, p3] := by
  have h0 := p0.toNat_lt
  have h1 := p1.toNat_lt
  have h2 := p2.toNat_lt
  have h3 := p3.toNat_lt
  have hlow := toNat_pair p0 p1
  have hhigh := toNat_pair p2 p3
  apply UInt32.toNat_inj.mp
  rw [toNat_readWord_little _ rfl, UInt32.or_comm,
    toNat_or_shiftLeft32 _ (p3.toUInt32 <<< 8 ||| p2.toUInt32) 16 16 rfl (by omega)
      (by rw [hlow]; omega), hlow, hhigh]
  simp only [bytesValue]
  omega

theorem length_byteSwap (order : ByteOrder) (n : ℕ) (mem : List Byte) :
    (byteSwap order n mem).length = mem.length := by
  fun_induction byteSwap order n mem with
  | case1 words p0 p1 p2 p3 rest ih =>
    rw [List.length_append, length_storeWord, ih]
    simp only [List.length_cons]
    omega
  | case2 => rfl

theorem byteSwap_append (order : ByteOrder) (n : ℕ) (mem rest : List Byte)
    (h : mem.length = 4 * n) : byteSwap order n (mem ++ rest) = byteSwap order n mem ++ rest := by
  induction n generalizing mem with
  | zero =>
    rw [List.length_eq_zero_iff.mp h]
    rfl
  | succ n ih =>
    match mem, h with
    | p0 :: p1 :: p2 :: p3 :: mem, h =>
      have hmem : mem.length = 4 * n := by
        simp only [List.length_cons] at h
        omega
      simp only [List.cons_append, byteSwap, ih mem hmem, List.append_assoc]

theorem wordAt_zero (order : ByteOrder) (word rest : List Byte) (h : word.length = 4) :
    wordAt order (word ++ rest) 0 = readWord order word := by
  rw [wordAt, Nat.mul_zero, List.drop_zero, ← h, List.take_left]

theorem wordAt_append (order : ByteOrder) (mem rest : List Byte) (n i : ℕ)
    (h : mem.length = 4 * n) : wordAt order (mem ++ rest) (n + i) = wordAt order rest i := by
  rw [wordAt, wordAt, Nat.mul_add, ← h, List.drop_append, List.drop_eq_nil_of_le (by omega),
    List.nil_append, Nat.add_sub_cancel_left]

theorem wordAt_append_left (order : ByteOrder) (mem rest : List Byte) (i : ℕ)
    (h : 4 * i + 4 ≤ mem.length) : wordAt order (mem ++ rest) i = wordAt order mem i := by
  rw [wordAt, wordAt, List.drop_append_of_le_length (by omega),
    List.take_append_of_le_length (by rw [List.length_drop]; omega)]

theorem wordAt_byteSwap (order : ByteOrder) (n : ℕ) (mem : List Byte) (h : 4 * n ≤ mem.length)
    (i : ℕ) (hi : i < n) : wordAt order (byteSwap order n mem) i = wordAt .little mem i := by
  induction n generalizing mem i with
  | zero => omega
  | succ n ih =>
    match mem, h with
    | p0 :: p1 :: p2 :: p3 :: mem, h =>
      have hmem : 4 * n ≤ mem.length := by
        simp only [List.length_cons] at h
        omega
      have hswap : byteSwap order (n + 1) (p0 :: p1 :: p2 :: p3 :: mem) =
          storeWord order (readWord .little [p0, p1, p2, p3]) ++ byteSwap order n mem := by
        rw [byteSwap, swapped_eq]
      rw [hswap]
      cases i with
      | zero =>
        rw [wordAt_zero _ _ _ (length_storeWord _ _), readWord_storeWord]
        rfl
      | succ i =>
        rw [Nat.add_comm i 1, wordAt_append order _ _ 1 i (length_storeWord _ _),
          ih mem hmem i (by omega)]
        exact (wordAt_append .little [p0, p1, p2, p3] mem 1 i rfl).symm

end Words

section Blocks

theorem wordIndex_lt (i : ℕ) : wordIndex i < 16 := by
  unfold wordIndex
  split <;> omega

theorem foldl_round_congr {input block : ℕ → UInt32} (h : ∀ j < 16, input j = block j)
    (rounds : List ℕ) (r : Buf) : rounds.foldl (round input) r = rounds.foldl (round block) r := by
  have hround : round input = round block := by
    funext r i
    rw [round, round, h _ (wordIndex_lt i)]
  rw [hround]

theorem md5Transform_eq_compress (buf : Buf) (input : ℕ → UInt32) (block : List Byte)
    (h : ∀ j < 16, input j = wordAt .little block j) :
    md5Transform buf input = compress buf block := by
  rw [md5Transform_eq, foldl_round_congr h, compress]

theorem swapTransform_buf (order : ByteOrder) (ctx : MD5Context) (h : ctx.input.length = 64) :
    (swapTransform order ctx).buf = compress ctx.buf ctx.input := by
  apply md5Transform_eq_compress
  intro j hj
  exact wordAt_byteSwap order 16 ctx.input (by omega) j hj

theorem length_swapTransform (order : ByteOrder) (ctx : MD5Context) :
    (swapTransform order ctx).input.length = ctx.input.length := length_byteSwap order 16 _

theorem swapTransform_with (order : ByteOrder) (ctx : MD5Context) (buf : Buf)
    (input : List Byte) : { swapTransform order ctx with buf := buf, input := input } =
      { ctx with buf := buf, input := input } := by
  rw [swapTransform]

theorem swapTransform_bytes (order : ByteOrder) (ctx : MD5Context) :
    (swapTransform order ctx).bytes0 = ctx.bytes0 ∧
      (swapTransform order ctx).bytes1 = ctx.bytes1 := by
  rw [swapTransform]
  exact ⟨rfl, rfl⟩

theorem memcpy_eq (mem bytes : List Byte) (offset : ℕ) (h : offset + bytes.length ≤ mem.length) :
    ∃ copied, memcpy mem offset bytes = some copied ∧ copied.length = mem.length ∧
      copied.take (offset + bytes.length) = mem.take offset ++ bytes ∧
      copied.drop (offset + bytes.length) = mem.drop (offset + bytes.length) := by
  have hfront : (mem.take offset ++ bytes).length = offset + bytes.length := by
    rw [List.length_append, List.length_take]
    omega
  refine ⟨_, if_pos h, ?_, ?_, ?_⟩
  · rw [List.length_append, hfront, List.length_drop]
    omega
  · rw [← hfront, List.take_left]
  · rw [← hfront, List.drop_left]

theorem memcpy_middle (front old new rest : List Byte) (offset : ℕ)
    (hoffset : front.length = offset) (h : old.length = new.length) :
    memcpy (front ++ (old ++ rest)) offset new = some (front ++ (new ++ rest)) := by
  subst hoffset
  rw [memcpy, if_pos (by simp only [List.length_append]; omega), List.take_left,
    ← List.drop_drop, List.drop_left, ← h, List.drop_left, List.append_assoc]

end Blocks

/-- The context stands for the part of the message it was given. -/
structure Absorbed (message : List Byte) (ctx : MD5Context) : Prop where
  state : absorb 64 compress (initialBuf, []) message =
    (ctx.buf, ctx.input.take (message.length % 64))
  counted : ctx.bytes0.toNat + 2 ^ 32 * ctx.bytes1.toNat = message.length % 2 ^ 64
  room : ctx.input.length = 64

section Updates

theorem absorbed_md5Init (ctx : MD5Context) (h : ctx.input.length = 64) :
    Absorbed [] (md5Init ctx) where
  state := rfl
  counted := rfl
  room := h

theorem md5Chunks_eq (order : ByteOrder) (ctx : MD5Context) (data : List Byte)
    (h : ctx.input.length = 64) :
    ∃ buf input, md5Chunks order ctx data = some { ctx with buf := buf, input := input } ∧
      input.length = 64 ∧
      absorb 64 compress (ctx.buf, []) data = (buf, input.take (data.length % 64)) := by
  fun_induction md5Chunks order ctx data with
  | case1 ctx data hlong ih =>
    have htake : (data.take 64).length = 64 := by
      rw [List.length_take]
      omega
    obtain ⟨copied, hcopy, hlength, hfront, -⟩ := memcpy_eq ctx.input (data.take 64) 0 (by omega)
    have hcopied : copied = data.take 64 := by
      rw [htake, List.take_of_length_le (by omega), List.take_zero, List.nil_append] at hfront
      exact hfront
    subst hcopied
    obtain ⟨buf, input, hrest, hinput, hstate⟩ := ih (data.take 64)
      ((length_swapTransform order _).trans htake)
    rw [swapTransform_with] at hrest
    refine ⟨buf, input, ?_, hinput, ?_⟩
    · rw [hcopy, Option.bind_eq_bind, Option.bind_some, hrest]
    · have hsplit : absorb 64 compress (ctx.buf, []) data =
          absorb 64 compress (absorb 64 compress (ctx.buf, []) (data.take 64)) (data.drop 64) := by
        rw [← absorb_append, List.take_append_drop]
      have hne : data.take 64 ≠ [] := List.ne_nil_of_length_pos (by omega)
      rw [swapTransform_buf order _ htake] at hstate
      rw [hsplit, absorb_fill 64 compress (ctx.buf, []) _ hne (by rw [htake]; rfl),
        List.nil_append, hstate, List.length_drop]
      congr 2
      omega
  | case2 ctx data hshort =>
    obtain ⟨copied, hcopy, hlength, hfront, -⟩ := memcpy_eq ctx.input data 0 (by omega)
    refine ⟨ctx.buf, copied, ?_, hlength.trans h, ?_⟩
    · rw [hcopy]
      rfl
    · rw [Nat.mod_eq_of_lt (by omega), absorb_short _ _ _ _ (by rw [List.length_nil]; omega)]
      rw [List.take_zero, List.nil_append, Nat.zero_add] at hfront
      rw [hfront]
      rfl

theorem toNat_and_0x3f (x : UInt32) : (x &&& 0x3f).toNat = x.toNat % 64 := by
  rw [UInt32.toNat_and]
  exact Nat.and_two_pow_sub_one_eq_mod x.toNat 6

/-- The two words of `bytes` count the bytes, with the carry. -/
theorem counted_update {message : List Byte} {ctx : MD5Context} (h : Absorbed message ctx)
    (data : List Byte) (hdata : data.length < 2 ^ 32) :
    (ctx.bytes0 + UInt32.ofNat data.length).toNat + 2 ^ 32 *
        (if ctx.bytes0 + UInt32.ofNat data.length < ctx.bytes0 then ctx.bytes1 + 1
          else ctx.bytes1).toNat =
      (message ++ data).length % 2 ^ 64 := by
  have hcount := h.counted
  have hlow := ctx.bytes0.toNat_lt
  have hhigh := ctx.bytes1.toNat_lt
  have hlen : (UInt32.ofNat data.length).toNat = data.length := UInt32.toNat_ofNat_of_lt' hdata
  have hsum : (ctx.bytes0 + UInt32.ofNat data.length).toNat =
      (ctx.bytes0.toNat + data.length) % 2 ^ 32 := by rw [UInt32.toNat_add, hlen]
  have hone : (ctx.bytes1 + 1).toNat = (ctx.bytes1.toNat + 1) % 2 ^ 32 := UInt32.toNat_add _ _
  rw [List.length_append]
  by_cases hcarry : ctx.bytes0 + UInt32.ofNat data.length < ctx.bytes0
  · rw [if_pos hcarry]
    rw [UInt32.lt_iff_toNat_lt] at hcarry
    omega
  · rw [if_neg hcarry]
    rw [UInt32.lt_iff_toNat_lt] at hcarry
    omega

theorem md5Update_eq (order : ByteOrder) {message : List Byte} {ctx : MD5Context}
    (h : Absorbed message ctx) (data : List Byte) (hdata : data.length < 2 ^ 32) :
    ∃ next, md5Update order ctx data = some next ∧ Absorbed (message ++ data) next := by
  have hcounted := counted_update h data hdata
  have hcount := h.counted
  have hlow := ctx.bytes0.toNat_lt
  have hlen : (UInt32.ofNat data.length).toNat = data.length := UInt32.toNat_ofNat_of_lt' hdata
  have hfill : ctx.bytes0.toNat % 64 = message.length % 64 := by omega
  have hroom : (64 - (ctx.bytes0 &&& 0x3f)).toNat = 64 - message.length % 64 := by
    have hle : ctx.bytes0 &&& 0x3f ≤ 64 := by
      rw [UInt32.le_iff_toNat_le, toNat_and_0x3f]
      change _ ≤ 64
      omega
    rw [UInt32.toNat_sub_of_le _ _ hle, toNat_and_0x3f, hfill]
    rfl
  have hoffset : 64 - (64 - message.length % 64) = message.length % 64 := by omega
  have hkept : (ctx.buf, ctx.input.take (message.length % 64)).2.length =
      message.length % 64 := by
    rw [List.length_take, h.room]
    omega
  unfold md5Update
  simp only [UInt32.lt_iff_toNat_lt, hlen, hroom, hoffset]
  simp only [UInt32.lt_iff_toNat_lt] at hcounted
  by_cases hshort : data.length < 64 - message.length % 64
  · obtain ⟨copied, hcopy, hlength, hfront, -⟩ :=
      memcpy_eq ctx.input data (message.length % 64) (by rw [h.room]; omega)
    have hmod : (message ++ data).length % 64 = message.length % 64 + data.length := by
      rw [List.length_append]
      omega
    rw [if_pos hshort, hcopy]
    refine ⟨_, rfl, ?_, hcounted, hlength.trans h.room⟩
    rw [absorb_append, h.state, absorb_short _ _ _ _ (by omega), hmod, hfront]
  · have htake : (data.take (64 - message.length % 64)).length = 64 - message.length % 64 := by
      rw [List.length_take]
      omega
    obtain ⟨copied, hcopy, hlength, hfront, -⟩ :=
      memcpy_eq ctx.input (data.take (64 - message.length % 64)) (message.length % 64)
        (by rw [h.room]; omega)
    have hcopied : copied = ctx.input.take (message.length % 64) ++
        data.take (64 - message.length % 64) := by
      rw [List.take_of_length_le (by rw [hlength, h.room]; omega)] at hfront
      exact hfront
    have hfull : copied.length = 64 := hlength.trans h.room
    obtain ⟨buf, input, hrest, hinput, hstate⟩ := md5Chunks_eq order
      (swapTransform order { ctx with
        bytes0 := ctx.bytes0 + UInt32.ofNat data.length
        bytes1 := if (ctx.bytes0 + UInt32.ofNat data.length).toNat < ctx.bytes0.toNat
          then ctx.bytes1 + 1 else ctx.bytes1
        input := copied })
      (data.drop (64 - message.length % 64)) ((length_swapTransform order _).trans hfull)
    rw [swapTransform_with] at hrest
    rw [if_neg hshort, hcopy]
    refine ⟨_, hrest, ?_, hcounted, hinput⟩
    have hne : data.take (64 - message.length % 64) ≠ [] :=
      List.ne_nil_of_length_pos (by omega)
    have hsplit : message ++ data = message ++ data.take (64 - message.length % 64) ++
        data.drop (64 - message.length % 64) := by
      rw [List.append_assoc, List.take_append_drop]
    have hmod : (message ++ data).length % 64 =
        (data.drop (64 - message.length % 64)).length % 64 := by
      rw [List.length_append, List.length_drop]
      omega
    rw [swapTransform_buf order _ hfull] at hstate
    rw [hmod, hsplit, absorb_append, absorb_append, h.state,
      absorb_fill 64 compress _ _ hne (by omega), ← hcopied]
    exact hstate

end Updates

section Final

theorem bits_eq {message : List Byte} {ctx : MD5Context} (h : Absorbed message ctx) :
    (ctx.bytes0 <<< 3).toNat = 8 * message.length % 2 ^ 32 ∧
      (ctx.bytes1 <<< 3 ||| ctx.bytes0 >>> 29).toNat = 8 * message.length / 2 ^ 32 % 2 ^ 32 := by
  have hcount := h.counted
  have hlow := ctx.bytes0.toNat_lt
  have hhigh := ctx.bytes1.toNat_lt
  have hshift : (ctx.bytes0 >>> 29).toNat = ctx.bytes0.toNat / 2 ^ 29 := by
    rw [UInt32.toNat_shiftRight, Nat.shiftRight_eq_div_pow]
    rfl
  constructor
  · rw [UInt32.toNat_shiftLeft, Nat.shiftLeft_eq]
    change ctx.bytes0.toNat * 2 ^ 3 % 2 ^ 32 = _
    omega
  · rw [UInt32.or_comm, toNat_or_shiftLeft32 _ _ 3 3 rfl (by omega) (by rw [hshift]; omega), hshift]
    omega

/-- The last block, as `MD5Final` leaves it: the length is stored as the machine
stores words, behind 56 bytes that were swapped. -/
theorem wordAt_lastBlock (order : ByteOrder) (front : List Byte) (hfront : front.length = 56)
    (low high : UInt32) (bits : ℕ) (hlow : low.toNat = bits % 2 ^ 32)
    (hhigh : high.toNat = bits / 2 ^ 32 % 2 ^ 32) (j : ℕ) (hj : j < 16) :
    wordAt order (byteSwap order 14 front ++ (storeWord order low ++ storeWord order high)) j =
      wordAt .little (front ++ valueBytes 8 bits) j := by
  have hswap : (byteSwap order 14 front).length = 4 * 14 :=
    (length_byteSwap order 14 _).trans hfront
  have hword : ∀ n, readWord .little (valueBytes 4 n) = UInt32.ofNat (n % 2 ^ 32) := by
    intro n
    rw [readWord, bytesValue_valueBytes]
    rfl
  have hsplit : valueBytes 8 bits = valueBytes 4 bits ++ valueBytes 4 (bits / 2 ^ 32) :=
    valueBytes_add 4 4 bits
  rcases Nat.lt_or_ge j 14 with hlt | hge
  · rw [wordAt_append_left order _ _ j (by omega), wordAt_append_left .little _ _ j (by omega),
      wordAt_byteSwap order 14 front (by omega) j hlt]
  · obtain ⟨k, rfl⟩ := Nat.exists_eq_add_of_le hge
    rw [wordAt_append order _ _ 14 k hswap, wordAt_append .little _ _ 14 k hfront, hsplit]
    have hk : k = 0 ∨ k = 1 := by omega
    rcases hk with rfl | rfl
    · rw [wordAt_zero _ _ _ (length_storeWord _ _), wordAt_zero _ _ _ (valueBytes_length 4 _),
        readWord_storeWord, hword, ← hlow, UInt32.ofNat_toNat]
    · rw [← List.append_nil (storeWord order high),
        ← List.append_nil (valueBytes 4 (bits / 2 ^ 32)),
        ← Nat.add_zero 1, wordAt_append order _ _ 1 0 (length_storeWord _ _),
        wordAt_append .little _ _ 1 0 (valueBytes_length 4 _),
        wordAt_zero _ _ _ (length_storeWord _ _), wordAt_zero _ _ _ (valueBytes_length 4 _),
        readWord_storeWord, hword, ← hhigh, UInt32.ofNat_toNat]

theorem byteSwap_storeWord (order : ByteOrder) (n : ℕ) (w : UInt32) (rest : List Byte) :
    byteSwap order (n + 1) (storeWord order w ++ rest) =
      storeWord .little w ++ byteSwap order n rest := by
  have hlength := length_storeWord order w
  match hbytes : storeWord order w, hlength with
  | [p0, p1, p2, p3], _ =>
    have hsame := storeWord_readWord_little order w
    rw [hbytes] at hsame
    rw [← hsame, ← swapped_eq]
    rfl

theorem byteSwap_store (order : ByteOrder) (buf : Buf) :
    byteSwap order 4 (buf.store order) = buf.store .little := by
  have hnil : byteSwap order 0 [] = [] := rfl
  have hlast := byteSwap_storeWord order 0 buf.d []
  rw [hnil, List.append_nil, List.append_nil] at hlast
  rw [Buf.store, byteSwap_storeWord, byteSwap_storeWord, byteSwap_storeWord, hlast, Buf.store]

theorem memcpy_words (front rest low high : List Byte) (hfront : front.length = 56)
    (hrest : rest.length = 8) (hlow : low.length = 4) (hhigh : high.length = 4) :
    ∃ middle, memcpy (front ++ rest) 56 low = some middle ∧
      memcpy middle 60 high = some (front ++ (low ++ high)) := by
  have htake : (rest.take 4).length = low.length := by
    rw [List.length_take]
    omega
  have hdrop : (rest.drop 4).length = high.length := by
    rw [List.length_drop]
    omega
  have hlonger : (front ++ low).length = 60 := by
    rw [List.length_append]
    omega
  have hfirst := memcpy_middle front (rest.take 4) low (rest.drop 4) 56 hfront htake
  have hsecond := memcpy_middle (front ++ low) (rest.drop 4) high [] 60 hlonger hdrop
  rw [List.take_append_drop] at hfirst
  rw [List.append_nil, List.append_nil, List.append_assoc, List.append_assoc] at hsecond
  exact ⟨_, hfirst, hsecond⟩

theorem md5Finish_eq (order : ByteOrder) (pointer : PointerWidth) {message : List Byte}
    {ctx : MD5Context} (h : Absorbed message ctx) (ctx' : MD5Context)
    (h0 : ctx'.bytes0 = ctx.bytes0) (h1 : ctx'.bytes1 = ctx.bytes1) (p count : ℕ)
    (front rest : List Byte)
    (hset : memset ctx'.input p count = some (front ++ rest)) (hfront : front.length = 56)
    (hrest : rest.length = 8) :
    ∃ last, md5Finish order pointer ctx' p count = some ((compress ctx'.buf
        (front ++ valueBytes 8 (8 * message.length))).store .little, last) ∧
      (∃ length, last.input = byteSwap order 14 front ++ length) ∧
      last.buf.store order = List.replicate pointer.bytes 0 ++ ((compress ctx'.buf
        (front ++ valueBytes 8 (8 * message.length))).store .little).drop pointer.bytes := by
  obtain ⟨hlow, hhigh⟩ := bits_eq h
  have hswap : (byteSwap order 14 front).length = 56 := (length_byteSwap order 14 _).trans hfront
  obtain ⟨middle, hfirst, hsecond⟩ := memcpy_words (byteSwap order 14 front) rest
    (storeWord order (ctx.bytes0 <<< 3))
    (storeWord order (ctx.bytes1 <<< 3 ||| ctx.bytes0 >>> 29)) hswap hrest
    (length_storeWord _ _) (length_storeWord _ _)
  have hbuf := md5Transform_eq_compress ctx'.buf _ _
    (wordAt_lastBlock order front hfront _ _ _ hlow hhigh)
  rw [← byteSwap_append order 14 front rest hfront] at hfirst
  set digest := (compress ctx'.buf (front ++ valueBytes 8 (8 * message.length))).store .little
    with hdigest
  have hlength : digest.length = 16 := by
    simp only [hdigest, Buf.store, List.length_append, length_storeWord]
  have hbytes : pointer.bytes ≤ 16 := by
    cases pointer <;> decide
  have hclear : memset digest 0 pointer.bytes =
      some (List.replicate pointer.bytes 0 ++ digest.drop pointer.bytes) := by
    have hmiddle := memcpy_middle [] (digest.take pointer.bytes) (List.replicate pointer.bytes 0)
      (digest.drop pointer.bytes) 0 rfl (by
        rw [List.length_take, hlength, List.length_replicate, Nat.min_eq_left hbytes])
    rw [List.take_append_drop] at hmiddle
    exact hmiddle
  have hdone : md5Finish order pointer ctx' p count = some (digest, { ctx' with
      buf := Buf.read order (List.replicate pointer.bytes 0 ++ digest.drop pointer.bytes)
      input := byteSwap order 14 front ++ (storeWord order (ctx.bytes0 <<< 3) ++
        storeWord order (ctx.bytes1 <<< 3 ||| ctx.bytes0 >>> 29)) }) := by
    rw [md5Finish, hset, Option.bind_eq_bind, Option.bind_some, h0, h1, hfirst, Option.bind_some,
      hsecond, Option.bind_some, hbuf, byteSwap_store, ← hdigest]
    change (memset digest 0 pointer.bytes).bind _ = _
    rw [hclear]
    rfl
  refine ⟨_, hdone, ⟨_, rfl⟩, ?_⟩
  apply store_read
  rw [List.length_append, List.length_drop, List.length_replicate, hlength]
  omega

theorem digest_short {message kept : List Byte} {buf : Buf}
    (hstate : absorb 64 compress (initialBuf, []) message = (buf, kept))
    (hkept : kept.length = message.length % 64) (hshort : kept.length ≤ 55) :
    digest message = (compress buf (kept ++ (0x80 :: List.replicate (55 - kept.length) 0) ++
      valueBytes 8 (8 * message.length))).store .little := by
  have hzeros : (119 - message.length % 64) % 64 = 55 - kept.length := by omega
  have hfill := absorb_fill 64 compress (buf, kept) (0x80 :: (List.replicate (55 - kept.length) 0 ++
    valueBytes 8 (8 * message.length))) (List.cons_ne_nil _ _) (by
      simp only [List.length_cons, List.length_append, List.length_replicate, valueBytes_length]
      omega)
  rw [digest, pad, hzeros, absorb_append, hstate, hfill, List.append_assoc, List.cons_append]

theorem digest_long {message kept : List Byte} {buf : Buf}
    (hstate : absorb 64 compress (initialBuf, []) message = (buf, kept))
    (hkept : kept.length = message.length % 64) (hlong : 55 < kept.length) :
    digest message = (compress (compress buf (kept ++ (0x80 ::
      List.replicate (63 - kept.length) 0))) (List.replicate 56 0 ++
        valueBytes 8 (8 * message.length))).store .little := by
  have hless : kept.length < 64 := by omega
  have hzeros : (119 - message.length % 64) % 64 = 63 - kept.length + 56 := by omega
  have hfirst := absorb_fill 64 compress (buf, kept) (0x80 :: List.replicate (63 - kept.length) 0)
    (List.cons_ne_nil _ _) (by
      simp only [List.length_cons, List.length_replicate]
      omega)
  have hsecond := absorb_fill 64 compress (compress buf (kept ++ (0x80 ::
      List.replicate (63 - kept.length) 0)), []) (List.replicate 56 0 ++
        valueBytes 8 (8 * message.length)) (by simp) (by
      simp only [List.length_nil, List.length_append, List.length_replicate, valueBytes_length])
  rw [digest, pad, hzeros, List.replicate_add, List.append_assoc, ← List.cons_append,
    absorb_append, absorb_append, hstate, hfirst, hsecond, List.nil_append]

theorem md5Final_eq (order : ByteOrder) (pointer : PointerWidth) {message : List Byte}
    {ctx : MD5Context} (h : Absorbed message ctx) :
    ∃ last, md5Final order pointer ctx = some (digest message, last) ∧
      last.buf.store order =
        List.replicate pointer.bytes 0 ++ (digest message).drop pointer.bytes ∧
      (message.length % 64 ≤ 55 → ∃ length, last.input = byteSwap order 14
        (ctx.input.take (message.length % 64) ++
          (0x80 :: List.replicate (55 - message.length % 64) 0)) ++ length) := by
  have hroom := h.room
  have hstate := h.state
  have hkept : (ctx.input.take (message.length % 64)).length = message.length % 64 := by
    rw [List.length_take]
    omega
  have hcount : (ctx.bytes0 &&& 0x3f).toNat = (ctx.input.take (message.length % 64)).length := by
    have := h.counted
    rw [toNat_and_0x3f, hkept]
    omega
  have hsplit : ctx.input = ctx.input.take (message.length % 64) ++
      ((ctx.input.drop (message.length % 64)).take 1 ++
        ctx.input.drop (message.length % 64 + 1)) := by
    rw [← List.drop_drop, List.take_append_drop, List.take_append_drop]
  have htail : (ctx.input.drop (message.length % 64 + 1)).length = 63 - message.length % 64 := by
    rw [List.length_drop]
    omega
  have hone : ((ctx.input.drop (message.length % 64)).take 1).length = 1 := by
    rw [List.length_take, List.length_drop]
    omega
  have hcopy := memcpy_middle (ctx.input.take (message.length % 64)) _ [0x80]
    (ctx.input.drop (message.length % 64 + 1)) _ rfl hone
  rw [← hsplit] at hcopy
  rw [md5Final, hcount, hcopy, Option.bind_eq_bind, Option.bind_some]
  generalize ctx.input.take (message.length % 64) = kept at *
  generalize ctx.input.drop (message.length % 64 + 1) = tail at *
  have hmark : (kept ++ [0x80]).length = kept.length + 1 := List.length_append
  by_cases hlong : 55 < kept.length
  · have hfill := memcpy_middle (kept ++ [0x80]) tail (List.replicate (63 - kept.length) 0) [] _
      hmark (by rw [List.length_replicate]; omega)
    rw [List.append_nil, List.append_nil, List.append_assoc, List.append_assoc] at hfill
    have hlength : (kept ++ ([0x80] ++ List.replicate (63 - kept.length) 0)).length = 64 := by
      simp only [List.length_append, List.length_singleton, List.length_replicate]
      omega
    set filled := swapTransform order
      { ctx with input := kept ++ ([0x80] ++ List.replicate (63 - kept.length) 0) } with hfilled
    have hswapped : filled.input.length = 64 := (length_swapTransform order _).trans hlength
    have hset := memcpy_middle [] (filled.input.take 56) (List.replicate 56 0)
      (filled.input.drop 56) 0 rfl (by rw [List.length_take, hswapped]; rfl)
    rw [List.take_append_drop] at hset
    obtain ⟨last, hdone, -, hbuf⟩ := md5Finish_eq order pointer h filled
      (swapTransform_bytes order _).1 (swapTransform_bytes order _).2 0 56 (List.replicate 56 0)
      (filled.input.drop 56) hset List.length_replicate (by rw [List.length_drop, hswapped])
    have hcompress : filled.buf = compress ctx.buf (kept ++ (0x80 ::
        List.replicate (63 - kept.length) 0)) := swapTransform_buf order _ hlength
    rw [hcompress] at hdone hbuf
    rw [if_pos hlong, digest_long hstate hkept hlong]
    refine ⟨last, ?_, hbuf, fun hle => ?_⟩
    · rw [memset, hfill, Option.bind_some]
      exact hdone
    · omega
  · have hset := memcpy_middle (kept ++ [0x80]) (tail.take (55 - kept.length))
      (List.replicate (55 - kept.length) 0) (tail.drop (55 - kept.length)) _ hmark
      (by rw [List.length_take, List.length_replicate]; omega)
    have hfront : kept ++ [0x80] ++ (List.replicate (55 - kept.length) 0 ++
        tail.drop (55 - kept.length)) = kept ++ (0x80 :: List.replicate (55 - kept.length) 0) ++
          tail.drop (55 - kept.length) := by
      simp only [List.append_assoc, List.cons_append, List.nil_append]
    rw [List.take_append_drop, List.append_assoc, hfront] at hset
    obtain ⟨last, hdone, hinput, hbuf⟩ := md5Finish_eq order pointer h
      { ctx with input := kept ++ ([0x80] ++ tail) } rfl rfl (kept.length + 1) (55 - kept.length)
      (kept ++ (0x80 :: List.replicate (55 - kept.length) 0)) (tail.drop (55 - kept.length)) hset
      (by simp only [List.length_append, List.length_cons, List.length_replicate]; omega)
      (by rw [List.length_drop]; omega)
    rw [if_neg hlong, digest_short hstate hkept (by omega), ← hkept]
    exact ⟨last, hdone, hbuf, fun _ => hinput⟩

end Final

section Results

theorem foldlM_md5Update (order : ByteOrder) (parts : List (List Byte))
    (hparts : ∀ part ∈ parts, part.length < 2 ^ 32) {message : List Byte} {ctx : MD5Context}
    (h : Absorbed message ctx) :
    ∃ next, parts.foldlM (md5Update order) ctx = some next ∧
      Absorbed (message ++ parts.flatten) next := by
  induction parts generalizing message ctx with
  | nil => exact ⟨ctx, rfl, by rwa [List.flatten_nil, List.append_nil]⟩
  | cons part parts ih =>
    rw [List.forall_mem_cons] at hparts
    obtain ⟨middle, hfirst, hmiddle⟩ := md5Update_eq order h part hparts.1
    obtain ⟨next, hrest, hnext⟩ := ih hparts.2 hmiddle
    refine ⟨next, ?_, ?_⟩
    · rw [List.foldlM_cons, hfirst]
      exact hrest
    · rwa [List.flatten_cons, ← List.append_assoc]

/-- One block, on a machine of either byte order: 64 rounds with the sines of 1 to 64
as their constants. -/
theorem transform_is_compression (order : ByteOrder) (buf : Buf) (block : List Byte)
    (h : block.length = 64) :
    md5Transform buf (wordAt order (byteSwap order 16 block)) = compress buf block :=
  md5Transform_eq_compress buf _ block
    fun j hj => wordAt_byteSwap order 16 block (by omega) j hj

theorem transform_is_compression_zeros :
    md5Transform initialBuf (wordAt .big (byteSwap .big 16 (List.replicate 64 0))) =
      compress initialBuf (List.replicate 64 0) :=
  transform_is_compression .big initialBuf _ List.length_replicate

theorem getMD5_eq (order : ByteOrder) (pointer : PointerWidth) (ctx : MD5Context)
    (h : ctx.input.length = 64) (message : List Byte) (hmessage : message.length < 2 ^ 32) :
    getMD5 order pointer ctx message = some (digest message) := by
  obtain ⟨next, hupdate, hnext⟩ := md5Update_eq order (absorbed_md5Init ctx h) message hmessage
  obtain ⟨last, hfinal, -⟩ := md5Final_eq order pointer hnext
  rw [getMD5, hupdate, Option.bind_eq_bind, Option.bind_some, hfinal]
  rfl

/-- However a message is cut into calls of `MD5Update`, and whatever the context held
before `MD5Init`, `MD5Final` gives the digest of the whole message; so does `GetMD5`,
whose length is an `int`. -/
theorem updates_give_digest (order : ByteOrder) (pointer : PointerWidth) (ctx : MD5Context)
    (h : ctx.input.length = 64) (parts : List (List Byte))
    (hparts : ∀ part ∈ parts, part.length < 2 ^ 32) :
    (∃ last, (parts.foldlM (md5Update order) (md5Init ctx)).bind (md5Final order pointer) =
      some (digest parts.flatten, last)) ∧
    (parts.flatten.length < 2 ^ 31 →
      getMD5 order pointer ctx parts.flatten = some (digest parts.flatten)) := by
  obtain ⟨next, hupdates, hnext⟩ := foldlM_md5Update order parts hparts (absorbed_md5Init ctx h)
  obtain ⟨last, hfinal, -⟩ := md5Final_eq order pointer hnext
  refine ⟨⟨last, ?_⟩, fun hshort => getMD5_eq order pointer ctx h _ (by omega)⟩
  rw [hupdates, Option.bind_some, hfinal, List.nil_append]

theorem updates_give_digest_abc :
    (∃ last, ([[0x61], [], [0x62, 0x63]].foldlM (md5Update .little)
        (md5Init ⟨initialBuf, 1, 2, List.replicate 64 7⟩)).bind (md5Final .little .bits64) =
      some (digest [0x61, 0x62, 0x63], last)) ∧
    getMD5 .little .bits64 ⟨initialBuf, 1, 2, List.replicate 64 7⟩ [0x61, 0x62, 0x63] =
      some (digest [0x61, 0x62, 0x63]) :=
  have h := updates_give_digest .little .bits64 ⟨initialBuf, 1, 2, List.replicate 64 7⟩
    List.length_replicate [[0x61], [], [0x62, 0x63]] (by decide)
  ⟨h.1, h.2 (by decide)⟩

example : getMD5 .big .bits32 ⟨initialBuf, 1, 2, List.replicate 64 7⟩ [] = some [0xd4, 0x1d,
    0x8c, 0xd9, 0x8f, 0x00, 0xb2, 0x04, 0xe9, 0x80, 0x09, 0x98, 0xec, 0xf8, 0x42, 0x7e] := by
  decide +kernel

theorem byteSwap_little (n : ℕ) (mem : List Byte) : byteSwap .little n mem = mem := by
  fun_induction byteSwap .little n mem with
  | case1 words p0 p1 p2 p3 rest ih =>
    rw [swapped_eq, storeWord_readWord .little _ rfl, ih]
    rfl
  | case2 => rfl

theorem byteSwap_byteSwap (order : ByteOrder) (n : ℕ) (mem : List Byte) :
    byteSwap order n (byteSwap order n mem) = mem := by
  fun_induction byteSwap order n mem with
  | case1 words p0 p1 p2 p3 rest ih =>
    rw [swapped_eq, byteSwap_storeWord, ih, storeWord_readWord .little _ rfl]
    rfl
  | case2 n mem hshort => rw [byteSwap.eq_2 order n mem hshort]

/-- `MD5Final` does not clear the context: all bytes of the digest behind the first four
or eight stay in `buf`, and in `in` the bytes of the message behind its last whole
block, in the machine's order of the words, if the padding fits behind them. -/
theorem final_leaves_digest (order : ByteOrder) (pointer : PointerWidth) (ctx : MD5Context)
    (h : ctx.input.length = 64) (parts : List (List Byte))
    (hparts : ∀ part ∈ parts, part.length < 2 ^ 32) :
    ∃ last, (parts.foldlM (md5Update order) (md5Init ctx)).bind (md5Final order pointer) =
        some (digest parts.flatten, last) ∧
      last.buf.store order =
        List.replicate pointer.bytes 0 ++ (digest parts.flatten).drop pointer.bytes ∧
      (parts.flatten.length % 64 ≤ 55 →
        (byteSwap order 14 last.input).take (parts.flatten.length % 64) =
          parts.flatten.drop (parts.flatten.length / 64 * 64)) := by
  obtain ⟨next, hupdates, hnext⟩ :=
    foldlM_md5Update order parts hparts (absorbed_md5Init ctx h)
  rw [List.nil_append] at hnext
  obtain ⟨last, hfinal, hbuf, hinput⟩ := md5Final_eq order pointer hnext
  refine ⟨last, by rw [hupdates, Option.bind_some, hfinal], hbuf, fun hshort => ?_⟩
  obtain ⟨length, hlast⟩ := hinput hshort
  have hkept : (next.input.take (parts.flatten.length % 64)).length =
      parts.flatten.length % 64 := by
    rw [List.length_take, hnext.room]
    omega
  have hsuffix := absorb_suffix 64 compress (initialBuf, []) parts.flatten
  rw [hnext.state, List.nil_append, List.suffix_iff_eq_drop, hkept] at hsuffix
  have hblock : (next.input.take (parts.flatten.length % 64) ++
      (0x80 :: List.replicate (55 - parts.flatten.length % 64) 0)).length = 4 * 14 := by
    rw [List.length_append, hkept, List.length_cons, List.length_replicate]
    omega
  rw [hlast, byteSwap_append order 14 _ length ((length_byteSwap order 14 _).trans hblock),
    byteSwap_byteSwap, List.append_assoc, List.take_append_of_le_length (by omega), List.take_take,
    Nat.min_self]
  exact hsuffix.trans (congrArg (fun n => parts.flatten.drop n) (by omega))

/-- On a machine of 64 bits half of the digest and the whole message are left. -/
theorem final_leaves_digest_abc :
    ∃ last, ([[0x61, 0x62], [0x63]].foldlM (md5Update .little)
        (md5Init ⟨initialBuf, 1, 2, List.replicate 64 7⟩)).bind (md5Final .little .bits64) =
        some (digest [0x61, 0x62, 0x63], last) ∧
      last.buf.store .little =
        List.replicate 8 0 ++ (digest [0x61, 0x62, 0x63]).drop 8 ∧
      last.input.take 3 = [0x61, 0x62, 0x63] := by
  obtain ⟨last, hdigest, hbuf, hinput⟩ := final_leaves_digest .little .bits64
    ⟨initialBuf, 1, 2, List.replicate 64 7⟩ List.length_replicate [[0x61, 0x62], [0x63]] (by decide)
  have hkept := hinput (by decide)
  rw [byteSwap_little] at hkept
  exact ⟨last, hdigest, hbuf, hkept⟩

end Results

end BlackCat.Md5
