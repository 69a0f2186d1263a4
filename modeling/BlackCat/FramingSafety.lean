import BlackCat.Dispatcher

/-!
Which length fields keep the RPC framing inside its buffer. The test of
`HaveCompleteMessage` adds the header size to a signed length sent by the peer
and bounds the sum on one side only. It is sound exactly on buffers made of
whole frames followed by a rest at which the loop stops: a negative length,
or one within four of 2^31, passes the test wherever the scan meets it.
-/
namespace BlackCat.FramingSafety

open ByteMemory LengthFrames Loops ServerCommon Dispatcher

/-- A round that finds a message takes a length field inside the unread bytes,
so `GetMessage` succeeds and at least four bytes of them are consumed. -/
def RoundInside (mem : Memory) (size : ℤ) (s : Scan) : Prop :=
  haveCompleteMessage mem s.buf s.len = true →
    0 ≤ s.buf ∧ s.buf + s.len = size ∧
    0 ≤ loadWord mem s.buf ∧ loadWord mem s.buf ≤ s.len - 4 ∧
    ∃ msg t, getMessage mem s.buf = .ok msg ∧ scanRound mem s = .again t ∧
      s.buf + 4 ≤ t.buf ∧ t.buf ≤ s.buf + s.len

/-- Every round of the loop stays inside the buffer. -/
def LoopInside (mem : Memory) (size : ℤ) : Prop :=
  ∀ s, Visits (scanRound mem) (scanStart 0 size) s → RoundInside mem size s

/-- The callback returns, and the count it returns is one of bytes it was given. -/
def ReturnsInside (onRead : FuncOnRead (List Byte)) (mem : Memory) (size : ℤ) : Prop :=
  ∃ n result, onRead n mem 0 size = some (.ok result) ∧
    0 ≤ result.procLen ∧ result.procLen ≤ size

/-- No length field of the buffer takes either read callback out of it. -/
def FramingInside (buffer : List Byte) : Prop :=
  ∀ around, LoopInside (blockMemory around buffer) buffer.length ∧
    ReturnsInside RpcServiceProvider.onRead (blockMemory around buffer) buffer.length ∧
    ReturnsInside RpcProxyServer.onRead (blockMemory around buffer) buffer.length

/-- Whole frames, then a rest at which the length test answers correctly. -/
def WellFramed (buffer : List Byte) : Prop :=
  ∃ payloads rest, buffer = frames payloads ++ rest ∧ Stops rest

/-- What holds whenever a round begins on a well-framed buffer. -/
structure Aligned (mem : Memory) (rest : List Byte) (size : ℤ) (s : Scan) : Prop where
  nonneg : 0 ≤ s.buf
  total : s.totalLen = s.buf
  ends : s.buf + s.len = size
  holds : ∃ payloads, Holds mem s.buf (frames payloads ++ rest) ∧
    s.len = (frames payloads ++ rest).length

theorem Aligned.round_of_frame {mem : Memory} {rest : List Byte} {size : ℤ} {s : Scan}
    (h : Aligned mem rest size s) (hsize : size < 2147483648)
    (payload : List Byte) (payloads : List (List Byte))
    (hmem : Holds mem s.buf (frames (payload :: payloads) ++ rest))
    (hlen : s.len = (frames (payload :: payloads) ++ rest).length) :
    Fits payload ∧ loadWord mem s.buf = payload.length ∧
      (payload.length : ℤ) ≤ s.len - 4 ∧ getMessage mem s.buf = .ok payload ∧
      ∃ t, scanRound mem s = .again t ∧ t.buf = s.buf + payload.length + 4 ∧
        Aligned mem rest size t := by
  rw [frames_cons, List.append_assoc] at hmem hlen
  have hends := h.ends
  have htotal := h.total
  have hnonneg := h.nonneg
  have hsplit : (frame payload ++ (frames payloads ++ rest)).length =
      payload.length + 4 + (frames payloads ++ rest).length := by
    rw [List.length_append, frame_length]
  have hfits : Fits payload := by
    unfold Fits
    omega
  have hword := loadWord_of_holds mem s.buf _ hmem (by omega)
  rw [word_frame_append payload _ hfits] at hword
  have hround := scanRound_frame mem s payload _ hmem hlen (by omega) (by omega)
  have hframe := frame_length payload
  refine ⟨hfits, hword, by omega, getMessage_frame mem s.buf payload _ hfits hmem,
    _, hround, by simp only []; omega, ?_⟩
  exact {
    nonneg := by simp only []; omega
    total := by simp only []; omega
    ends := by simp only []; omega
    holds := ⟨payloads, ((holds_append mem _ _ _).mp hmem).2, rfl⟩
  }

theorem Aligned.next {mem : Memory} {rest : List Byte} {size : ℤ} {s t : Scan}
    (h : Aligned mem rest size s) (hsize : size < 2147483648) (hstop : Stops rest)
    (hround : scanRound mem s = .again t) : Aligned mem rest size t := by
  obtain ⟨payloads, hmem, hlen⟩ := h.holds
  cases payloads with
  | nil =>
    rw [frames_nil, List.nil_append] at hmem hlen
    rw [scanRound_stops mem s rest hmem hlen hstop] at hround
    cases hround
  | cons payload payloads =>
    obtain ⟨_, _, _, _, u, hu, _, halign⟩ := h.round_of_frame hsize payload payloads hmem hlen
    rw [hu] at hround
    cases hround
    exact halign

theorem Aligned.roundInside {mem : Memory} {rest : List Byte} {size : ℤ} {s : Scan}
    (h : Aligned mem rest size s) (hsize : size < 2147483648) (hstop : Stops rest) :
    RoundInside mem size s := by
  intro hhave
  obtain ⟨payloads, hmem, hlen⟩ := h.holds
  cases payloads with
  | nil =>
    rw [frames_nil, List.nil_append] at hmem hlen
    have hleave := scanRound_stops mem s rest hmem hlen hstop
    rw [scanRound, if_pos hhave] at hleave
    split at hleave <;> cases hleave
  | cons payload payloads =>
    obtain ⟨_, hword, hle, hget, t, ht, hbuf, _⟩ :=
      h.round_of_frame hsize payload payloads hmem hlen
    refine ⟨h.nonneg, h.ends, by omega, by omega, payload, t, hget, ht, by omega, by omega⟩

theorem aligned_start (around : Memory) (payloads : List (List Byte)) (rest : List Byte) :
    Aligned (blockMemory around (frames payloads ++ rest)) rest
      (frames payloads ++ rest).length (scanStart 0 (frames payloads ++ rest).length) where
  nonneg := Int.le_refl 0
  total := rfl
  ends := Int.zero_add _
  holds := ⟨payloads, holds_blockMemory around _, rfl⟩

theorem framingInside_of_wellFramed (buffer : List Byte) (hsize : buffer.length < 2147483648)
    (h : WellFramed buffer) : FramingInside buffer := by
  obtain ⟨payloads, rest, rfl, hstop⟩ := h
  intro around
  have hstart := aligned_start around payloads rest
  have hint : ((frames payloads ++ rest).length : ℤ) < 2147483648 := by omega
  have hconsumed : (frames payloads).length ≤ (frames payloads ++ rest).length := by
    rw [List.length_append]
    omega
  refine ⟨?_, ?_, ?_⟩
  · intro s hs
    have halign := hs.invariant (Aligned _ rest (frames payloads ++ rest).length)
      (fun a b ha hab => ha.next hint hstop hab) hstart
    exact halign.roundInside hint hstop
  · exact ⟨payloads.length + 1, ⟨(frames payloads).length, payloads, false⟩,
      RpcServiceProvider.onRead_frames around payloads rest hstop hsize _ (Nat.lt_succ_self _),
      by simp only []; omega, by simp only []; omega⟩
  · by_cases hguard : maxRecvBuf ≤ (frames payloads ++ rest).length
    · exact ⟨0, ⟨(frames payloads ++ rest).length, [], true⟩,
        by rw [RpcProxyServer.onRead, if_pos hguard],
        by simp only []; omega, by simp only []; omega⟩
    · exact ⟨payloads.length + 1, ⟨(frames payloads).length, payloads, false⟩,
        RpcProxyServer.onRead_frames around payloads rest hstop (by omega) _
          (Nat.lt_succ_self _),
        by simp only []; omega, by simp only []; omega⟩

theorem stops_of_not_haveCompleteMessage (mem : Memory) (buf : ℤ) (bytes : List Byte)
    (hmem : Holds mem buf bytes) (h : ¬ haveCompleteMessage mem buf bytes.length = true) :
    Stops bytes := by
  rw [haveCompleteMessage_iff] at h
  unfold Stops
  by_cases hfour : 4 ≤ bytes.length
  · have hword := loadWord_of_holds mem buf bytes hmem hfour
    have hrange := word_range bytes
    rw [hword] at h
    unfold int32 at h
    omega
  · exact Or.inl (by omega)

theorem wellFramed_of_roundInside (mem : Memory) (size : ℤ) (bytes : List Byte) (s : Scan)
    (hmem : Holds mem s.buf bytes) (hlen : s.len = bytes.length)
    (htotal : 0 ≤ s.totalLen) (hbound : s.totalLen + s.len < 2147483648)
    (h : ∀ t, Visits (scanRound mem) s t → RoundInside mem size t) : WellFramed bytes := by
  generalize hn : bytes.length = n
  induction n using Nat.strong_induction_on generalizing bytes s with
  | h n ih =>
    by_cases hhave : haveCompleteMessage mem s.buf s.len = true
    · obtain ⟨_, _, hword, hword', _⟩ := h s .start hhave
      have hfour := ((haveCompleteMessage_iff mem s.buf s.len).mp hhave).1
      rw [loadWord_of_holds mem s.buf bytes hmem (by omega)] at hword hword'
      obtain ⟨payload, rest, rfl, hfits, hpay⟩ :=
        exists_frame bytes hword (by unfold Incomplete; omega)
      have hsplit : (frame payload ++ rest).length = payload.length + 4 + rest.length := by
        rw [List.length_append, frame_length]
      have hframe := frame_length payload
      have hround := scanRound_frame mem s payload rest hmem hlen htotal hbound
      obtain ⟨payloads, tail, hrest, hstop⟩ := ih rest.length (by omega) rest _
        ((holds_append mem _ _ _).mp hmem).2 rfl (by simp only []; omega)
        (by simp only []; omega) (fun t ht => h t (ht.head hround)) rfl
      exact ⟨payload :: payloads, tail, by rw [frames_cons, List.append_assoc, hrest], hstop⟩
    · rw [hlen] at hhave
      exact ⟨[], bytes, rfl, stops_of_not_haveCompleteMessage mem s.buf bytes hmem hhave⟩

/-- The framing stays inside a buffer exactly when every header the scan meets
is that of a whole frame or announces more bytes than are left, without the
announced end overflowing. -/
theorem framingInside_iff_wellFramed (buffer : List Byte) (hsize : buffer.length < 2147483648) :
    FramingInside buffer ↔ WellFramed buffer := by
  constructor
  · intro h
    have hinside := (h (fun _ => 0)).1
    exact wellFramed_of_roundInside _ _ buffer (scanStart 0 buffer.length)
      (holds_blockMemory _ buffer) rfl (Int.le_refl 0) (by simp only [scanStart]; omega) hinside
  · exact framingInside_of_wellFramed buffer hsize

/-- Two frames and a cut header are well framed. -/
theorem framingInside_two_frames :
    ([1, 0, 0, 0, 9, 0, 0, 0, 0, 5] : List Byte).length < 2147483648 ∧
      FramingInside [1, 0, 0, 0, 9, 0, 0, 0, 0, 5] :=
  ⟨by decide, (framingInside_iff_wellFramed [1, 0, 0, 0, 9, 0, 0, 0, 0, 5] (by decide)).mpr
    ⟨[[9], []], [5], by decide, Or.inl (by decide)⟩⟩

/-- Four bytes that read as -1 pass the length test, and `resize` throws. -/
theorem negative_length_leaves_framing :
    haveCompleteMessage (blockMemory (fun _ => 0) [255, 255, 255, 255]) 0 4 = true ∧
      loadWord (blockMemory (fun _ => 0) [255, 255, 255, 255]) 0 = -1 ∧
      getMessage (blockMemory (fun _ => 0) [255, 255, 255, 255]) 0 = .error .resizeThrows ∧
      ¬ FramingInside [255, 255, 255, 255] := by
  have hhave : haveCompleteMessage
      (blockMemory (fun _ => 0) [255, 255, 255, 255]) 0 4 = true := by decide
  have hword : loadWord (blockMemory (fun _ => 0) [255, 255, 255, 255]) 0 = -1 := by decide
  refine ⟨hhave, hword, by rw [getMessage, hword]; rfl, ?_⟩
  intro h
  have hinside := (h (fun _ => 0)).1 _ .start hhave
  have hnonneg := hinside.2.2.1
  rw [show (scanStart 0 ([255, 255, 255, 255] : List Byte).length).buf = 0 from rfl, hword]
    at hnonneg
  omega

end BlackCat.FramingSafety
