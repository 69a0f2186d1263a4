import BlackCat.GenericServer

/-!
Which bytes keep the scan of `GenericServer::OnRead` inside its buffer. A frame
missing at most four of its last bytes is dispatched as if it were there, after
which the bytes left are negative; a negative length field is dispatched too.
All other headers are harmless, so the safe buffers are whole frames followed
by a rest at which the loop stops.
-/
namespace BlackCat.ScanSafety

open ByteMemory LengthFrames Loops ServerCommon TcpConnection GenericServer

/-- The bytes left are not negative, and a round reads its header and dispatches
its range inside the part of the buffer not yet consumed. -/
def RoundInside (mem : Memory) (size : ℤ) (s : Scan) : Prop :=
  0 ≤ s.len ∧ (sizeofPacketHeader < uint32 s.len →
    0 ≤ s.totalLen ∧ s.buf = s.totalLen ∧ s.buf + sizeofPacketHeader ≤ size ∧
    ∀ t, scanRound mem s = .again t →
      0 ≤ loadWord mem s.buf ∧ s.buf + sizeofPacketHeader + loadWord mem s.buf ≤ size)

/-- No bytes of the buffer take the scan out of it, and the count it returns can
be erased from the buffer. -/
def ScanInside (buffer : List Byte) : Prop :=
  ∀ around,
    (∀ s, Visits (scanRound (blockMemory around buffer)) (scanStart 0 buffer.length) s →
      RoundInside (blockMemory around buffer) buffer.length s) ∧
    ∃ n result rest, onRead n (blockMemory around buffer) 0 buffer.length = some (.ok result) ∧
      0 ≤ result.procLen ∧ result.procLen ≤ buffer.length ∧
      eraseFront buffer result.procLen = .ok rest

/-- Whole frames, then a rest at which the loop stops. -/
def WellFramed (buffer : List Byte) : Prop :=
  ∃ payloads rest, buffer = frames payloads ++ rest ∧ Quiet rest

/-- What holds whenever a round begins on a well-framed buffer. -/
structure Aligned (mem : Memory) (rest : List Byte) (size : ℤ) (s : Scan) : Prop where
  nonneg : 0 ≤ s.totalLen
  total : s.buf = s.totalLen
  ends : s.totalLen + s.len = size
  holds : ∃ payloads, Holds mem s.buf (frames payloads ++ rest) ∧
    s.len = (frames payloads ++ rest).length

theorem Aligned.round {mem : Memory} {rest : List Byte} {size : ℤ} {s : Scan}
    (h : Aligned mem rest size s) (hsize : size < 32768) (hquiet : Quiet rest) :
    scanRound mem s = .leave s ∨
      ∃ payload : List Byte, loadWord mem s.buf = payload.length ∧
        (payload.length : ℤ) + 4 ≤ s.len ∧
        scanRound mem s = .again (s.step payload.length) ∧
        Aligned mem rest size (s.step payload.length) := by
  obtain ⟨hnonneg, htotal, hends, payloads, hmem, hlen⟩ := h
  cases payloads with
  | nil =>
    rw [frames_nil, List.nil_append] at hmem hlen
    exact Or.inl (scanRound_quiet mem s rest hmem hlen hquiet)
  | cons payload payloads =>
    rw [frames_cons, List.append_assoc] at hmem hlen
    have hsplit : (frame payload ++ (frames payloads ++ rest)).length =
        payload.length + 4 + (frames payloads ++ rest).length := by
      rw [List.length_append, frame_length]
    by_cases hmore : 4 < s.len
    · right
      have hword := loadWord_of_holds mem s.buf _ hmem (by omega)
      rw [word_frame_append payload _ (by unfold Fits; omega)] at hword
      have hnext := ((holds_append mem _ _ _).mp hmem).2
      have hframe := frame_length payload
      have hbuf : s.buf + ((payload.length : ℤ) + 4) = s.buf + (frame payload).length := by
        omega
      refine ⟨payload, hword, by omega,
        scanRound_frame mem s payload _ hmem hlen hmore hnonneg (by omega), ?_⟩
      exact {
        nonneg := by simp only [Scan.step]; omega
        total := by simp only [Scan.step]; omega
        ends := by simp only [Scan.step]; omega
        holds := ⟨payloads, by simp only [Scan.step]; rw [hbuf]; exact hnext,
          by simp only [Scan.step]; omega⟩
      }
    · exact Or.inl (scanRound_leave_short mem s (by omega) (by omega))

theorem Aligned.next {mem : Memory} {rest : List Byte} {size : ℤ} {s t : Scan}
    (h : Aligned mem rest size s) (hsize : size < 32768) (hquiet : Quiet rest)
    (hround : scanRound mem s = .again t) : Aligned mem rest size t := by
  rcases h.round hsize hquiet with hleave | ⟨payload, _, _, hagain, halign⟩
  · rw [hleave] at hround
    cases hround
  · rw [hagain] at hround
    cases hround
    exact halign

theorem Aligned.roundInside {mem : Memory} {rest : List Byte} {size : ℤ} {s : Scan}
    (h : Aligned mem rest size s) (hsize : size < 32768) (hquiet : Quiet rest) :
    RoundInside mem size s := by
  obtain ⟨payloads, _, hlen⟩ := h.holds
  have hnonneg := h.nonneg
  have htotal := h.total
  have hends := h.ends
  refine ⟨by omega, fun hcond => ⟨hnonneg, htotal, ?_, ?_⟩⟩
  · unfold sizeofPacketHeader uint32 at hcond
    unfold sizeofPacketHeader
    omega
  · intro t hround
    unfold sizeofPacketHeader
    rcases h.round hsize hquiet with hleave | ⟨payload, hword, hle, _, _⟩
    · rw [hleave] at hround
      cases hround
    · rw [hword]
      omega

/-- The loop ends: each round that goes on takes at least four bytes. -/
theorem Aligned.ends_run {mem : Memory} {rest : List Byte} {size : ℤ} (hsize : size < 32768)
    (hquiet : Quiet rest) (s : Scan) (h : Aligned mem rest size s) :
    ∃ n t, run (scanRound mem) n s = some t ∧ Aligned mem rest size t := by
  generalize hn : s.len.toNat = m
  induction m using Nat.strong_induction_on generalizing s with
  | h m ih =>
    rcases h.round hsize hquiet with hleave | ⟨payload, _, hle, hagain, halign⟩
    · exact ⟨1, s, run_leave _ hleave 0, h⟩
    · obtain ⟨n, t, hrun, ht⟩ := ih (s.step payload.length).len.toNat
        (by simp only [Scan.step]; omega) _ halign rfl
      exact ⟨n + 1, t, by rw [run_again _ hagain, hrun], ht⟩

theorem aligned_start (around : Memory) (payloads : List (List Byte)) (rest : List Byte) :
    Aligned (blockMemory around (frames payloads ++ rest)) rest
      (frames payloads ++ rest).length (scanStart 0 (frames payloads ++ rest).length) where
  nonneg := Int.le_refl 0
  total := rfl
  ends := Int.zero_add _
  holds := ⟨payloads, holds_blockMemory around _, rfl⟩

theorem eraseFront_ok (recvBuf : List Byte) (procLen : ℤ) (hlow : 0 ≤ procLen)
    (hhigh : procLen ≤ recvBuf.length) : ∃ rest, eraseFront recvBuf procLen = .ok rest := by
  unfold eraseFront
  by_cases hzero : procLen = 0
  · exact ⟨recvBuf, if_pos hzero⟩
  · rw [if_neg hzero, if_pos ⟨hlow, hhigh⟩]
    exact ⟨_, rfl⟩

theorem scanInside_of_wellFramed (buffer : List Byte) (hsize : (buffer.length : ℤ) < maxRecvBuf)
    (h : WellFramed buffer) : ScanInside buffer := by
  obtain ⟨payloads, rest, rfl, hquiet⟩ := h
  intro around
  have hlimit : ((frames payloads ++ rest).length : ℤ) < 32768 := hsize
  have hstart := aligned_start around payloads rest
  constructor
  · intro s hs
    have halign := hs.invariant (Aligned _ rest (frames payloads ++ rest).length)
      (fun a b ha hab => ha.next hlimit hquiet hab) hstart
    exact halign.roundInside hlimit hquiet
  · obtain ⟨n, t, hrun, halign⟩ := hstart.ends_run hlimit hquiet
    have hnonneg := halign.nonneg
    have hends := halign.ends
    obtain ⟨_, _, hlen⟩ := halign.holds
    obtain ⟨kept, hkept⟩ := eraseFront_ok (frames payloads ++ rest) t.totalLen hnonneg (by omega)
    exact ⟨n, _, kept, onRead_of_run hsize hrun, hnonneg,
      by simp only [scanResult]; omega, hkept⟩

theorem wellFramed_of_roundInside (mem : Memory) (size : ℤ) (hsize : size < 32768)
    (bytes : List Byte) (s : Scan) (hmem : Holds mem s.buf bytes)
    (hlen : s.len = bytes.length) (htotal : 0 ≤ s.totalLen) (hends : s.totalLen + s.len = size)
    (h : ∀ t, Visits (scanRound mem) s t → RoundInside mem size t) : WellFramed bytes := by
  generalize hn : bytes.length = n
  induction n using Nat.strong_induction_on generalizing bytes s with
  | h n ih =>
    by_cases hquiet : Quiet bytes
    · exact ⟨[], bytes, rfl, hquiet⟩
    · unfold Quiet at hquiet
      have hword := loadWord_of_holds mem s.buf bytes hmem (by omega)
      obtain ⟨_, hinside⟩ := h s .start
      obtain ⟨_, hbuf, _, hrange⟩ := hinside (by unfold sizeofPacketHeader uint32; omega)
      have hagain := scanRound_again mem s (by omega) (by omega) (by omega) (by omega)
      have hnext := hrange _ hagain
      unfold sizeofPacketHeader at hnext
      rw [hword] at hnext
      obtain ⟨payload, rest, rfl, hfits, hpay⟩ :=
        exists_frame bytes hnext.1 (by unfold Incomplete; omega)
      have hsplit : (frame payload ++ rest).length = payload.length + 4 + rest.length := by
        rw [List.length_append, frame_length]
      have hframe := frame_length payload
      have hround := scanRound_frame mem s payload rest hmem hlen (by omega) htotal (by omega)
      have hbufs : s.buf + ((payload.length : ℤ) + 4) = s.buf + (frame payload).length := by
        omega
      obtain ⟨payloads, tail, hrest, htail⟩ := ih rest.length (by omega) rest
        (s.step payload.length)
        (by simp only [Scan.step]; rw [hbufs]; exact ((holds_append mem _ _ _).mp hmem).2)
        (by simp only [Scan.step]; omega) (by simp only [Scan.step]; omega)
        (by simp only [Scan.step]; omega) (fun t ht => h t (ht.head hround)) rfl
      exact ⟨payload :: payloads, tail, by rw [frames_cons, List.append_assoc, hrest], htail⟩

/-- The scan stays inside a buffer exactly when every header it meets with bytes
after it is that of a whole frame or exceeds the bytes left. -/
theorem scanInside_iff_wellFramed (buffer : List Byte)
    (hsize : (buffer.length : ℤ) < maxRecvBuf) : ScanInside buffer ↔ WellFramed buffer := by
  constructor
  · intro h
    have hinside := (h (fun _ => 0)).1
    exact wellFramed_of_roundInside _ _ hsize buffer (scanStart 0 buffer.length)
      (holds_blockMemory _ buffer) rfl (Int.le_refl 0) (Int.zero_add _) hinside
  · exact scanInside_of_wellFramed buffer hsize

/-- A frame and the start of a second, longer one. -/
theorem scanInside_frame_and_start :
    (([1, 0, 0, 0, 9, 6, 0, 0, 0, 5] : List Byte).length : ℤ) < maxRecvBuf ∧
      ScanInside [1, 0, 0, 0, 9, 6, 0, 0, 0, 5] :=
  ⟨by decide, (scanInside_iff_wellFramed [1, 0, 0, 0, 9, 6, 0, 0, 0, 5] (by decide)).mpr
    ⟨[[9]], [6, 0, 0, 0, 5], by decide, by decide⟩⟩

/-- One byte of a five-byte payload has arrived, and `Dispatch` is given all five. -/
theorem scan_leaves_buffer :
    (([5, 0, 0, 0, 1] : List Byte).length : ℤ) < maxRecvBuf ∧
      scanRound (blockMemory (fun _ => 0) [5, 0, 0, 0, 1]) (scanStart 0 5) =
        .again ⟨9, -4, 9, [(4, 5)]⟩ ∧
      ¬ ScanInside [5, 0, 0, 0, 1] := by
  have hword : loadWord (blockMemory (fun _ => 0) [5, 0, 0, 0, 1]) (scanStart 0 5).buf = 5 := by
    decide
  have hround : scanRound (blockMemory (fun _ => 0) [5, 0, 0, 0, 1]) (scanStart 0 5) =
      .again ((scanStart 0 5).step 5) := by
    have hstep := scanRound_step (blockMemory (fun _ => 0) [5, 0, 0, 0, 1]) (scanStart 0 5)
      (by decide) (Or.inr (by decide)) (by decide) (by decide) (by rw [hword]; decide)
      (by rw [hword]; decide)
    rwa [hword] at hstep
  refine ⟨by decide, hround, ?_⟩
  intro h
  have hinside := (h (fun _ => 0)).1 _ (.next .start hround)
  exact absurd hinside.1 (by decide)

end BlackCat.ScanSafety
