import BlackCat.FramingSafety
import BlackCat.TcpConnection

/-!
Reassembly of RPC streams. A provider's connection reassembles every cut of a
stream, except that a length field within four of 2^31 overflows the length
test as soon as its header is there. The proxy's connection reassembles a cut
exactly when no buffer shown to its callback reaches the receive limit.
-/
namespace BlackCat.RpcReassembly

open ByteMemory LengthFrames Loops ServerCommon Dispatcher TcpConnection FramingSafety

theorem provider_settled : Settled RpcServiceProvider.onRead := by
  intro n m mem buf len outcome hnm h
  exact map_run_mono _ hnm h

theorem proxy_settled : Settled RpcProxyServer.onRead := by
  intro n m mem buf len outcome hnm h
  unfold RpcProxyServer.onRead at h ⊢
  by_cases hguard : maxRecvBuf ≤ len
  · rw [if_pos hguard] at h ⊢
    exact h
  · rw [if_neg hguard] at h ⊢
    exact map_run_mono _ hnm h

theorem provider_scansFrames :
    ScansFrames RpcServiceProvider.onRead id Fits (fun buffer => Stops (leftover buffer)) := by
  intro around payloads rest n hfits hrest hlen hgood hn
  rw [leftover_frames_append payloads rest hfits hrest] at hgood
  rw [List.map_id]
  exact RpcServiceProvider.onRead_frames around payloads rest hgood hlen n hn

theorem scanRound_overflow (mem : Memory) (s : Scan) (hlen : 4 ≤ s.len)
    (hover : 2147483648 ≤ loadWord mem s.buf + 4) (hrange : loadWord mem s.buf < 2147483648) :
    scanRound mem s = .again {
      buf := s.buf + (loadWord mem s.buf + 4 - 4294967296)
      len := int32 (s.len - (loadWord mem s.buf + 4 - 4294967296))
      totalLen := int32 (s.totalLen + (loadWord mem s.buf + 4 - 4294967296))
      messages := s.messages ++ [load mem (s.buf + kHeaderLen) (loadWord mem s.buf).toNat]
    } := by
  have hwrap : int32 (loadWord mem s.buf + 4) = loadWord mem s.buf + 4 - 4294967296 := by
    unfold int32
    omega
  have hhave : haveCompleteMessage mem s.buf s.len = true := by
    rw [haveCompleteMessage_iff, hwrap]
    omega
  have hget : getMessage mem s.buf =
      .ok (load mem (s.buf + kHeaderLen) (loadWord mem s.buf).toNat) := by
    rw [getMessage, if_neg (by omega)]
  have hsize : int32 (load mem (s.buf + kHeaderLen) (loadWord mem s.buf).toNat).length =
      loadWord mem s.buf := by
    rw [load_length, Int.toNat_of_nonneg (by omega), int32_eq_self _ (by omega) (by omega)]
  rw [scanRound, if_pos hhave, hget]
  simp only [hsize]
  rw [show loadWord mem s.buf + kHeaderLen = loadWord mem s.buf + 4 from rfl, hwrap]

/-- After a round whose end overflows the remaining length is negative, so the next test fails
and the loop leaves with a negative total. -/
theorem scan_overflow (mem : Memory) (s : Scan) (rest : List Byte)
    (hmem : Holds mem s.buf rest) (hlen : s.len = rest.length) (hfour : 4 ≤ rest.length)
    (htotal : 0 ≤ s.totalLen) (hbound : s.totalLen + s.len < 2147483648)
    (hover : 2147483648 ≤ word rest + 4) :
    ∃ last, run (scanRound mem) 2 s = some (.ok last) ∧ last.totalLen < 0 := by
  have hword := loadWord_of_holds mem s.buf rest hmem hfour
  have hrange := word_range rest
  have hround := scanRound_overflow mem s (by omega) (by omega) (by omega)
  rw [hword] at hround
  have hshort : int32 (s.len - (word rest + 4 - 4294967296)) = s.len - (word rest + 4) := by
    unfold int32
    omega
  have hneg : int32 (s.totalLen + (word rest + 4 - 4294967296)) < 0 := by
    unfold int32
    omega
  rw [run_again _ hround, run_leave _ (r := .ok _) (by
    rw [scanRound, if_neg]
    rw [haveCompleteMessage_iff]
    simp only [hshort]
    omega)]
  exact ⟨_, rfl, hneg⟩

/-- A payload whose announced end does not overflow. -/
def EndFits (payload : List Byte) : Prop := payload.length + 4 < 2147483648

theorem EndFits.fits {payload : List Byte} (h : EndFits payload) : Fits payload := by
  unfold EndFits at h
  unfold Fits
  omega

theorem endFits_of_frames_append (payloads : List (List Byte)) (rest : List Byte)
    (hlen : (frames payloads ++ rest).length < 2147483648) :
    ∀ payload ∈ payloads, EndFits payload := by
  intro payload hmem
  have hle := payload_length_le payload payloads hmem
  rw [List.length_append] at hlen
  unfold EndFits
  omega

theorem run_negative (mem : Memory) (s last : Scan) (n : ℕ)
    (hhave : haveCompleteMessage mem s.buf s.len = true) (hneg : loadWord mem s.buf < 0) :
    run (scanRound mem) n s ≠ some (.ok last) := by
  intro hrun
  have hround : scanRound mem s = .leave (.error .resizeThrows) := by
    rw [scanRound, if_pos hhave, getMessage, if_pos hneg]
  have hone := run_leave (scanRound mem) hround 0
  cases run_unique _ hrun hone

/-- A scan that leaves has dispatched whole frames and stopped at the rest, or
it has counted below zero. -/
theorem scan_sound (mem : Memory) (bytes : List Byte) (s last : Scan) (n : ℕ)
    (hmem : Holds mem s.buf bytes) (hlen : s.len = bytes.length)
    (htotal : 0 ≤ s.totalLen) (hbound : s.totalLen + s.len < 2147483648)
    (hrun : run (scanRound mem) n s = some (.ok last)) :
    last.totalLen < 0 ∨
      ∃ payloads rest, bytes = frames payloads ++ rest ∧ Stops rest ∧
        last = s.after payloads rest := by
  induction n generalizing bytes s with
  | zero => simp [run] at hrun
  | succ n ih =>
    by_cases hhave : haveCompleteMessage mem s.buf s.len = true
    · obtain ⟨hfour, hcomplete⟩ := (haveCompleteMessage_iff mem s.buf s.len).mp hhave
      have hword := loadWord_of_holds mem s.buf bytes hmem (by omega)
      have hrange := word_range bytes
      by_cases hneg : word bytes < 0
      · exact absurd hrun (run_negative mem s last _ hhave (by omega))
      by_cases hover : 2147483648 ≤ word bytes + 4
      · obtain ⟨stop, hstop, hbelow⟩ :=
          scan_overflow mem s bytes hmem hlen (by omega) htotal hbound hover
        cases run_unique _ hrun hstop
        exact Or.inl hbelow
      · rw [hword, int32_eq_self _ (by omega) (by omega)] at hcomplete
        obtain ⟨payload, rest, rfl, _, _⟩ :=
          exists_frame bytes (by omega) (by unfold Incomplete; omega)
        have hsplit : (frame payload ++ rest).length = (frame payload).length + rest.length :=
          List.length_append
        rw [run_again _ (scanRound_frame mem s payload rest hmem hlen htotal hbound)] at hrun
        rcases ih rest _ ((holds_append mem _ _ _).mp hmem).2 rfl (by simp only []; omega)
          (by simp only []; omega) hrun with hbelow | ⟨payloads, tail, rfl, hstop, rfl⟩
        · exact Or.inl hbelow
        · refine Or.inr ⟨payload :: payloads, tail, ?_, hstop, ?_⟩
          · rw [frames_cons, List.append_assoc]
          · simp [Scan.after, frames_cons, add_assoc]
    · have hround : scanRound mem s = .leave (.ok s) := by rw [scanRound, if_neg hhave]
      rw [run_leave _ hround] at hrun
      obtain rfl : s = last := Except.ok.inj (Option.some.inj hrun)
      rw [hlen] at hhave
      refine Or.inr ⟨[], bytes, rfl,
        stops_of_not_haveCompleteMessage mem s.buf bytes hmem hhave, ?_⟩
      simp [Scan.after, frames_nil, ← hlen]

theorem read_sound (cb : FuncOnRead (List Byte)) (c next : State) (arrival : Arrival) (n : ℕ)
    (dispatched : List (List Byte))
    (hscan : cb n (blockMemory arrival.around (c.recvBuf ++ arrival.bytes)) 0
        (c.recvBuf ++ arrival.bytes).length =
      (run (scanRound (blockMemory arrival.around (c.recvBuf ++ arrival.bytes))) n
        (scanStart 0 (c.recvBuf ++ arrival.bytes).length)).map (Except.map scanResult))
    (hopen : c.socketOpen = true)
    (hlen : (c.recvBuf ++ arrival.bytes).length < 2147483648)
    (h : onRead cb n c arrival = some (.ok (next, dispatched))) :
    Stops (leftover (c.recvBuf ++ arrival.bytes)) ∧
      c.recvBuf ++ arrival.bytes = frames dispatched ++ leftover (c.recvBuf ++ arrival.bytes) ∧
      next = ⟨leftover (c.recvBuf ++ arrival.bytes), true⟩ := by
  rw [onRead_eq _ n c arrival hopen hlen, hscan] at h
  obtain ⟨outcome, hcb, hafter⟩ := Option.map_eq_some_iff.mp h
  obtain ⟨result, hrun, rfl⟩ := Option.map_eq_some_iff.mp hcb
  cases result with
  | error e => cases hafter
  | ok last =>
    rcases scan_sound _ _ (scanStart 0 (c.recvBuf ++ arrival.bytes).length) last n
      (holds_blockMemory arrival.around _) rfl (Int.le_refl 0)
      (by simp only [scanStart]; omega) hrun with hbelow | ⟨payloads, rest, hsplit, hstop, rfl⟩
    · have herase : eraseFront (c.recvBuf ++ arrival.bytes) last.totalLen =
          .error .eraseOutOfRange := by
        rw [eraseFront, if_neg (by omega), if_neg (by omega)]
      simp only [Except.map, Except.bind, afterCallback, scanResult, herase] at hafter
      cases hafter
    · have hleft : leftover (c.recvBuf ++ arrival.bytes) = rest := by
        rw [hsplit] at hlen ⊢
        exact leftover_frames_append payloads rest
          (fun p hp => (endFits_of_frames_append _ _ hlen p hp).fits) hstop.incomplete
      simp only [Except.map, Except.bind, afterCallback, scanResult, Scan.after, scanStart,
        hsplit, Int.zero_add, eraseFront_frames, List.nil_append, Bool.not_false] at hafter
      cases hafter
      rw [hleft]
      exact ⟨hstop, hsplit, rfl⟩

theorem overflow_spoilt (cb : FuncOnRead (List Byte)) (c : State) (arrival : Arrival) (n : ℕ)
    (hscan : cb n (blockMemory arrival.around (c.recvBuf ++ arrival.bytes)) 0
        (c.recvBuf ++ arrival.bytes).length =
      (run (scanRound (blockMemory arrival.around (c.recvBuf ++ arrival.bytes))) n
        (scanStart 0 (c.recvBuf ++ arrival.bytes).length)).map (Except.map scanResult))
    (hopen : c.socketOpen = true)
    (hlen : (c.recvBuf ++ arrival.bytes).length < 2147483648)
    (hbad : ¬ Stops (leftover (c.recvBuf ++ arrival.bytes))) :
    Spoilt (fun _ => False) (onRead cb n c arrival) := by
  intro next dispatched hread
  exact absurd (read_sound cb c next arrival n dispatched hscan hopen hlen hread).1 hbad

theorem stops_of_prefix (payloads : List (List Byte)) (rest tail more : List Byte)
    (hpayloads : ∀ payload ∈ payloads, EndFits payload) (hrest : Stops rest)
    (htail : Incomplete tail) (h : tail ++ more = frames payloads ++ rest) : Stops tail := by
  by_cases hfour : 4 ≤ tail.length
  · have hword := word_append tail more hfour
    unfold Incomplete at htail
    unfold Stops at hrest ⊢
    cases payloads with
    | nil =>
      rw [frames_nil, List.nil_append] at h
      have hsum := congrArg List.length h
      rw [List.length_append] at hsum
      rw [h] at hword
      omega
    | cons payload payloads =>
      have hend := hpayloads payload (List.mem_cons_self ..)
      rw [frames_cons, List.append_assoc] at h
      rw [h, word_frame_append payload _ hend.fits] at hword
      unfold EndFits at hend
      omega
  · exact Or.inl (by omega)

/-- The loop stops at every unfinished frame of a run exactly when it stops at
the one the stream ends in. -/
theorem buffers_stop_iff (payloads : List (List Byte)) (rest : List Byte)
    (hpayloads : ∀ payload ∈ payloads, EndFits payload) (hrest : Incomplete rest)
    (arrivals : List Arrival) (held : List Byte) (hheld : Stops held)
    (hstream : held ++ (pieces arrivals).flatten = frames payloads ++ rest) :
    (∀ buffer ∈ buffers held (pieces arrivals), Stops (leftover buffer)) ↔ Stops rest := by
  induction arrivals generalizing held payloads with
  | nil =>
    rw [pieces, List.map_nil, List.flatten_nil, List.append_nil] at hstream
    have hnil := eq_rest_of_incomplete payloads rest (fun p hp => (hpayloads p hp).fits)
      (hstream ▸ hheld.incomplete)
    subst payloads
    rw [hstream, frames_nil, List.nil_append] at hheld
    simpa [pieces, buffers] using hheld
  | cons arrival arrivals ih =>
    obtain ⟨before, after, tail, rfl, _, hafter, htail, _, hback, hleft, hbuffers⟩ :=
      exists_split_read (fun _ => EndFits.fits) payloads rest hpayloads hrest arrival arrivals
        held hstream
    rw [hbuffers, List.forall_mem_cons, hleft]
    constructor
    · rintro ⟨hstop, hothers⟩
      exact (ih after hafter tail hstop hback).mp hothers
    · intro hstop
      have hfirst := stops_of_prefix after rest tail _ hafter hstop htail hback
      exact ⟨hfirst, (ih after hafter tail hfirst hback).mpr hstop⟩

theorem buffers_length_le (payloads : List (List Byte)) (rest : List Byte)
    (hpayloads : ∀ payload ∈ payloads, Fits payload) (hrest : Incomplete rest)
    (arrivals : List Arrival) (held : List Byte)
    (hstream : held ++ (pieces arrivals).flatten = frames payloads ++ rest)
    (buffer : List Byte) (hbuffer : buffer ∈ buffers held (pieces arrivals)) :
    buffer.length ≤ (frames payloads ++ rest).length := by
  induction arrivals generalizing held payloads with
  | nil => simp [pieces, buffers] at hbuffer
  | cons arrival arrivals ih =>
    obtain ⟨before, after, tail, rfl, _, hafter, _, hfront, hback, _, hbuffers⟩ :=
      exists_split_read (fun _ h => h) payloads rest hpayloads hrest arrival arrivals
        held hstream
    have hwhole := congrArg List.length hstream
    rw [show pieces (arrival :: arrivals) = arrival.bytes :: pieces arrivals from rfl,
      List.flatten_cons, ← List.append_assoc, List.length_append] at hwhole
    rw [hbuffers] at hbuffer
    rcases List.mem_cons.mp hbuffer with rfl | hlater
    · omega
    · have hle := ih after hafter tail hback hlater
      rw [frames_append, List.append_assoc, List.length_append]
      omega

theorem stops_strict_prefix_iff (payload rest more : List Byte) (hfits : Fits payload)
    (h : frame payload = rest ++ more) (hmore : more ≠ []) :
    Stops rest ↔ rest.length < 4 ∨ payload.length + 4 < 2147483648 := by
  have hincomplete := incomplete_of_strict_prefix payload rest more hfits h hmore
  unfold Incomplete at hincomplete
  unfold Stops
  by_cases hfour : 4 ≤ rest.length
  · have hword := word_frame_append payload [] hfits
    rw [List.append_nil, h, word_append rest more hfour] at hword
    omega
  · omega

/-- The provider's connection reassembles a stream exactly when the loop stops at
the unfinished frame it ends in. -/
theorem provider_reassembles_iff_stops (payloads : List (List Byte)) (rest : List Byte)
    (hrest : Incomplete rest) (hlen : (frames payloads ++ rest).length < 2147483648)
    (arrivals : List Arrival)
    (hstream : (pieces arrivals).flatten = frames payloads ++ rest) :
    Reassembles RpcServiceProvider.onRead arrivals payloads rest ↔ Stops rest := by
  have hends := endFits_of_frames_append payloads rest hlen
  have hfits : ∀ payload ∈ payloads, Fits payload := fun p hp => (hends p hp).fits
  have hiff := reassembles_iff provider_scansFrames provider_settled (fun _ h => h)
    (fun _ => False) (fun _ h => h)
    (fun c arrival _ _ n hopen _ _ _ hshort hbad =>
      overflow_spoilt _ c arrival n rfl hopen hshort hbad)
    payloads rest hfits hrest arrivals hstream
    (fun buffer hb => Nat.lt_of_le_of_lt
      (buffers_length_le payloads rest hfits hrest arrivals [] hstream buffer hb) hlen)
  rw [List.map_id] at hiff
  exact hiff.trans (buffers_stop_iff payloads rest hends hrest arrivals [] (Or.inl (by decide))
    hstream)

/-- Reassembly by a provider: for every list of payloads, every strict prefix of
one further frame and every cut of their stream, exactly the payloads are
dispatched and the prefix is kept, unless its header announces an end past 2^31. -/
theorem provider_reassembles_iff (payloads : List (List Byte)) (payload rest more : List Byte)
    (hfits : Fits payload) (hstart : frame payload = rest ++ more) (hmore : more ≠ [])
    (hlen : (frames payloads ++ rest).length < 2147483648) (arrivals : List Arrival)
    (hcut : (pieces arrivals).flatten = frames payloads ++ rest) :
    Reassembles RpcServiceProvider.onRead arrivals payloads rest ↔
      rest.length < 4 ∨ payload.length + 4 < 2147483648 := by
  have hrest := incomplete_of_strict_prefix payload rest more hfits hstart hmore
  rw [provider_reassembles_iff_stops payloads rest hrest hlen arrivals hcut]
  exact stops_strict_prefix_iff payload rest more hfits hstart hmore

/-- A frame, an empty frame and the start of a third, read in three pieces that
cut a header and a payload. -/
theorem provider_reassembles_three_reads :
    Reassembles RpcServiceProvider.onRead
      [⟨[1, 0], fun _ => 0⟩, ⟨[0, 0, 9, 0, 0, 0, 0, 2, 0, 0], fun _ => 0⟩,
        ⟨[0, 7], fun _ => 0⟩] [[9], []] [2, 0, 0, 0, 7] :=
  (provider_reassembles_iff [[9], []] [7, 8] [2, 0, 0, 0, 7] [8] (by decide) (by decide)
    (by decide) (by decide) _ (by decide)).mpr (Or.inr (by decide))

/-- Four bytes that announce 2147483645 more are not kept for later. -/
theorem provider_drops_header_near_limit :
    frame (List.replicate 2147483645 0) =
        [253, 255, 255, 127] ++ List.replicate 2147483645 0 ∧
      Fits (List.replicate 2147483645 0) ∧
      ¬ Reassembles RpcServiceProvider.onRead [⟨[253, 255, 255, 127], fun _ => 0⟩] []
        [253, 255, 255, 127] := by
  refine ⟨?_, ?_, ?_⟩
  · rw [frame, List.length_replicate]
    congr 1
  · unfold Fits
    rw [List.length_replicate]
    omega
  · rw [provider_reassembles_iff_stops [] [253, 255, 255, 127] (by decide) (by decide)
      [⟨[253, 255, 255, 127], fun _ => 0⟩] (by decide)]
    unfold Stops
    decide

/-- Payloads whose frames are shorter than the receive limit. -/
def BelowLimit (payload : List Byte) : Prop := ((frame payload).length : ℤ) < maxRecvBuf

theorem proxy_scansFrames :
    ScansFrames RpcProxyServer.onRead id BelowLimit
      (fun buffer => (buffer.length : ℤ) < maxRecvBuf ∧ Stops (leftover buffer)) := by
  intro around payloads rest n hpayloads hrest hlen hgood hn
  have hfits : ∀ payload ∈ payloads, Fits payload :=
    fun p hp => (endFits_of_frames_append payloads rest hlen p hp).fits
  rw [leftover_frames_append payloads rest hfits hrest] at hgood
  rw [List.map_id]
  exact RpcProxyServer.onRead_frames around payloads rest hgood.2 hgood.1 n hn

theorem fits_of_belowLimit (payload : List Byte) (h : BelowLimit payload) : Fits payload := by
  unfold BelowLimit maxRecvBuf at h
  rw [frame_length] at h
  unfold Fits
  omega

theorem proxy_guard_spoilt (c : State) (arrival : Arrival) (n : ℕ) (hopen : c.socketOpen = true)
    (hlen : (c.recvBuf ++ arrival.bytes).length < 2147483648)
    (hguard : maxRecvBuf ≤ ((c.recvBuf ++ arrival.bytes).length : ℤ)) :
    Spoilt (fun _ => False) (onRead RpcProxyServer.onRead n c arrival) := by
  apply spoilt_of_shutdown _ n c arrival hopen hlen ⟨_, [], true⟩ rfl
  rw [RpcProxyServer.onRead, if_pos hguard]

theorem proxy_spoilt (c : State) (arrival : Arrival) (n : ℕ) (hopen : c.socketOpen = true)
    (hlen : (c.recvBuf ++ arrival.bytes).length < 2147483648)
    (hbad : ¬ (((c.recvBuf ++ arrival.bytes).length : ℤ) < maxRecvBuf ∧
      Stops (leftover (c.recvBuf ++ arrival.bytes)))) :
    Spoilt (fun _ => False) (onRead RpcProxyServer.onRead n c arrival) := by
  by_cases hguard : maxRecvBuf ≤ ((c.recvBuf ++ arrival.bytes).length : ℤ)
  · exact proxy_guard_spoilt c arrival n hopen hlen hguard
  · refine overflow_spoilt _ c arrival n ?_ hopen hlen (fun hstop => hbad ⟨by omega, hstop⟩)
    rw [RpcProxyServer.onRead, if_neg hguard]

theorem tail_length_lt (payloads : List (List Byte)) (tail more : List Byte)
    (hpayloads : ∀ payload ∈ payloads, BelowLimit payload) (htail : Incomplete tail)
    (h : tail ++ more = frames payloads) : (tail.length : ℤ) < maxRecvBuf := by
  cases payloads with
  | nil =>
    rw [frames_nil, List.append_eq_nil_iff] at h
    rw [h.1]
    decide
  | cons payload payloads =>
    have hbelow := hpayloads payload (List.mem_cons_self ..)
    have hfits := fits_of_belowLimit payload hbelow
    unfold BelowLimit at hbelow
    rw [frame_length] at hbelow
    by_cases hfour : 4 ≤ tail.length
    · have hword := word_append tail more hfour
      rw [h, frames_cons, word_frame_append payload _ hfits] at hword
      unfold Incomplete at htail
      omega
    · unfold maxRecvBuf
      omega

theorem buffers_length_lt (payloads : List (List Byte))
    (hpayloads : ∀ payload ∈ payloads, BelowLimit payload) (arrivals : List Arrival)
    (hreads : ∀ piece ∈ pieces arrivals, (piece.length : ℤ) ≤ maxRecvBuf) (held : List Byte)
    (hheld : (held.length : ℤ) < maxRecvBuf)
    (hstream : held ++ (pieces arrivals).flatten = frames payloads)
    (buffer : List Byte) (hbuffer : buffer ∈ buffers held (pieces arrivals)) :
    buffer.length < 2147483648 := by
  have hnil : Incomplete [] := Or.inl (by decide)
  induction arrivals generalizing held payloads with
  | nil => simp [pieces, buffers] at hbuffer
  | cons arrival arrivals ih =>
    rw [← List.append_nil (frames payloads)] at hstream
    obtain ⟨before, after, tail, rfl, _, hafter, htail, _, hback, _, hbuffers⟩ :=
      exists_split_read fits_of_belowLimit payloads [] hpayloads hnil arrival arrivals
        held hstream
    rw [show pieces (arrival :: arrivals) = arrival.bytes :: pieces arrivals from rfl,
      List.forall_mem_cons] at hreads
    rw [List.append_nil] at hback
    rw [hbuffers] at hbuffer
    rcases List.mem_cons.mp hbuffer with rfl | hlater
    · have hfirst := hreads.1
      unfold maxRecvBuf at hfirst hheld
      rw [List.length_append]
      omega
    · exact ih after hafter hreads.2 tail (tail_length_lt after tail _ hafter htail hback)
        hback hlater

/-- Reassembly by the proxy: the payloads are dispatched in order and the
connection is never shut down exactly when, at every read, the bytes of the
unfinished frame together with those read stay below the receive limit. -/
theorem proxy_reassembles_iff (payloads : List (List Byte))
    (hpayloads : ∀ payload ∈ payloads, BelowLimit payload) (arrivals : List Arrival)
    (hcut : (pieces arrivals).flatten = frames payloads)
    (hreads : ∀ piece ∈ pieces arrivals, (piece.length : ℤ) ≤ maxRecvBuf) :
    Reassembles RpcProxyServer.onRead arrivals payloads [] ↔
      ∀ buffer ∈ buffers [] (pieces arrivals), (buffer.length : ℤ) < maxRecvBuf := by
  have hnil : Stops [] := Or.inl (by decide)
  have hends : ∀ payload ∈ payloads, EndFits payload := by
    intro payload hmem
    have hbelow := hpayloads payload hmem
    unfold BelowLimit maxRecvBuf at hbelow
    rw [frame_length] at hbelow
    unfold EndFits
    omega
  have hshort := buffers_length_lt payloads hpayloads arrivals hreads [] (by decide) hcut
  rw [← List.append_nil (frames payloads)] at hcut
  have hiff := reassembles_iff proxy_scansFrames proxy_settled fits_of_belowLimit
    (fun _ => False) (fun _ h => h)
    (fun c arrival _ _ n hopen _ _ _ hshort hbad => proxy_spoilt c arrival n hopen hshort hbad)
    payloads [] hpayloads hnil.incomplete
    arrivals hcut hshort
  rw [List.map_id] at hiff
  rw [hiff]
  have hstops := (buffers_stop_iff payloads [] hends hnil.incomplete arrivals [] hnil
    hcut).mpr hnil
  exact ⟨fun h buffer hmem => (h buffer hmem).1,
    fun h buffer hmem => ⟨h buffer hmem, hstops buffer hmem⟩⟩

/-- Two frames read in one piece, below the limit. -/
theorem proxy_reassembles_one_read :
    Reassembles RpcProxyServer.onRead [⟨[1, 0, 0, 0, 9, 0, 0, 0, 0], fun _ => 0⟩] [[9], []] [] :=
  (proxy_reassembles_iff [[9], []] (by unfold BelowLimit; decide)
    [⟨[1, 0, 0, 0, 9, 0, 0, 0, 0], fun _ => 0⟩] (by decide) (by decide)).mpr (by decide)

theorem proxy_not_reassembles_full_read (bytes : List Byte) (around : Memory)
    (hlen : bytes.length = 32768) (payloads : List (List Byte)) :
    ¬ Reassembles RpcProxyServer.onRead [⟨bytes, around⟩] payloads [] := by
  rintro ⟨n, hfeed⟩
  have hbuffer : (fresh.recvBuf ++ (⟨bytes, around⟩ : Arrival).bytes).length = 32768 := hlen
  have hread := proxy_guard_spoilt fresh ⟨bytes, around⟩ n rfl (by omega)
    (by rw [hbuffer]; decide)
  rcases hread.feed_cons [] _ _ hfeed with hclosed | ⟨_, _, hfalse⟩
  · cases hclosed
  · exact hfalse

def halfPayload : List Byte := List.replicate 16380 0

theorem frame_halfPayload_length : (frame halfPayload).length = 16384 := by
  rw [frame_length, halfPayload, List.length_replicate]

/-- Two frames of half the limit, received by one full read of the socket, make
the proxy shut the connection down. -/
theorem proxy_shuts_down_on_full_read :
    (∀ payload ∈ [halfPayload, halfPayload], BelowLimit payload) ∧
      frames [halfPayload, halfPayload] = frame halfPayload ++ frame halfPayload ∧
      ((frame halfPayload ++ frame halfPayload).length : ℤ) = maxRecvBuf ∧
      ¬ Reassembles RpcProxyServer.onRead
        [⟨frame halfPayload ++ frame halfPayload, fun _ => 0⟩] [halfPayload, halfPayload] [] := by
  have hlen : (frame halfPayload ++ frame halfPayload).length = 32768 := by
    rw [List.length_append, frame_halfPayload_length]
  have hbelow : BelowLimit halfPayload := by
    unfold BelowLimit
    rw [frame_halfPayload_length]
    decide
  refine ⟨?_, ?_, by rw [hlen]; rfl, proxy_not_reassembles_full_read _ _ hlen _⟩
  · intro payload hmem
    rcases List.mem_cons.mp hmem with rfl | hmem
    · exact hbelow
    · rw [List.mem_singleton.mp hmem]
      exact hbelow
  · rw [frames_cons, frames_cons, frames_nil, List.append_nil]

end BlackCat.RpcReassembly
