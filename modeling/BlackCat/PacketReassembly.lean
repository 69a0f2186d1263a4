import BlackCat.GenericServer

/-!
Reassembly of packet streams by the gateway and the data server. The callback
compares the bytes left with the payload length alone. When a read ends with at
most four bytes of a frame missing, the payload is dispatched before its last
bytes are there; at every other cut the stream is reassembled.
-/
namespace BlackCat.PacketReassembly

open ByteMemory LengthFrames Loops ServerCommon TcpConnection
open GenericServer (Scan scanRound scanStart scanResult packet Quiet scanRound_quiet
  scanRound_frame scanRound_step mem_calls_of_run)

/-- The ranges of the payloads of frames that begin at an address. -/
def ranges : ℤ → List (List Byte) → List (ℤ × ℤ)
  | _, [] => []
  | a, payload :: payloads =>
    (a + 4, (payload.length : ℤ)) :: ranges (a + (frame payload).length) payloads

/-- The state after the rounds that dispatch whole frames. -/
def after (s : Scan) (payloads : List (List Byte)) (rest : List Byte) : Scan where
  buf := s.buf + (frames payloads).length
  len := rest.length
  totalLen := s.totalLen + (frames payloads).length
  calls := s.calls ++ ranges s.buf payloads

theorem run_frames (mem : Memory) (payloads : List (List Byte)) (rest : List Byte) (s : Scan)
    (hpayloads : ∀ payload ∈ payloads, payload ≠ [])
    (hmem : Holds mem s.buf (frames payloads ++ rest))
    (hlen : s.len = (frames payloads ++ rest).length)
    (htotal : 0 ≤ s.totalLen) (hbound : s.totalLen + s.len < 32768) (n : ℕ) :
    run (scanRound mem) (payloads.length + n) s =
      run (scanRound mem) n (after s payloads rest) := by
  induction payloads generalizing s with
  | nil =>
    rw [frames_nil, List.nil_append] at hlen
    simp [after, frames_nil, ranges, ← hlen]
  | cons payload payloads ih =>
    rw [List.forall_mem_cons] at hpayloads
    have hpos := List.length_pos_of_ne_nil hpayloads.1
    have hframe := frame_length payload
    rw [frames_cons, List.append_assoc] at hmem hlen
    have hsize : (frame payload ++ (frames payloads ++ rest)).length =
        (frame payload).length + (frames payloads ++ rest).length := List.length_append
    have hcount : (payload :: payloads).length + n = payloads.length + n + 1 := by
      rw [List.length_cons]
      omega
    have hstep : s.step payload.length = {
        buf := s.buf + (frame payload).length
        len := (frames payloads ++ rest).length
        totalLen := s.totalLen + (frame payload).length
        calls := s.calls ++ [(s.buf + 4, (payload.length : ℤ))] } := by
      unfold Scan.step
      congr 1
      all_goals omega
    have hround := scanRound_frame mem s payload _ hmem hlen (by omega) htotal hbound
    rw [hstep] at hround
    rw [hcount, run_again _ hround]
    rw [ih _ hpayloads.2 ((holds_append mem _ _ _).mp hmem).2 rfl (by simp only; omega)
      (by simp only; omega)]
    simp [after, frames_cons, ranges, add_assoc]

theorem map_packet_ranges (mem : Memory) (payloads : List (List Byte)) (a size : ℤ)
    (hlow : 0 ≤ a) (hhigh : a + (frames payloads).length ≤ size)
    (hmem : Holds mem a (frames payloads)) :
    (ranges a payloads).map (packet mem 0 size) = payloads.map some := by
  induction payloads generalizing a with
  | nil => rfl
  | cons payload payloads ih =>
    have hframe := frame_length payload
    rw [frames_cons, List.length_append] at hhigh
    rw [frames_cons, holds_append] at hmem
    have hpayload : load mem (a + 4) payload.length = payload := by
      have hparts := (holds_append mem a (wordBytes payload.length) payload).mp hmem.1
      rw [wordBytes_length] at hparts
      exact hparts.2
    have hpacket : packet mem 0 size (a + 4, (payload.length : ℤ)) = some payload := by
      rw [packet, if_pos (by simp only; omega)]
      simp only [Int.toNat_natCast, hpayload]
    rw [ranges, List.map_cons, List.map_cons, hpacket,
      ih (a + (frame payload).length) (by omega) (by omega) hmem.2]

theorem settled : Settled GenericServer.onRead := by
  intro n m mem buf len outcome hnm h
  unfold GenericServer.onRead at h ⊢
  by_cases hguard : maxRecvBuf ≤ len
  · rw [if_pos hguard] at h ⊢
    exact h
  · rw [if_neg hguard] at h ⊢
    exact map_run_mono _ hnm h

/-- The payloads a client sends: not empty, and with a length the header holds. -/
def Sent (payload : List Byte) : Prop := payload ≠ [] ∧ Fits payload

/-- The buffers that are handled as they should be. -/
def Good (buffer : List Byte) : Prop :=
  (buffer.length : ℤ) < maxRecvBuf ∧ Quiet (leftover buffer)

theorem scansFrames : ScansFrames GenericServer.onRead some Sent Good := by
  intro around payloads rest n hpayloads hrest hlen hgood hn
  obtain ⟨hsize, hquiet⟩ := hgood
  rw [leftover_frames_append payloads rest (fun p hp => (hpayloads p hp).2) hrest] at hquiet
  have hmem := holds_blockMemory around (frames payloads ++ rest)
  have hparts := (holds_append _ 0 _ _).mp hmem
  have hrun := run_frames _ payloads rest (scanStart 0 (frames payloads ++ rest).length)
    (fun p hp => (hpayloads p hp).1) hmem rfl (Int.le_refl 0)
    (by unfold maxRecvBuf at hsize; simp only [scanStart]; omega) (n - payloads.length - 1 + 1)
  rw [show payloads.length + (n - payloads.length - 1 + 1) = n by omega,
    run_leave _ (scanRound_quiet _ _ rest hparts.2 rfl hquiet)] at hrun
  rw [GenericServer.onRead_of_run hsize hrun]
  simp only [scanResult, after, scanStart, Int.zero_add, List.nil_append]
  rw [map_packet_ranges _ payloads 0 _ (Int.le_refl 0) (by rw [List.length_append]; omega)
    hparts.1]

theorem scan_premature (mem : Memory) (payloads : List (List Byte)) (rest : List Byte)
    (hpayloads : ∀ payload ∈ payloads, payload ≠ []) (hrest : Incomplete rest)
    (hmem : Holds mem 0 (frames payloads ++ rest))
    (hsize : ((frames payloads ++ rest).length : ℤ) < maxRecvBuf) (hquiet : ¬ Quiet rest)
    (n : ℕ) (last : Scan)
    (h : run (scanRound mem) n (scanStart 0 (frames payloads ++ rest).length) = some last) :
    none ∈ (scanResult mem 0 (frames payloads ++ rest).length last).dispatched := by
  have hsplit : (frames payloads ++ rest).length = (frames payloads).length + rest.length :=
    List.length_append
  unfold maxRecvBuf at hsize
  unfold Quiet at hquiet
  unfold Incomplete at hrest
  have hframes := run_frames mem payloads rest (scanStart 0 (frames payloads ++ rest).length)
    hpayloads hmem rfl (Int.le_refl 0) (by simp only [scanStart]; omega) (n + 1)
  rw [run_mono _ (by omega) h] at hframes
  generalize hs : after (scanStart 0 (frames payloads ++ rest).length) payloads rest = s
    at hframes
  have hbuf : s.buf = (frames payloads).length := by rw [← hs]; exact Int.zero_add _
  have hlen : s.len = rest.length := by rw [← hs]; rfl
  have htotal : s.totalLen = (frames payloads).length := by rw [← hs]; exact Int.zero_add _
  have hword : loadWord mem s.buf = word rest := by
    apply loadWord_of_holds mem s.buf rest _ (by omega)
    rw [hbuf, ← Int.zero_add ((frames payloads).length : ℤ)]
    exact ((holds_append mem 0 _ _).mp hmem).2
  have hround := scanRound_step mem s (by omega) (Or.inr (by omega)) (by omega) (by omega)
    (by omega) (by omega)
  rw [run_again _ hround] at hframes
  have hcall := mem_calls_of_run hframes.symm
    (List.mem_append_right s.calls (List.mem_singleton_self _))
  apply List.mem_map.mpr
  refine ⟨_, hcall, ?_⟩
  rw [packet, if_neg]
  simp only
  omega

theorem premature_spoilt (c : State) (arrival : Arrival) (payloads : List (List Byte))
    (rest : List Byte) (n : ℕ) (hopen : c.socketOpen = true)
    (hpayloads : ∀ payload ∈ payloads, Sent payload) (hrest : Incomplete rest)
    (hbuffer : c.recvBuf ++ arrival.bytes = frames payloads ++ rest)
    (hlen : (c.recvBuf ++ arrival.bytes).length < 2147483648)
    (hbad : ¬ Good (c.recvBuf ++ arrival.bytes)) :
    Spoilt (fun packet => packet = none) (onRead GenericServer.onRead n c arrival) := by
  by_cases hguard : maxRecvBuf ≤ ((c.recvBuf ++ arrival.bytes).length : ℤ)
  · apply spoilt_of_shutdown _ n c arrival hopen hlen ⟨_, [], true⟩ rfl
    rw [GenericServer.onRead, if_pos hguard]
  · intro last dispatched hread
    have hquiet : ¬ Quiet rest := by
      intro hquiet
      rw [← leftover_frames_append payloads rest (fun p hp => (hpayloads p hp).2) hrest,
        ← hbuffer] at hquiet
      exact hbad ⟨by omega, hquiet⟩
    rw [onRead_eq _ n c arrival hopen hlen, GenericServer.onRead, if_neg hguard, hbuffer] at hread
    obtain ⟨outcome, hcb, hafter⟩ := Option.map_eq_some_iff.mp hread
    obtain ⟨s, hrun, rfl⟩ := Option.map_eq_some_iff.mp hcb
    have hnone := scan_premature _ payloads rest (fun p hp => (hpayloads p hp).1) hrest
      (holds_blockMemory arrival.around _) (by rw [← hbuffer]; omega) hquiet n s hrun
    rw [← (afterCallback_ok (c := c) hafter).2] at hnone
    exact Or.inr ⟨none, hnone, rfl⟩

/-- Reassembly by the gateway and the data server: for every list of payloads,
every strict prefix of one further frame and every cut that stays below the
receive limit, exactly the payloads are dispatched, each when all its bytes are
there, and the prefix is kept, provided no read ends with at most four bytes of
a frame missing while more than its header is there. -/
theorem packets_reassemble_iff (payloads : List (List Byte)) (payload rest more : List Byte)
    (hpayloads : ∀ payload ∈ payloads, Sent payload) (hfits : Fits payload)
    (hstart : frame payload = rest ++ more) (hmore : more ≠ []) (arrivals : List Arrival)
    (hcut : (pieces arrivals).flatten = frames payloads ++ rest)
    (hlimit : ∀ buffer ∈ buffers [] (pieces arrivals), (buffer.length : ℤ) < maxRecvBuf) :
    Reassembles GenericServer.onRead arrivals (payloads.map some) rest ↔
      ∀ buffer ∈ buffers [] (pieces arrivals), Quiet (leftover buffer) := by
  have hrest := incomplete_of_strict_prefix payload rest more hfits hstart hmore
  have hshort : ∀ buffer ∈ buffers [] (pieces arrivals), buffer.length < 2147483648 := by
    intro buffer hmem
    have hbelow := hlimit buffer hmem
    unfold maxRecvBuf at hbelow
    omega
  have hiff := reassembles_iff scansFrames settled (fun _ h => h.2) (fun packet => packet = none)
    (fun _ h => Option.some_ne_none _ h) premature_spoilt payloads rest hpayloads hrest arrivals
    hcut hshort
  rw [hiff]
  constructor
  · intro h buffer hmem
    exact (h buffer hmem).2
  · intro h buffer hmem
    exact ⟨hlimit buffer hmem, h buffer hmem⟩

/-- A frame read in two pieces, and the first six bytes of a longer one. -/
theorem packets_reassemble_two_reads :
    Reassembles GenericServer.onRead
      [⟨[2, 0, 0], fun _ => 0⟩, ⟨[0, 9, 8, 7, 0, 0, 0, 1, 2], fun _ => 0⟩]
      [some [9, 8]] [7, 0, 0, 0, 1, 2] := by
  have hbuffers : buffers [] [[2, 0, 0], [0, 9, 8, 7, 0, 0, 0, 1, 2]] =
      [[2, 0, 0], [2, 0, 0, 0, 9, 8, 7, 0, 0, 0, 1, 2]] := by
    rw [buffers, List.nil_append, leftover_of_incomplete [2, 0, 0] (by decide)]
    rfl
  have hquiet : ∀ buffer ∈ [[2, 0, 0], [2, 0, 0, 0, 9, 8, 7, 0, 0, 0, 1, 2]],
      Quiet (leftover buffer) := by
    rw [List.forall_mem_cons, List.forall_mem_singleton,
      leftover_of_incomplete [2, 0, 0] (by decide),
      show ([2, 0, 0, 0, 9, 8, 7, 0, 0, 0, 1, 2] : List Byte) =
        frames [[9, 8]] ++ [7, 0, 0, 0, 1, 2] by decide,
      leftover_frames_append [[9, 8]] [7, 0, 0, 0, 1, 2] (by decide) (by decide)]
    decide
  apply (packets_reassemble_iff [[9, 8]] [1, 2, 3, 4, 5, 6, 7] [7, 0, 0, 0, 1, 2]
    [3, 4, 5, 6, 7] (by unfold Sent; decide) (by decide) (by decide) (by decide)
    [⟨[2, 0, 0], fun _ => 0⟩, ⟨[0, 9, 8, 7, 0, 0, 0, 1, 2], fun _ => 0⟩] (by decide) _).mpr
  · exact hbuffers ▸ hquiet
  · exact hbuffers ▸ (by decide)

/-- A payload of five bytes of which one has arrived is dispatched at once. -/
theorem packet_dispatched_early :
    frames [[1, 2, 3, 4, 5]] = ([5, 0, 0, 0, 1] ++ [2, 3, 4, 5] : List Byte) ∧
      ¬ Reassembles GenericServer.onRead
        [⟨[5, 0, 0, 0, 1], fun _ => 0⟩, ⟨[2, 3, 4, 5], fun _ => 0⟩]
        [some [1, 2, 3, 4, 5]] [] := by
  refine ⟨by decide, ?_⟩
  rintro ⟨n, hfeed⟩
  have hleft : leftover [5, 0, 0, 0, 1] = [5, 0, 0, 0, 1] :=
    leftover_of_incomplete _ (by decide)
  have hbad : ¬ Good [5, 0, 0, 0, 1] := by
    intro hgood
    have hquiet := hgood.2
    rw [hleft] at hquiet
    exact absurd hquiet (by decide)
  have hspoilt := premature_spoilt fresh ⟨[5, 0, 0, 0, 1], fun _ => 0⟩ [] [5, 0, 0, 0, 1] n rfl
    (fun _ h => absurd h List.not_mem_nil) (by decide) rfl (by decide) hbad
  rcases hspoilt.feed_cons _ _ _ hfeed with hclosed | ⟨d, hd, hnone⟩
  · cases hclosed
  · rw [List.mem_singleton.mp hd] at hnone
    cases hnone

end BlackCat.PacketReassembly
