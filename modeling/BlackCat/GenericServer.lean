import BlackCat.Loops
import BlackCat.TcpConnection

/-!
`GenericServer::OnRead`, the read callback of the gateway and the data server.
Its loop compares the bytes left with the payload length alone, and with the
header size as an unsigned number, so the scan can leave the buffer and can
stand still. Each kind of round is described here by one lemma.
-/
namespace BlackCat.GenericServer

open ByteMemory LengthFrames Loops ServerCommon TcpConnection

/-- The variables of the loop, and the ranges passed to `Dispatch` so far, each
an address and a length. -/
structure Scan where
  buf : ℤ
  len : ℤ
  totalLen : ℤ
  calls : List (ℤ × ℤ)
  deriving DecidableEq, Repr

/-- One round. The loop condition converts `len` to an unsigned size, as does
the sum that gives `cur_len`. -/
def scanRound (mem : Memory) (s : Scan) : Round Scan Scan :=
  if sizeofPacketHeader < uint32 s.len then
    let pLen := loadWord mem s.buf
    let curLen := int32 (uint32 pLen + sizeofPacketHeader)
    if s.len < pLen then .leave s
    else .again {
      buf := s.buf + curLen
      len := int32 (s.len - curLen)
      totalLen := int32 (s.totalLen + curLen)
      calls := s.calls ++ [(s.buf + sizeofPacketHeader, pLen)]
    }
  else .leave s

def scanStart (buf len : ℤ) : Scan := ⟨buf, len, 0, []⟩

/-- The bytes of a range, if all of them lie in the buffer. -/
def packet (mem : Memory) (buf len : ℤ) (call : ℤ × ℤ) : Option (List Byte) :=
  if 0 ≤ call.2 ∧ buf ≤ call.1 ∧ call.1 + call.2 ≤ buf + len then
    some (load mem call.1 call.2.toNat)
  else none

/-- What the callback reports once its loop has left. -/
def scanResult (mem : Memory) (buf len : ℤ) (s : Scan) : ReadResult (Option (List Byte)) :=
  ⟨s.totalLen, s.calls.map (packet mem buf len), false⟩

def onRead : FuncOnRead (Option (List Byte)) := fun rounds mem buf len =>
  if maxRecvBuf ≤ len then some (.ok ⟨len, [], true⟩)
  else (run (scanRound mem) rounds (scanStart buf len)).map fun s =>
    .ok (scanResult mem buf len s)

theorem onRead_of_run {mem : Memory} {n : ℕ} {buf len : ℤ} {s : Scan} (hlen : len < maxRecvBuf)
    (h : run (scanRound mem) n (scanStart buf len) = some s) :
    onRead n mem buf len = some (.ok (scanResult mem buf len s)) := by
  rw [onRead, if_neg (by omega), h]
  rfl

theorem scanRound_leave_short (mem : Memory) (s : Scan) (hlow : 0 ≤ s.len) (h : s.len ≤ 4) :
    scanRound mem s = .leave s := by
  rw [scanRound, if_neg]
  unfold sizeofPacketHeader uint32
  omega

theorem scanRound_leave_cut (mem : Memory) (s : Scan) (h : s.len < loadWord mem s.buf) :
    scanRound mem s = .leave s := by
  unfold scanRound
  by_cases hcond : sizeofPacketHeader < uint32 s.len
  · rw [if_pos hcond]
    exact if_pos h
  · rw [if_neg hcond]

theorem scanRound_calls (mem : Memory) (s : Scan) :
    scanRound mem s = .leave s ∨
      ∃ t, scanRound mem s = .again t ∧
        t.calls = s.calls ++ [(s.buf + sizeofPacketHeader, loadWord mem s.buf)] := by
  unfold scanRound
  by_cases hcond : sizeofPacketHeader < uint32 s.len
  · by_cases hcut : s.len < loadWord mem s.buf
    · left
      rw [if_pos hcond]
      exact if_pos hcut
    · right
      exact ⟨_, (if_pos hcond).trans (if_neg hcut), rfl⟩
  · left
    rw [if_neg hcond]

theorem mem_calls_of_run {mem : Memory} {n : ℕ} {s last : Scan} {call : ℤ × ℤ}
    (h : run (scanRound mem) n s = some last) (hcall : call ∈ s.calls) : call ∈ last.calls := by
  obtain ⟨t, hvisit, hleave⟩ := exists_last_round _ h
  have hmem : call ∈ t.calls := by
    apply hvisit.invariant (fun u => call ∈ u.calls) _ hcall
    intro a b ha hround
    rcases scanRound_calls mem a with hstop | ⟨u, hagain, hcalls⟩
    · rw [hstop] at hround
      cases hround
    · rw [hagain] at hround
      cases hround
      rw [hcalls]
      exact List.mem_append_left _ ha
  rcases scanRound_calls mem t with hstop | ⟨u, hagain, _⟩
  · rw [hstop] at hleave
    cases hleave
    exact hmem
  · rw [hagain] at hleave
    cases hleave

/-- A round that does not stop dispatches, also when fewer bytes are left than it takes, and
also when the bytes left have become negative. -/
theorem scanRound_again (mem : Memory) (s : Scan) (hlow : -4 ≤ s.len) (hhigh : s.len < 32768)
    (hlen : s.len < 0 ∨ 4 < s.len) (h : loadWord mem s.buf ≤ s.len) :
    scanRound mem s = .again {
      buf := s.buf + (loadWord mem s.buf + 4)
      len := int32 (s.len - (loadWord mem s.buf + 4))
      totalLen := int32 (s.totalLen + (loadWord mem s.buf + 4))
      calls := s.calls ++ [(s.buf + 4, loadWord mem s.buf)]
    } := by
  have hrange := word_range (load mem s.buf 4)
  have hcond : sizeofPacketHeader < uint32 s.len := by
    unfold sizeofPacketHeader uint32
    omega
  have hcur : int32 (uint32 (loadWord mem s.buf) + sizeofPacketHeader) =
      loadWord mem s.buf + 4 := by
    unfold loadWord at h ⊢
    unfold int32 uint32 sizeofPacketHeader
    omega
  rw [scanRound, if_pos hcond]
  simp only [hcur]
  rw [if_neg (by omega)]
  rfl

/-- The state after a round that dispatches a payload of the given length. -/
def Scan.step (s : Scan) (pLen : ℤ) : Scan where
  buf := s.buf + (pLen + 4)
  len := s.len - (pLen + 4)
  totalLen := s.totalLen + (pLen + 4)
  calls := s.calls ++ [(s.buf + 4, pLen)]

theorem scanRound_step (mem : Memory) (s : Scan) (hlow : -4 ≤ s.len)
    (hlen : s.len < 0 ∨ 4 < s.len) (htotal : 0 ≤ s.totalLen)
    (hbound : s.totalLen + s.len < 32768) (hword : -4 ≤ loadWord mem s.buf)
    (h : loadWord mem s.buf ≤ s.len) :
    scanRound mem s = .again (s.step (loadWord mem s.buf)) := by
  rw [scanRound_again mem s hlow (by omega) hlen h,
    int32_eq_self (s.len - (loadWord mem s.buf + 4)) (by omega) (by omega),
    int32_eq_self (s.totalLen + (loadWord mem s.buf + 4)) (by omega) (by omega)]
  rfl

/-- A rest at which the loop stops inside the buffer: no byte after the header,
or fewer bytes than the length field says. -/
def Quiet (rest : List Byte) : Prop := rest.length ≤ 4 ∨ (rest.length : ℤ) < word rest

instance (rest : List Byte) : Decidable (Quiet rest) := by
  unfold Quiet
  infer_instance

theorem scanRound_quiet (mem : Memory) (s : Scan) (rest : List Byte)
    (hmem : Holds mem s.buf rest) (hlen : s.len = rest.length) (h : Quiet rest) :
    scanRound mem s = .leave s := by
  rcases h with hshort | hcut
  · exact scanRound_leave_short mem s (by omega) (by omega)
  · by_cases hfour : 4 ≤ rest.length
    · apply scanRound_leave_cut mem s
      rw [loadWord_of_holds mem s.buf rest hmem hfour]
      omega
    · exact scanRound_leave_short mem s (by omega) (by omega)

theorem scanRound_frame (mem : Memory) (s : Scan) (payload rest : List Byte)
    (hmem : Holds mem s.buf (frame payload ++ rest))
    (hlen : s.len = (frame payload ++ rest).length) (hmore : 4 < s.len)
    (htotal : 0 ≤ s.totalLen) (hbound : s.totalLen + s.len < 32768) :
    scanRound mem s = .again (s.step payload.length) := by
  have hsize : (frame payload ++ rest).length = payload.length + 4 + rest.length := by
    rw [List.length_append, frame_length]
  have hword := loadWord_of_holds mem s.buf _ hmem (by omega)
  rw [word_frame_append payload rest (by unfold Fits; omega)] at hword
  rw [← hword]
  exact scanRound_step mem s (by omega) (Or.inr hmore) htotal hbound (by omega) (by omega)

end BlackCat.GenericServer
