import BlackCat.Loops
import BlackCat.LengthFrames
import BlackCat.ServerCommon
import Mathlib.Algebra.Order.Ring.Int

/-!
`PacketDispatcher`'s framing and the two read callbacks built on it. The loop
of `RpcServiceProvider::OnRead` and that of `RpcProxyServer::OnRead` have one
text, so they share one body here; the proxy adds its overflow guard. On whole
frames followed by a rest that its length test handles, the loop dispatches
the payloads in order and stops at the rest.
-/
namespace BlackCat.Dispatcher

open ByteMemory LengthFrames Loops ServerCommon

def haveCompleteMessage (mem : Memory) (buf len : ℤ) : Bool :=
  if len < kHeaderLen then false
  else
    let curLen := loadWord mem buf
    if len < int32 (curLen + kHeaderLen) then false else true

/-- `resize` is called with the length as an unsigned size, so it throws for a
negative one. The copy reads as many bytes as the length says. -/
def getMessage (mem : Memory) (buf : ℤ) : Except Failure (List Byte) :=
  let curLen := loadWord mem buf
  if curLen < 0 then .error .resizeThrows
  else .ok (load mem (buf + kHeaderLen) curLen.toNat)

/-- The variables of the loop, and the messages passed to `Dispatch` so far. -/
structure Scan where
  buf : ℤ
  len : ℤ
  totalLen : ℤ
  messages : List (List Byte)

def scanRound (mem : Memory) (s : Scan) : Round Scan (Except Failure Scan) :=
  if haveCompleteMessage mem s.buf s.len then
    match getMessage mem s.buf with
    | .error e => .leave (.error e)
    | .ok msg =>
      let curSize := int32 (int32 msg.length + kHeaderLen)
      .again {
        buf := s.buf + curSize
        len := int32 (s.len - curSize)
        totalLen := int32 (s.totalLen + curSize)
        messages := s.messages ++ [msg]
      }
  else .leave (.ok s)

def scanStart (buf len : ℤ) : Scan := ⟨buf, len, 0, []⟩

def scanResult (s : Scan) : ReadResult (List Byte) := ⟨s.totalLen, s.messages, false⟩

def RpcServiceProvider.onRead : FuncOnRead (List Byte) := fun rounds mem buf len =>
  (run (scanRound mem) rounds (scanStart buf len)).map (Except.map scanResult)

def RpcProxyServer.onRead : FuncOnRead (List Byte) := fun rounds mem buf len =>
  if maxRecvBuf ≤ len then some (.ok ⟨len, [], true⟩)
  else (run (scanRound mem) rounds (scanStart buf len)).map (Except.map scanResult)

/-- A rest at which the loop stops: no header yet, or one whose frame is not
there and whose length does not overflow when the header size is added. -/
def Stops (rest : List Byte) : Prop :=
  rest.length < 4 ∨
    ((rest.length : ℤ) < word rest + 4 ∧ word rest + 4 < 2147483648)

theorem Stops.incomplete {rest : List Byte} (h : Stops rest) : Incomplete rest := by
  unfold Stops at h
  unfold Incomplete
  omega

theorem Stops.lt_int32 {rest : List Byte} (h : Stops rest) (hfour : 4 ≤ rest.length) :
    (rest.length : ℤ) < int32 (word rest + 4) := by
  have hrange := word_range rest
  unfold Stops at h
  have hsum : int32 (word rest + 4) = word rest + 4 := int32_eq_self _ (by omega) (by omega)
  omega

theorem haveCompleteMessage_iff (mem : Memory) (buf len : ℤ) :
    haveCompleteMessage mem buf len = true ↔
      4 ≤ len ∧ int32 (loadWord mem buf + 4) ≤ len := by
  unfold haveCompleteMessage kHeaderLen
  by_cases hshort : len < 4
  · simp only [hshort, if_true, Bool.false_eq_true, false_iff]
    omega
  · by_cases hcut : len < int32 (loadWord mem buf + 4)
    · simp only [hshort, hcut, if_true, if_false, Bool.false_eq_true, false_iff]
      omega
    · simp only [hshort, hcut, if_false, true_iff]
      omega

theorem haveCompleteMessage_frame (mem : Memory) (buf : ℤ) (payload rest : List Byte)
    (hmem : Holds mem buf (frame payload ++ rest))
    (hlen : (frame payload ++ rest).length < 2147483648) :
    haveCompleteMessage mem buf (frame payload ++ rest).length = true := by
  have hsize : (frame payload ++ rest).length = payload.length + 4 + rest.length := by
    rw [List.length_append, frame_length]
  have hword := loadWord_of_holds mem buf _ hmem (by omega)
  rw [word_frame_append payload rest (by unfold Fits; omega)] at hword
  have hsum : int32 ((payload.length : ℤ) + 4) = payload.length + 4 :=
    int32_eq_self _ (by omega) (by omega)
  rw [haveCompleteMessage_iff, hword, hsum, hsize]
  omega

theorem getMessage_frame (mem : Memory) (buf : ℤ) (payload rest : List Byte)
    (hfits : Fits payload) (hmem : Holds mem buf (frame payload ++ rest)) :
    getMessage mem buf = .ok payload := by
  have hword := loadWord_of_holds mem buf _ hmem
    (by rw [List.length_append, frame_length]; omega)
  rw [word_frame_append payload rest hfits] at hword
  rw [frame, List.append_assoc, holds_append, holds_append, wordBytes_length] at hmem
  have hload : load mem (buf + 4) payload.length = payload := hmem.2.1
  simp only [getMessage, hword, kHeaderLen, Int.toNat_natCast]
  rw [if_neg (by omega), hload]

theorem scanRound_frame (mem : Memory) (s : Scan) (payload rest : List Byte)
    (hmem : Holds mem s.buf (frame payload ++ rest))
    (hlen : s.len = (frame payload ++ rest).length)
    (htotal : 0 ≤ s.totalLen) (hbound : s.totalLen + s.len < 2147483648) :
    scanRound mem s = .again {
      buf := s.buf + (frame payload).length
      len := rest.length
      totalLen := s.totalLen + (frame payload).length
      messages := s.messages ++ [payload]
    } := by
  have hsize : (frame payload ++ rest).length = payload.length + 4 + rest.length := by
    rw [List.length_append, frame_length]
  have hhave := haveCompleteMessage_frame mem s.buf payload rest hmem (by omega)
  have hget := getMessage_frame mem s.buf payload rest (by unfold Fits; omega) hmem
  have hpay : int32 (payload.length : ℤ) = payload.length :=
    int32_eq_self _ (by omega) (by omega)
  have hcur : int32 ((payload.length : ℤ) + 4) = payload.length + 4 :=
    int32_eq_self _ (by omega) (by omega)
  have hleft : int32 (s.len - (payload.length + 4)) = rest.length := by
    rw [int32_eq_self _ (by omega) (by omega)]
    omega
  have hsum : int32 (s.totalLen + (payload.length + 4)) =
      s.totalLen + (payload.length + 4) := int32_eq_self _ (by omega) (by omega)
  simp only [scanRound, hlen, hhave, hget, kHeaderLen, hpay, hcur, if_true, frame_length,
    Nat.cast_add, Nat.cast_ofNat, hsum]
  rw [← hlen, hleft]

theorem scanRound_stops (mem : Memory) (s : Scan) (rest : List Byte)
    (hmem : Holds mem s.buf rest) (hlen : s.len = rest.length) (h : Stops rest) :
    scanRound mem s = .leave (.ok s) := by
  have hhave : ¬ haveCompleteMessage mem s.buf s.len = true := by
    rw [haveCompleteMessage_iff]
    rintro ⟨hfour, hcomplete⟩
    have hword := loadWord_of_holds mem s.buf rest hmem (by omega)
    rw [hword, hlen] at hcomplete
    exact absurd (h.lt_int32 (by omega)) (by omega)
  rw [scanRound, if_neg hhave]

/-- The loop variables once the given payloads have been dispatched. -/
def Scan.after (s : Scan) (payloads : List (List Byte)) (rest : List Byte) : Scan where
  buf := s.buf + (frames payloads).length
  len := rest.length
  totalLen := s.totalLen + (frames payloads).length
  messages := s.messages ++ payloads

theorem run_frames (mem : Memory) (payloads : List (List Byte)) (rest : List Byte) (s : Scan)
    (hmem : Holds mem s.buf (frames payloads ++ rest))
    (hlen : s.len = (frames payloads ++ rest).length)
    (htotal : 0 ≤ s.totalLen) (hbound : s.totalLen + s.len < 2147483648) (n : ℕ) :
    run (scanRound mem) (payloads.length + n) s =
      run (scanRound mem) n (s.after payloads rest) := by
  induction payloads generalizing s with
  | nil =>
    rw [frames_nil, List.nil_append] at hlen
    simp [Scan.after, frames_nil, ← hlen]
  | cons payload payloads ih =>
    rw [frames_cons, List.append_assoc] at hmem hlen
    have hsize : (frame payload ++ (frames payloads ++ rest)).length =
        (frame payload).length + (frames payloads ++ rest).length := List.length_append
    have hcount : (payload :: payloads).length + n = payloads.length + n + 1 := by
      rw [List.length_cons]
      omega
    rw [hcount, run_again _ (scanRound_frame mem s payload _ hmem hlen htotal hbound)]
    rw [ih _ ((holds_append mem _ _ _).mp hmem).2 rfl (by simp only []; omega)
      (by simp only []; omega)]
    simp [Scan.after, frames_cons, add_assoc]

/-- Both callbacks run the loop on the buffer they are given; on frames and a
rest it returns the number of bytes of the frames. -/
theorem scan_blockMemory (around : Memory) (payloads : List (List Byte)) (rest : List Byte)
    (hstop : Stops rest) (hsize : (frames payloads ++ rest).length < 2147483648)
    (n : ℕ) (hn : payloads.length < n) :
    (run (scanRound (blockMemory around (frames payloads ++ rest))) n
        (scanStart 0 (frames payloads ++ rest).length)).map (Except.map scanResult) =
      some (.ok ⟨(frames payloads).length, payloads, false⟩) := by
  have hrun := run_frames _ payloads rest (scanStart 0 (frames payloads ++ rest).length)
    (holds_blockMemory around _) rfl (Int.le_refl 0) (by simp only [scanStart]; omega)
    (n - payloads.length - 1 + 1)
  have hrounds : payloads.length + (n - payloads.length - 1 + 1) = n := by omega
  have htail := ((holds_append _ 0 _ _).mp (holds_blockMemory around (frames payloads ++ rest))).2
  rw [hrounds] at hrun
  rw [hrun, run_leave _ (scanRound_stops _ _ rest htail rfl hstop)]
  simp only [Option.map_some, Except.map, scanResult, scanStart, Scan.after, Int.zero_add,
    List.nil_append]

theorem RpcServiceProvider.onRead_frames (around : Memory) (payloads : List (List Byte))
    (rest : List Byte) (hstop : Stops rest)
    (hsize : (frames payloads ++ rest).length < 2147483648) (n : ℕ) (hn : payloads.length < n) :
    RpcServiceProvider.onRead n (blockMemory around (frames payloads ++ rest)) 0
        (frames payloads ++ rest).length =
      some (.ok ⟨(frames payloads).length, payloads, false⟩) :=
  scan_blockMemory around payloads rest hstop hsize n hn

theorem RpcProxyServer.onRead_frames (around : Memory) (payloads : List (List Byte))
    (rest : List Byte) (hstop : Stops rest)
    (hsize : ((frames payloads ++ rest).length : ℤ) < maxRecvBuf) (n : ℕ)
    (hn : payloads.length < n) :
    RpcProxyServer.onRead n (blockMemory around (frames payloads ++ rest)) 0
        (frames payloads ++ rest).length =
      some (.ok ⟨(frames payloads).length, payloads, false⟩) := by
  have hint : (frames payloads ++ rest).length < 2147483648 := by
    unfold maxRecvBuf at hsize
    omega
  rw [RpcProxyServer.onRead, if_neg (by omega)]
  exact scan_blockMemory around payloads rest hstop hint n hn

end BlackCat.Dispatcher
