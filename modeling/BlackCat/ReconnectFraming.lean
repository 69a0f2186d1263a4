import BlackCat.RpcReassembly

/-!
Framing across a reconnect. A read error closes the socket of a `TcpClient` and
`Connect` opens it again, while `recv_buf_` keeps the part of a frame the first
connection broke off in. The second stream is then scanned behind those bytes.
A read that returns has taken whole frames off the buffer and stopped at the
rest, so the second connection dispatches its own payloads only if the bytes
left over happen to continue in phase with its frames.
-/
namespace BlackCat.ReconnectFraming

open ByteMemory LengthFrames Loops ServerCommon Dispatcher TcpConnection FramingSafety
  RpcReassembly

/-- `TcpConnection::OnRead` with an error: `Shutdown` and `OnDisconnect`. -/
def readError (c : State) : State := { c with socketOpen := false }

/-- `TcpClient::Connect`, once the socket is connected. -/
def connect (c : State) : State := { c with socketOpen := true }

/-- The reads of a connection return, and these payloads are dispatched. -/
def Dispatches (c : State) (arrivals : List Arrival) (payloads : List (List Byte)) : Prop :=
  ∃ n last, feed RpcServiceProvider.onRead n c arrivals = some (.ok (last, payloads))

/-- A buffer that a signed length can measure and whose unfinished frame is
recognised as one. -/
def Handled (buffer : List Byte) : Prop :=
  buffer.length < 2147483648 ∧ Stops (leftover buffer)

/-- Behind the rest of another stream the frames read the same: the rest
continues with them as they continue themselves, up to an unfinished frame. -/
def InPhase (rest : List Byte) (payloads : List (List Byte)) : Prop :=
  ∃ tail, Incomplete tail ∧ rest ++ frames payloads = frames payloads ++ tail

theorem inPhase_nil (payloads : List (List Byte)) : InPhase [] payloads :=
  ⟨[], Or.inl (by decide), by rw [List.nil_append, List.append_nil]⟩

theorem eq_nil_of_inPhase (rest : List Byte)
    (h : ∀ payloads, (∀ payload ∈ payloads, Fits payload) → InPhase rest payloads) :
    rest = [] := by
  cases rest with
  | nil => rfl
  | cons byte rest =>
    obtain ⟨_, _, hzero⟩ := h [[]] (by decide)
    obtain ⟨_, _, hone⟩ := h [[0]] (by decide)
    rw [show frames [[]] = [0, 0, 0, 0] by decide] at hzero
    rw [show frames [[0]] = [1, 0, 0, 0, 0] by decide] at hone
    have hdiff : (0 : Byte) = 1 := (List.cons.inj hzero).1.symm.trans (List.cons.inj hone).1
    cases hdiff

theorem onRead_sound (c next : State) (arrival : Arrival) (n : ℕ)
    (dispatched : List (List Byte)) (hopen : c.socketOpen = true)
    (hheld : c.recvBuf.length < 2147483648)
    (hread : (arrival.bytes.length : ℤ) ≤ maxRecvBuf)
    (h : onRead RpcServiceProvider.onRead n c arrival = some (.ok (next, dispatched))) :
    Handled (c.recvBuf ++ arrival.bytes) ∧
      c.recvBuf ++ arrival.bytes = frames dispatched ++ leftover (c.recvBuf ++ arrival.bytes) ∧
      next = ⟨leftover (c.recvBuf ++ arrival.bytes), true⟩ := by
  have hsum : (c.recvBuf ++ arrival.bytes).length = c.recvBuf.length + arrival.bytes.length :=
    List.length_append
  unfold maxRecvBuf at hread
  by_cases hlen : (c.recvBuf ++ arrival.bytes).length < 2147483648
  · obtain ⟨hstop, hsplit, hnext⟩ := read_sound _ c next arrival n dispatched rfl hopen hlen h
    exact ⟨⟨hlen, hstop⟩, hsplit, hnext⟩
  · have hpos : int32 (c.recvBuf.length : ℤ) = c.recvBuf.length :=
      int32_eq_self _ (by omega) (by omega)
    have hneg : int32 ((c.recvBuf.length : ℤ) + arrival.bytes.length) < 0 := by
      unfold int32
      omega
    rw [onRead, if_pos hopen] at h
    simp only [hpos, hneg, if_true] at h
    cases h

theorem leftover_length_le (bytes : List Byte) : (leftover bytes).length ≤ bytes.length := by
  induction bytes using leftover.induct with
  | case1 bytes h ih =>
    rw [leftover, dif_pos h]
    exact ih.trans (by rw [List.length_drop]; omega)
  | case2 bytes h => rw [leftover, dif_neg h]

/-- Reads that return have turned the bytes held and received into the frames
dispatched and the rest kept. -/
theorem feed_sound (arrivals : List Arrival) (n : ℕ) (held : List Byte) (last : State)
    (dispatched : List (List Byte)) (hheld : Incomplete held)
    (hlen : held.length < 2147483648)
    (hreads : ∀ arrival ∈ arrivals, (arrival.bytes.length : ℤ) ≤ maxRecvBuf)
    (h : feed RpcServiceProvider.onRead n ⟨held, true⟩ arrivals =
      some (.ok (last, dispatched))) :
    (∀ buffer ∈ buffers held (pieces arrivals), Handled buffer) ∧
      held ++ (pieces arrivals).flatten = frames dispatched ++ last.recvBuf ∧
      last.socketOpen = true ∧ Incomplete last.recvBuf ∧ last.recvBuf.length < 2147483648 := by
  induction arrivals generalizing held dispatched with
  | nil =>
    cases h
    refine ⟨by simp [pieces, buffers], ?_, rfl, hheld, hlen⟩
    rw [pieces, List.map_nil, List.flatten_nil, List.append_nil, frames_nil, List.nil_append]
  | cons arrival arrivals ih =>
    obtain ⟨next, front, later, hread, hlater, rfl⟩ := exists_of_feed_cons h
    obtain ⟨hbuffer, hsplit, rfl⟩ := onRead_sound ⟨held, true⟩ next arrival n front rfl hlen
      (hreads arrival (List.mem_cons_self ..)) hread
    have hshort := leftover_length_le (held ++ arrival.bytes)
    obtain ⟨hothers, hstream, hopen, hkept⟩ := ih _ _ hbuffer.2.incomplete
      (Nat.lt_of_le_of_lt hshort hbuffer.1)
      (fun a ha => hreads a (List.mem_cons_of_mem _ ha)) hlater
    rw [show pieces (arrival :: arrivals) = arrival.bytes :: pieces arrivals from rfl]
    refine ⟨?_, ?_, hopen, hkept⟩
    · rw [buffers, List.forall_mem_cons]
      exact ⟨hbuffer, hothers⟩
    · simp only [] at hsplit
      rw [List.flatten_cons, ← List.append_assoc, hsplit, List.append_assoc, hstream,
        frames_append, List.append_assoc]

theorem recvBuf_of_feed (arrivals : List Arrival) (n : ℕ) (c : State)
    (dispatched payloads : List (List Byte)) (rest : List Byte)
    (hreads : ∀ arrival ∈ arrivals, (arrival.bytes.length : ℤ) ≤ maxRecvBuf)
    (hstream : (pieces arrivals).flatten = frames payloads ++ rest)
    (hfits : ∀ payload ∈ payloads, Fits payload) (hrest : Incomplete rest)
    (h : feed RpcServiceProvider.onRead n fresh arrivals = some (.ok (c, dispatched))) :
    c = ⟨rest, true⟩ ∧ rest.length < 2147483648 := by
  obtain ⟨hbuffers, _, hopen, _, hlen⟩ :=
    feed_sound arrivals n [] c dispatched (Or.inl (by decide)) (by decide) hreads h
  have hrun := feed_frames provider_scansFrames (fun _ h => h) payloads rest hfits hrest
    arrivals [] (Or.inl (by decide)) hstream (fun b hb => (hbuffers b hb).1)
    (fun b hb => (hbuffers b hb).2) (max n (payloads.length + 1)) (Nat.le_max_right ..)
  have hmore := feed_mono _ provider_settled (Nat.le_max_left n (payloads.length + 1)) arrivals
    fresh h
  cases hmore.symm.trans hrun
  exact ⟨rfl, hlen⟩

/-- The second connection of a client dispatches exactly the payloads sent on it
if and only if the part of a frame the first one broke off in is in phase with
them and every buffer of the second one is handled. -/
theorem dispatches_anew_iff (first second : List Arrival)
    (payloads anew : List (List Byte)) (payload rest more : List Byte)
    (hreads : ∀ arrival ∈ first ++ second, (arrival.bytes.length : ℤ) ≤ maxRecvBuf)
    (hfits : ∀ p ∈ payload :: payloads ++ anew, Fits p)
    (hbroken : frame payload = rest ++ more) (hmore : more ≠ [])
    (hfirst : (pieces first).flatten = frames payloads ++ rest)
    (hsecond : (pieces second).flatten = frames anew)
    (n : ℕ) (c : State) (dispatched : List (List Byte))
    (hrun : feed RpcServiceProvider.onRead n fresh first = some (.ok (c, dispatched))) :
    Dispatches (connect (readError c)) second anew ↔
      InPhase rest anew ∧ ∀ buffer ∈ buffers rest (pieces second), Handled buffer := by
  have hrest := incomplete_of_strict_prefix payload rest more (hfits payload (by simp))
    hbroken hmore
  obtain ⟨rfl, hlen⟩ := recvBuf_of_feed first n c dispatched payloads rest
    (fun a ha => hreads a (List.mem_append_left _ ha)) hfirst
    (fun p hp => hfits p (by simp [hp])) hrest hrun
  have hsecondReads : ∀ arrival ∈ second, (arrival.bytes.length : ℤ) ≤ maxRecvBuf :=
    fun a ha => hreads a (List.mem_append_right _ ha)
  constructor
  · rintro ⟨m, last, hfeed⟩
    obtain ⟨hbuffers, hstream, _, hkept, _⟩ :=
      feed_sound second m rest last anew hrest hlen hsecondReads hfeed
    rw [hsecond] at hstream
    exact ⟨⟨last.recvBuf, hkept, hstream⟩, hbuffers⟩
  · rintro ⟨⟨tail, htail, hstream⟩, hbuffers⟩
    have hfeed := feed_frames provider_scansFrames (fun _ h => h) anew tail
      (fun p hp => hfits p (by simp [hp])) htail second rest hrest (by rw [hsecond, hstream])
      (fun b hb => (hbuffers b hb).1) (fun b hb => (hbuffers b hb).2) (anew.length + 1)
      (Nat.lt_succ_self _)
    rw [List.map_id] at hfeed
    exact ⟨_, _, hfeed⟩

/-- The first connection ends with a whole frame; the second one's frame comes in
two reads. -/
theorem dispatches_anew_at_boundary :
    Dispatches (connect (readError ⟨[], true⟩))
      [⟨[1, 0], fun _ => 0⟩, ⟨[0, 0, 7], fun _ => 0⟩] [[7]] := by
  have hheader : leftover [1, 0] = [1, 0] := leftover_of_incomplete _ (by decide)
  have hwhole : leftover [1, 0, 0, 0, 7] = [] :=
    leftover_frames_append [[7]] [] (by decide) (by decide)
  refine (dispatches_anew_iff [⟨[1, 0, 0, 0, 9], fun _ => 0⟩] _ [[9]] [[7]] [] [] [0, 0, 0, 0]
    (by decide) (by decide) (by decide) (by decide) (by decide) (by decide) 2 ⟨[], true⟩ [[9]]
    (by rfl)).mpr ⟨inPhase_nil _, ?_⟩
  simp [pieces, buffers, hheader, hwhole, Handled, Stops]

/-- Two bytes of a header are left over from the first connection. The frame sent
on the second one is then taken for the start of a longer one. -/
theorem dispatches_nothing_after_cut_header :
    feed RpcServiceProvider.onRead 1 fresh [⟨[1, 0], fun _ => 0⟩] =
        some (.ok (⟨[1, 0], true⟩, [])) ∧
      ¬ Dispatches (connect (readError ⟨[1, 0], true⟩)) [⟨frame [7], fun _ => 0⟩] [[7]] := by
  have hsecond : feed RpcServiceProvider.onRead 1 (connect (readError ⟨[1, 0], true⟩))
      [⟨frame [7], fun _ => 0⟩] = some (.ok (⟨[1, 0, 1, 0, 0, 0, 7], true⟩, [])) := by rfl
  refine ⟨by rfl, ?_⟩
  rintro ⟨n, last, hfeed⟩
  have hone := feed_mono _ provider_settled (Nat.le_max_left 1 n) _ _ hsecond
  have hmany := feed_mono _ provider_settled (Nat.le_max_right 1 n) _ _ hfeed
  cases hone.symm.trans hmany

end BlackCat.ReconnectFraming
