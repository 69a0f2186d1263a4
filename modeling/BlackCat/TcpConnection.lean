import BlackCat.LengthFrames
import BlackCat.ServerCommon
import Mathlib.Algebra.Order.Ring.Int

/-!
The read side of `TcpConnection`. Bytes that arrive are appended to
`recv_buf_`, the callback is shown the whole buffer, and as many bytes as it
returns are erased from the front. For a callback that handles every buffer
it meets in a run as a frame scanner should, the payloads dispatched do not
depend on how the stream was cut; one buffer it mishandles spoils the run.
-/
namespace BlackCat.TcpConnection

open ByteMemory LengthFrames ServerCommon

/-- What the read handler uses of a `TcpConnection`: `recv_buf_`, and whether
`socket_` is open. -/
structure State where
  recvBuf : List Byte
  socketOpen : Bool
  deriving DecidableEq, Repr

/-- A connection before its first read. -/
def fresh : State := ⟨[], true⟩

/-- A successful read: the bytes received, and what surrounds `recv_buf_` in
memory while the callback runs. -/
structure Arrival where
  bytes : List Byte
  around : Memory

variable {δ : Type}

/-- `recv_buf_.erase(begin, begin + proc_len)`, skipped for zero. -/
def eraseFront (recvBuf : List Byte) (procLen : ℤ) : Except Failure (List Byte) :=
  if procLen = 0 then .ok recvBuf
  else if 0 ≤ procLen ∧ procLen ≤ recvBuf.length then .ok (recvBuf.drop procLen.toNat)
  else .error .eraseOutOfRange

def afterCallback (c : State) (recvBuf : List Byte) (result : ReadResult δ) :
    Except Failure (State × List δ) :=
  (eraseFront recvBuf result.procLen).map fun rest =>
    ({ c with recvBuf := rest, socketOpen := !result.shutdown }, result.dispatched)

theorem afterCallback_ok {c last : State} {recvBuf : List Byte} {result : ReadResult δ}
    {dispatched : List δ} (h : afterCallback c recvBuf result = .ok (last, dispatched)) :
    last.socketOpen = !result.shutdown ∧ dispatched = result.dispatched := by
  unfold afterCallback at h
  cases herase : eraseFront recvBuf result.procLen with
  | error e =>
    rw [herase] at h
    cases h
  | ok kept =>
    rw [herase] at h
    cases h
    exact ⟨rfl, rfl⟩

/-- `TcpConnection::OnRead`. On a socket that was shut down the read completes
with an error, and the handler returns before the callback. -/
def onRead (cb : FuncOnRead δ) (rounds : ℕ) (c : State) (arrival : Arrival) :
    Option (Except Failure (State × List δ)) :=
  if c.socketOpen then
    let curPos := int32 c.recvBuf.length
    if int32 (curPos + arrival.bytes.length) < 0 then some (.error .resizeThrows)
    else
      let recvBuf := c.recvBuf ++ arrival.bytes
      (cb rounds (blockMemory arrival.around recvBuf) 0 (int32 recvBuf.length)).map
        fun outcome => outcome.bind (afterCallback c recvBuf)
  else some (.ok (c, []))

/-- Successive reads, with the packets dispatched by all of them in order. -/
def feed (cb : FuncOnRead δ) (rounds : ℕ) :
    State → List Arrival → Option (Except Failure (State × List δ))
  | c, [] => some (.ok (c, []))
  | c, arrival :: arrivals =>
    match onRead cb rounds c arrival with
    | none => none
    | some (.error e) => some (.error e)
    | some (.ok (next, first)) =>
      (feed cb rounds next arrivals).map
        (Except.map fun done => (done.1, first ++ done.2))

def pieces (arrivals : List Arrival) : List (List Byte) := arrivals.map Arrival.bytes

/-- A callback whose answer does not change when it is given more rounds. -/
def Settled (cb : FuncOnRead δ) : Prop :=
  ∀ n m mem buf len outcome, n ≤ m → cb n mem buf len = some outcome →
    cb m mem buf len = some outcome

theorem onRead_mono (cb : FuncOnRead δ) (hcb : Settled cb) {n m : ℕ} (hnm : n ≤ m)
    (c : State) (arrival : Arrival)
    {outcome : Except Failure (State × List δ)}
    (h : onRead cb n c arrival = some outcome) : onRead cb m c arrival = some outcome := by
  unfold onRead at h ⊢
  by_cases hopen : c.socketOpen = true
  · rw [if_pos hopen] at h ⊢
    simp only [] at h ⊢
    split at h
    · rename_i hneg
      rw [if_pos hneg]
      exact h
    · rename_i hneg
      rw [if_neg hneg]
      obtain ⟨result, hresult, hmap⟩ := Option.map_eq_some_iff.mp h
      rw [hcb n m _ _ _ result hnm hresult, Option.map_some, hmap]
  · rw [if_neg hopen] at h ⊢
    exact h

theorem feed_mono (cb : FuncOnRead δ) (hcb : Settled cb) {n m : ℕ} (hnm : n ≤ m)
    (arrivals : List Arrival) (c : State)
    {outcome : Except Failure (State × List δ)}
    (h : feed cb n c arrivals = some outcome) : feed cb m c arrivals = some outcome := by
  induction arrivals generalizing c outcome with
  | nil => exact h
  | cons arrival arrivals ih =>
    unfold feed at h ⊢
    cases hread : onRead cb n c arrival with
    | none => simp [hread] at h
    | some result =>
      rw [hread] at h
      rw [onRead_mono cb hcb hnm c arrival hread]
      cases result with
      | error e => exact h
      | ok done =>
        obtain ⟨rest, hrest, hmap⟩ := Option.map_eq_some_iff.mp h
        simp only [ih done.1 hrest, Option.map_some, hmap]

theorem onRead_eq (cb : FuncOnRead δ) (rounds : ℕ) (c : State) (arrival : Arrival)
    (hopen : c.socketOpen = true) (hlen : (c.recvBuf ++ arrival.bytes).length < 2147483648) :
    onRead cb rounds c arrival =
      (cb rounds (blockMemory arrival.around (c.recvBuf ++ arrival.bytes)) 0
        (c.recvBuf ++ arrival.bytes).length).map
          fun outcome => outcome.bind (afterCallback c (c.recvBuf ++ arrival.bytes)) := by
  have happend : (c.recvBuf ++ arrival.bytes).length =
      c.recvBuf.length + arrival.bytes.length := List.length_append
  have hpos : int32 (c.recvBuf.length : ℤ) = c.recvBuf.length :=
    int32_eq_self _ (by omega) (by omega)
  have hsum : int32 ((c.recvBuf.length : ℤ) + arrival.bytes.length) =
      c.recvBuf.length + arrival.bytes.length := int32_eq_self _ (by omega) (by omega)
  have hwhole : int32 ((c.recvBuf ++ arrival.bytes).length : ℤ) =
      (c.recvBuf ++ arrival.bytes).length := int32_eq_self _ (by omega) (by omega)
  rw [onRead, if_pos hopen]
  simp only [hpos, hsum, hwhole]
  rw [if_neg (by omega)]

theorem eraseFront_frames (payloads : List (List Byte)) (rest : List Byte) :
    eraseFront (frames payloads ++ rest) (frames payloads).length = .ok rest := by
  unfold eraseFront
  by_cases hzero : ((frames payloads).length : ℤ) = 0
  · rw [if_pos hzero]
    have hnil : frames payloads = [] := List.length_eq_zero_iff.mp (by omega)
    rw [hnil, List.nil_append]
  · rw [if_neg hzero, if_pos, Int.toNat_natCast, List.drop_left]
    rw [List.length_append]
    omega

theorem feed_cons_ok (cb : FuncOnRead δ) (rounds : ℕ) (c next : State)
    (arrival : Arrival) (arrivals : List Arrival) (first : List δ)
    (h : onRead cb rounds c arrival = some (.ok (next, first))) :
    feed cb rounds c (arrival :: arrivals) =
      (feed cb rounds next arrivals).map
        (Except.map fun done => (done.1, first ++ done.2)) := by
  rw [feed, h]

theorem exists_of_feed_cons {cb : FuncOnRead δ} {rounds : ℕ} {c last : State}
    {arrival : Arrival} {arrivals : List Arrival} {dispatched : List δ}
    (h : feed cb rounds c (arrival :: arrivals) = some (.ok (last, dispatched))) :
    ∃ next first later, onRead cb rounds c arrival = some (.ok (next, first)) ∧
      feed cb rounds next arrivals = some (.ok (last, later)) ∧
      dispatched = first ++ later := by
  cases hread : onRead cb rounds c arrival with
  | none =>
    rw [feed, hread] at h
    cases h
  | some outcome =>
    cases outcome with
    | error e =>
      rw [feed, hread] at h
      cases h
    | ok done =>
      rw [feed_cons_ok cb rounds c done.1 arrival arrivals done.2 hread] at h
      obtain ⟨rest, hrest, hmap⟩ := Option.map_eq_some_iff.mp h
      cases rest with
      | error e => cases hmap
      | ok rest =>
        cases hmap
        exact ⟨done.1, done.2, rest.2, rfl, hrest, rfl⟩

section Scanners

variable (cb : FuncOnRead δ) (emit : List Byte → δ)
variable (Payload Good : List Byte → Prop)

/-- On frames followed by an incomplete rest the callback dispatches the frames'
payloads and leaves the rest, provided the whole buffer is a good one. -/
def ScansFrames : Prop :=
  ∀ around payloads rest n, (∀ payload ∈ payloads, Payload payload) → Incomplete rest →
    (frames payloads ++ rest).length < 2147483648 → Good (frames payloads ++ rest) →
    payloads.length < n →
    cb n (blockMemory around (frames payloads ++ rest)) 0 (frames payloads ++ rest).length =
      some (.ok ⟨(frames payloads).length, payloads.map emit, false⟩)

variable {cb emit Payload Good}

theorem onRead_frames (hcb : ScansFrames cb emit Payload Good) (c : State)
    (hopen : c.socketOpen = true) (arrival : Arrival) (payloads : List (List Byte))
    (rest : List Byte) (hpayloads : ∀ payload ∈ payloads, Payload payload)
    (hrest : Incomplete rest) (hbuffer : c.recvBuf ++ arrival.bytes = frames payloads ++ rest)
    (hlen : (c.recvBuf ++ arrival.bytes).length < 2147483648)
    (hgood : Good (c.recvBuf ++ arrival.bytes)) (n : ℕ) (hn : payloads.length < n) :
    onRead cb n c arrival = some (.ok (⟨rest, true⟩, payloads.map emit)) := by
  rw [onRead_eq cb n c arrival hopen hlen, hbuffer]
  rw [hbuffer] at hlen hgood
  rw [hcb arrival.around payloads rest n hpayloads hrest hlen hgood hn]
  simp only [Option.map_some, Except.bind, afterCallback, eraseFront_frames, Except.map,
    Bool.not_false]

/-- Where a read cuts the stream: it completes the first frames, and its
unfinished one is continued by the reads that follow. -/
theorem exists_split_read (hfits : ∀ payload, Payload payload → Fits payload)
    (payloads : List (List Byte)) (rest : List Byte)
    (hpayloads : ∀ payload ∈ payloads, Payload payload) (hrest : Incomplete rest)
    (arrival : Arrival) (arrivals : List Arrival) (held : List Byte)
    (hstream : held ++ (pieces (arrival :: arrivals)).flatten = frames payloads ++ rest) :
    ∃ before after tail, payloads = before ++ after ∧
      (∀ payload ∈ before, Payload payload) ∧ (∀ payload ∈ after, Payload payload) ∧
      Incomplete tail ∧ held ++ arrival.bytes = frames before ++ tail ∧
      tail ++ (pieces arrivals).flatten = frames after ++ rest ∧
      leftover (held ++ arrival.bytes) = tail ∧
      buffers held (pieces (arrival :: arrivals)) =
        (held ++ arrival.bytes) :: buffers tail (pieces arrivals) := by
  have hcons : pieces (arrival :: arrivals) = arrival.bytes :: pieces arrivals := rfl
  rw [hcons, List.flatten_cons, ← List.append_assoc] at hstream
  obtain ⟨before, after, tail, rfl, hfront, hback, htail⟩ :=
    exists_split_prefix payloads rest (held ++ arrival.bytes) (pieces arrivals).flatten
      (fun p hp => hfits p (hpayloads p hp)) hrest hstream
  rw [List.forall_mem_append] at hpayloads
  have hleft : leftover (held ++ arrival.bytes) = tail := by
    rw [hfront]
    exact leftover_frames_append before tail (fun p hp => hfits p (hpayloads.1 p hp)) htail
  refine ⟨before, after, tail, rfl, hpayloads.1, hpayloads.2, htail, hfront, hback, hleft, ?_⟩
  rw [hcons, buffers, hleft]

theorem feed_frames (hcb : ScansFrames cb emit Payload Good)
    (hfits : ∀ payload, Payload payload → Fits payload)
    (payloads : List (List Byte)) (rest : List Byte)
    (hpayloads : ∀ payload ∈ payloads, Payload payload) (hrest : Incomplete rest)
    (arrivals : List Arrival) (held : List Byte) (hheld : Incomplete held)
    (hstream : held ++ (pieces arrivals).flatten = frames payloads ++ rest)
    (hshort : ∀ buffer ∈ buffers held (pieces arrivals), buffer.length < 2147483648)
    (hgood : ∀ buffer ∈ buffers held (pieces arrivals), Good buffer)
    (n : ℕ) (hn : payloads.length < n) :
    feed cb n ⟨held, true⟩ arrivals = some (.ok (⟨rest, true⟩, payloads.map emit)) := by
  induction arrivals generalizing held payloads with
  | nil =>
    rw [pieces, List.map_nil, List.flatten_nil, List.append_nil] at hstream
    rw [hstream] at hheld
    have hnil := eq_rest_of_incomplete payloads rest
      (fun p hp => hfits p (hpayloads p hp)) hheld
    subst payloads
    rw [hstream]
    rfl
  | cons arrival arrivals ih =>
    obtain ⟨before, after, tail, rfl, hbefore, hafter, htail, hfront, hback, _, hbuffers⟩ :=
      exists_split_read hfits payloads rest hpayloads hrest arrival arrivals held hstream
    rw [List.length_append] at hn
    rw [hbuffers, List.forall_mem_cons] at hshort hgood
    have hread := onRead_frames hcb ⟨held, true⟩ rfl arrival before tail hbefore htail hfront
      hshort.1 hgood.1 n (by omega)
    rw [feed_cons_ok cb n _ _ arrival arrivals _ hread]
    rw [ih after hafter tail htail hback hshort.2 hgood.2 (by omega)]
    simp only [Option.map_some, Except.map, List.map_append]

/-- The run failed, never returned, shut the socket down or dispatched a bad packet. -/
def Spoilt (bad : δ → Prop)
    (outcome : Option (Except Failure (State × List δ))) : Prop :=
  ∀ c dispatched, outcome = some (.ok (c, dispatched)) →
    c.socketOpen = false ∨ ∃ d ∈ dispatched, bad d

theorem spoilt_of_shutdown (bad : δ → Prop) (n : ℕ) (c : State) (arrival : Arrival)
    (hopen : c.socketOpen = true) (hlen : (c.recvBuf ++ arrival.bytes).length < 2147483648)
    (result : ReadResult δ) (hshutdown : result.shutdown = true)
    (h : cb n (blockMemory arrival.around (c.recvBuf ++ arrival.bytes)) 0
      (c.recvBuf ++ arrival.bytes).length = some (.ok result)) :
    Spoilt bad (onRead cb n c arrival) := by
  intro last dispatched hread
  rw [onRead_eq cb n c arrival hopen hlen, h] at hread
  have hdone := afterCallback_ok (c := c) (Option.some.inj hread)
  rw [hshutdown] at hdone
  exact Or.inl hdone.1

theorem feed_closed (n : ℕ) (c : State) (hclosed : c.socketOpen = false)
    (arrivals : List Arrival) : feed cb n c arrivals = some (.ok (c, [])) := by
  induction arrivals with
  | nil => rfl
  | cons arrival arrivals ih =>
    have hread : onRead cb n c arrival = some (.ok (c, [])) := by
      rw [onRead, if_neg (by rw [hclosed]; exact Bool.false_ne_true)]
    rw [feed_cons_ok cb n c c arrival arrivals [] hread, ih]
    rfl

theorem Spoilt.feed_cons {bad : δ → Prop} {n : ℕ} {c : State} {arrival : Arrival}
    (h : Spoilt bad (onRead cb n c arrival)) (arrivals : List Arrival) :
    Spoilt bad (feed cb n c (arrival :: arrivals)) := by
  intro last dispatched hfeed
  obtain ⟨next, first, later, hread, hlater, rfl⟩ := exists_of_feed_cons hfeed
  rcases h next first hread with hclosed | ⟨d, hd, hbad⟩
  · rw [feed_closed n next hclosed] at hlater
    cases hlater
    exact Or.inl hclosed
  · exact Or.inr ⟨d, List.mem_append_left _ hd, hbad⟩

theorem Spoilt.feed_tail {bad : δ → Prop} {n : ℕ} {c next : State}
    {arrival : Arrival} {arrivals : List Arrival} {first : List δ}
    (hread : onRead cb n c arrival = some (.ok (next, first)))
    (h : Spoilt bad (feed cb n next arrivals)) :
    Spoilt bad (feed cb n c (arrival :: arrivals)) := by
  intro last dispatched hfeed
  obtain ⟨_, _, later, hagain, hlater, rfl⟩ := exists_of_feed_cons hfeed
  cases hread.symm.trans hagain
  rcases h last later hlater with hclosed | ⟨d, hd, hbad⟩
  · exact Or.inl hclosed
  · exact Or.inr ⟨d, List.mem_append_right _ hd, hbad⟩

/-- The callback spoils every read of frames and an incomplete rest that do not make a
good buffer. -/
def Mishandles (cb : FuncOnRead δ) (Payload Good : List Byte → Prop) (bad : δ → Prop) : Prop :=
  ∀ (c : State) (arrival : Arrival) (payloads : List (List Byte)) (rest : List Byte) (n : ℕ),
    c.socketOpen = true → (∀ payload ∈ payloads, Payload payload) → Incomplete rest →
    c.recvBuf ++ arrival.bytes = frames payloads ++ rest →
    (c.recvBuf ++ arrival.bytes).length < 2147483648 →
    ¬ Good (c.recvBuf ++ arrival.bytes) → Spoilt bad (onRead cb n c arrival)

/-- If the callback mishandles every buffer that is not good, one such buffer
among those of a run spoils it. -/
theorem feed_spoilt (hcb : ScansFrames cb emit Payload Good)
    (hfits : ∀ payload, Payload payload → Fits payload) (bad : δ → Prop)
    (hbad : Mishandles cb Payload Good bad)
    (payloads : List (List Byte)) (rest : List Byte)
    (hpayloads : ∀ payload ∈ payloads, Payload payload) (hrest : Incomplete rest)
    (arrivals : List Arrival) (held : List Byte)
    (hstream : held ++ (pieces arrivals).flatten = frames payloads ++ rest)
    (hshort : ∀ buffer ∈ buffers held (pieces arrivals), buffer.length < 2147483648)
    (h : ¬ ∀ buffer ∈ buffers held (pieces arrivals), Good buffer)
    (n : ℕ) (hn : payloads.length < n) : Spoilt bad (feed cb n ⟨held, true⟩ arrivals) := by
  induction arrivals generalizing held payloads with
  | nil => exact absurd (fun _ hb => absurd hb (by simp [pieces, buffers])) h
  | cons arrival arrivals ih =>
    obtain ⟨before, after, tail, rfl, hbefore, hafter, htail, hfront, hback, _, hbuffers⟩ :=
      exists_split_read hfits payloads rest hpayloads hrest arrival arrivals held hstream
    rw [List.length_append] at hn
    rw [hbuffers, List.forall_mem_cons] at hshort h
    by_cases hgood : Good (held ++ arrival.bytes)
    · have hread := onRead_frames hcb ⟨held, true⟩ rfl arrival before tail hbefore htail
        hfront hshort.1 hgood n (by omega)
      apply Spoilt.feed_tail hread
      apply ih after hafter tail hback hshort.2 _ (by omega)
      intro hall
      exact h ⟨hgood, hall⟩
    · exact (hbad ⟨held, true⟩ arrival before tail n rfl hbefore htail hfront
        hshort.1 hgood).feed_cons arrivals

/-- A fresh connection is left open with the given rest in `recv_buf_`, after
the given packets were dispatched in this order. -/
def Reassembles (cb : FuncOnRead δ) (arrivals : List Arrival) (packets : List δ)
    (rest : List Byte) : Prop :=
  ∃ n, feed cb n fresh arrivals = some (.ok (⟨rest, true⟩, packets))

/-- A stream is reassembled exactly when every buffer of the run is good, for a
callback that scans the good ones and mishandles the others. -/
theorem reassembles_iff (hcb : ScansFrames cb emit Payload Good) (hsettled : Settled cb)
    (hfits : ∀ payload, Payload payload → Fits payload) (bad : δ → Prop)
    (hemit : ∀ payload, ¬ bad (emit payload))
    (hbad : Mishandles cb Payload Good bad)
    (payloads : List (List Byte)) (rest : List Byte)
    (hpayloads : ∀ payload ∈ payloads, Payload payload) (hrest : Incomplete rest)
    (arrivals : List Arrival) (hstream : (pieces arrivals).flatten = frames payloads ++ rest)
    (hshort : ∀ buffer ∈ buffers [] (pieces arrivals), buffer.length < 2147483648) :
    Reassembles cb arrivals (payloads.map emit) rest ↔
      ∀ buffer ∈ buffers [] (pieces arrivals), Good buffer := by
  constructor
  · rintro ⟨n, hfeed⟩
    by_contra hnot
    have hmore := feed_mono cb hsettled (Nat.le_max_left n (payloads.length + 1)) arrivals
      fresh hfeed
    have hspoilt := feed_spoilt hcb hfits bad hbad payloads rest hpayloads hrest arrivals []
      hstream hshort hnot (max n (payloads.length + 1))
      (Nat.le_max_right n (payloads.length + 1))
    rcases hspoilt _ _ hmore with hclosed | ⟨d, hd, hd'⟩
    · cases hclosed
    · obtain ⟨payload, _, rfl⟩ := List.mem_map.mp hd
      exact hemit payload hd'
  · intro hgood
    exact ⟨payloads.length + 1, feed_frames hcb hfits payloads rest hpayloads hrest arrivals []
      (Or.inl (by decide)) hstream hshort hgood _ (Nat.lt_succ_self _)⟩

end Scanners

end BlackCat.TcpConnection
