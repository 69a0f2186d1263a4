import BlackCat.RpcBytes
import BlackCat.SendOrder

/-!
One direction of a connection, from `Send` at one end to `OnRead` at the other.
`Send` posts a buffer to the sender's `io_service_`, whose thread runs the posted
`RealSend` calls in order; the sender's handlers start one write at a time; the
network takes the bytes of that write part by part and delivers them in order.
Seen from outside, this is the plain stream of bytes of a `Link`.
-/
namespace BlackCat.TcpChannel

open ByteMemory Codec RpcMessages RpcWire RpcBytes TcpHandlers

/-- The buffers that are posted, the sender, how many bytes of its outstanding write
the network has taken, and the bytes on their way to the receiver. -/
structure Channel where
  posted : List (List Byte)
  sender : TcpHandlers.State
  taken : ℕ
  inFlight : List Byte
  receiver : TcpConnection.State

namespace Channel

def fresh : Channel where
  posted := []
  sender := recv { TcpHandlers.fresh with socketOpen := true }
  taken := 0
  inFlight := []
  receiver := TcpConnection.fresh

/-- `Send` of the server or the provider, which sends nothing that is empty, and that
of `TcpConnection`. -/
def send (c : Channel) (packet : Packet) : Channel :=
  let s := encode rpcPool.protobuf (packetMessage packet)
  if s = [] then c else { c with posted := c.posted ++ [s] }

/-- The bytes of the outstanding write that the network has not taken. -/
def remaining (c : Channel) : List Byte :=
  (c.sender.writes.flatMap Buffer.bytes).drop c.taken

/-- What the sender does by itself, and the network for it. -/
inductive Moves (c : Channel) : Channel → Prop
  | realSend (bytes : List Byte) (rest : List (List Byte)) : c.posted = bytes :: rest →
      Moves c { c with posted := rest, sender := realSend c.sender bytes }
  | transmit (bytes rest : List Byte) : c.remaining = bytes ++ rest → bytes ≠ [] →
      Moves c { c with taken := c.taken + bytes.length, inFlight := c.inFlight ++ bytes }
  | writeDone (sender : TcpHandlers.State) : c.remaining = [] →
      step c.sender .writeDone = some sender →
      Moves c { c with sender := sender, taken := 0 }

instance : Connection Channel where
  fresh := fresh
  send := send
  inFlight := inFlight
  receiver := receiver
  received c rest receiver := { c with inFlight := rest, receiver := receiver }
  Moves := Moves

/-- Everything that was sent and is not in flight yet. -/
def unsent (c : Channel) : List Byte :=
  c.remaining ++ (c.sender.sendBuf.tail.flatMap Buffer.bytes ++ c.posted.flatten)

def link (c : Channel) : Link := ⟨c.inFlight ++ c.unsent, c.receiver⟩

/-- The sender is connected, has no failed write behind it and sends no empty buffer. -/
structure Sound (c : Channel) : Prop where
  sync : Sync c.sender
  connected : c.sender.socketOpen = true
  live : c.sender.deadWrites = []
  buffers : ∀ buffer ∈ c.sender.sendBuf, buffer.bytes ≠ []
  posts : ∀ bytes ∈ c.posted, bytes ≠ []
  taken_le : c.taken ≤ (c.sender.writes.flatMap Buffer.bytes).length

variable {c c' : Channel}

theorem sound_fresh : Sound fresh where
  sync := sync_fresh.congr rfl rfl rfl rfl rfl rfl
  connected := rfl
  live := rfl
  buffers := by simp [fresh, recv, TcpHandlers.fresh]
  posts := by simp [fresh]
  taken_le := Nat.zero_le _

theorem link_send (c : Channel) (packet : Packet) : (c.send packet).link = c.link.send packet := by
  unfold send
  by_cases hempty : encode rpcPool.protobuf (packetMessage packet) = []
  · rw [if_pos hempty, Link.send, hempty, List.append_nil]
  · rw [if_neg hempty]
    simp only [link, unsent, remaining, Link.send, List.flatten_append, List.flatten_singleton,
      List.append_assoc]

theorem Sound.send (h : Sound c) (packet : Packet) : Sound (c.send packet) := by
  unfold Channel.send
  by_cases hempty : encode rpcPool.protobuf (packetMessage packet) = []
  · rw [if_pos hempty]
    exact h
  · rw [if_neg hempty]
    refine ⟨h.sync, h.connected, h.live, h.buffers, ?_, h.taken_le⟩
    intro bytes hbytes
    rcases List.mem_append.mp hbytes with hold | hnew
    · exact h.posts bytes hold
    · rw [List.mem_singleton.mp hnew]
      exact hempty

theorem Sound.cases (h : Sound c) :
    (c.sender.writtingMsg = false ∧ c.sender.sendBuf = [] ∧ c.sender.writes = [] ∧ c.taken = 0) ∨
      ∃ buffer rest, c.sender.writtingMsg = true ∧ c.sender.sendBuf = buffer :: rest ∧
        c.sender.writes = [buffer] := by
  have hlive := h.live
  have hle := h.taken_le
  cases h.sync with
  | idle hflag hbuf hhanded hout hsent =>
    rw [outstanding, hlive, List.nil_append] at hout
    rw [hout] at hle
    exact Or.inl ⟨hflag, hbuf, hout, Nat.le_zero.mp hle⟩
  | busy buffer rest hflag hbuf hhanded hout hsent =>
    have hfilled := h.buffers buffer (hbuf ▸ List.mem_cons_self ..)
    rw [outstanding, hlive, List.nil_append, started, if_neg hfilled] at hout
    exact Or.inr ⟨buffer, rest, hflag, hbuf, hout⟩

theorem Sound.after_realSend (h : Sound c) {bytes : List Byte} {rest : List (List Byte)}
    (hposted : c.posted = bytes :: rest) :
    Sound { c with posted := rest, sender := realSend c.sender bytes } ∧
      ({ c with posted := rest, sender := realSend c.sender bytes } : Channel).link = c.link := by
  have hposts := h.posts
  rw [hposted, List.forall_mem_cons] at hposts
  rcases h.cases with ⟨hflag, hbuf, hwrites, htaken⟩ | ⟨buffer, queue, hflag, hbuf, hwrites⟩
  · have hsender : realSend c.sender bytes = socketSend
        { c.sender with
          sendBuf := [⟨c.sender.sent.length, bytes⟩]
          sent := c.sender.sent ++ [⟨c.sender.sent.length, bytes⟩]
          writtingMsg := true } ⟨c.sender.sent.length, bytes⟩ := by
      rw [TcpHandlers.realSend, if_neg (by simp [hflag]), hbuf]
      rfl
    have hstarted : (realSend c.sender bytes).writes = [⟨c.sender.sent.length, bytes⟩] := by
      rw [hsender, socketSend, started]
      simp [h.connected, hwrites, hposts.1]
    have hdead : (realSend c.sender bytes).deadWrites = [] := by
      rw [hsender, socketSend]
      simp [h.connected, h.live]
    constructor
    · refine ⟨h.sync.realSend bytes, ?_, hdead, ?_, hposts.2, ?_⟩
      · rw [hsender]
        exact h.connected
      · rw [hsender]
        simpa [socketSend] using hposts.1
      · rw [htaken]
        exact Nat.zero_le _
    · simp only [link, unsent, remaining, hstarted, hwrites, htaken, hposted, hbuf]
      rw [hsender]
      simp [socketSend]
  · have hsender : realSend c.sender bytes =
        { c.sender with
          sendBuf := c.sender.sendBuf ++ [⟨c.sender.sent.length, bytes⟩]
          sent := c.sender.sent ++ [⟨c.sender.sent.length, bytes⟩] } := by
      rw [TcpHandlers.realSend, if_pos hflag]
    constructor
    · refine ⟨h.sync.realSend bytes, ?_, ?_, ?_, hposts.2, ?_⟩
      · rw [hsender]
        exact h.connected
      · rw [hsender]
        exact h.live
      · rw [hsender, List.forall_mem_append]
        exact ⟨h.buffers, by simpa using hposts.1⟩
      · rw [hsender]
        exact h.taken_le
    · simp only [link, unsent, remaining, hposted]
      rw [hsender]
      simp [hbuf]

theorem Sound.after_transmit (h : Sound c) {bytes rest : List Byte}
    (hbytes : c.remaining = bytes ++ rest) :
    Sound { c with taken := c.taken + bytes.length, inFlight := c.inFlight ++ bytes } ∧
      ({ c with taken := c.taken + bytes.length, inFlight := c.inFlight ++ bytes } : Channel).link =
        c.link := by
  have hrest : (c.sender.writes.flatMap Buffer.bytes).drop (c.taken + bytes.length) = rest := by
    rw [← List.drop_drop]
    change (c.remaining).drop bytes.length = rest
    rw [hbytes, List.drop_left]
  have hlength := congrArg List.length hbytes
  rw [remaining, List.length_drop, List.length_append] at hlength
  have hle := h.taken_le
  constructor
  · exact ⟨h.sync, h.connected, h.live, h.buffers, h.posts, by
      change c.taken + bytes.length ≤ (c.sender.writes.flatMap Buffer.bytes).length
      omega⟩
  · have hunsent : c.unsent = bytes ++ (rest ++ (c.sender.sendBuf.tail.flatMap Buffer.bytes ++
        c.posted.flatten)) := by rw [unsent, hbytes, List.append_assoc]
    simp only [link, hunsent]
    simp only [unsent, remaining, hrest, List.append_assoc]

theorem Sound.after_writeDone (h : Sound c) {sender : TcpHandlers.State} (hdone : c.remaining = [])
    (hstep : step c.sender .writeDone = some sender) :
    Sound { c with sender := sender, taken := 0 } ∧
      ({ c with sender := sender, taken := 0 } : Channel).link = c.link := by
  have hsync := h.sync.step .writeDone (by simp) hstep
  obtain ⟨front, live, hlive, rfl⟩ := step_writeDone hstep
  rcases h.cases with ⟨-, -, hwrites, -⟩ | ⟨buffer, queue, hflag, hbuf, hwrites⟩
  · rw [hwrites] at hlive
    cases hlive
  · rw [hwrites] at hlive
    cases hlive
    have hbuffers := h.buffers
    rw [hbuf, List.forall_mem_cons] at hbuffers
    have hunsent : c.unsent = queue.flatMap Buffer.bytes ++ c.posted.flatten := by
      rw [unsent, hdone, hbuf, List.nil_append, List.tail_cons]
    cases queue with
    | nil =>
      have hsender : onWrite { c.sender with
            writes := [], written := c.sender.written ++ [front] } =
          { c.sender with
            writes := []
            written := c.sender.written ++ [front]
            writtingMsg := false
            calls := c.sender.calls ++ [.onWrite]
            sendBuf := [] } := by
        simp [onWrite, hbuf]
      rw [hsender] at hsync ⊢
      constructor
      · exact ⟨hsync, h.connected, h.live, by simp, h.posts, Nat.zero_le _⟩
      · rw [link, link, hunsent]
        simp [unsent, remaining]
    | cons next queue =>
      have hsender : onWrite { c.sender with
            writes := [], written := c.sender.written ++ [front] } =
          socketSend { c.sender with
            writes := []
            written := c.sender.written ++ [front]
            writtingMsg := true
            calls := c.sender.calls ++ [.onWrite]
            sendBuf := next :: queue } next := by
        simp [onWrite, hbuf]
      rw [hsender] at hsync ⊢
      constructor
      · refine ⟨hsync, h.connected, ?_, hbuffers.2, h.posts, Nat.zero_le _⟩
        simp [socketSend, h.connected, h.live]
      · rw [link, link, hunsent]
        simp [unsent, remaining, socketSend, started, h.connected,
          hbuffers.2 next (List.mem_cons_self ..)]

theorem Sound.moves (h : Sound c) (hmoves : Moves c c') : Sound c' ∧ c'.link = c.link := by
  cases hmoves with
  | realSend bytes rest hposted => exact h.after_realSend hposted
  | transmit bytes rest hbytes _ => exact h.after_transmit hbytes
  | writeDone sender hdone hstep => exact h.after_writeDone hdone hstep

section Flush

/-- The bytes to transmit, the buffers to hand over and the writes to complete. -/
def work (c : Channel) : ℕ := c.unsent.length + (2 * c.posted.length + c.sender.sendBuf.length)

theorem unsent_eq_of_link (hlink : c'.link = c.link) (hflight : c'.inFlight = c.inFlight) :
    c'.unsent = c.unsent := by
  have hbytes : c'.inFlight ++ c'.unsent = c.inFlight ++ c.unsent := congrArg Link.inFlight hlink
  rw [hflight] at hbytes
  exact List.append_cancel_left hbytes

theorem length_realSend (s : TcpHandlers.State) (bytes : List Byte) :
    (realSend s bytes).sendBuf.length = s.sendBuf.length + 1 := by
  unfold realSend
  split
  · exact List.length_append
  · exact List.length_append

theorem sendBuf_onWrite (s : TcpHandlers.State) : (onWrite s).sendBuf = s.sendBuf.tail := by
  unfold onWrite
  split
  · rfl
  · rfl

theorem Sound.work_lt (h : Sound c) (hmoves : Moves c c') : c'.work < c.work := by
  have hlink := (h.moves hmoves).2
  cases hmoves with
  | realSend bytes rest hposted =>
    have hunsent := unsent_eq_of_link hlink rfl
    have hlength := length_realSend c.sender bytes
    simp only [work, hunsent, hposted, hlength, List.length_cons]
    omega
  | transmit bytes rest hbytes hne =>
    have hpos := List.length_pos_iff.mpr hne
    have hflight := congrArg (fun link => link.inFlight.length) hlink
    simp only [link, List.length_append] at hflight
    simp only [work]
    omega
  | writeDone sender hdone hstep =>
    have hunsent := unsent_eq_of_link hlink rfl
    obtain ⟨front, live, hlive, rfl⟩ := step_writeDone hstep
    rcases h.cases with ⟨-, -, hwrites, -⟩ | ⟨buffer, queue, hflag, hbuf, hwrites⟩
    · rw [hwrites] at hlive
      cases hlive
    · have hlength : c.sender.sendBuf.tail.length < c.sender.sendBuf.length := by
        rw [hbuf]
        exact Nat.lt_succ_self _
      simp only [work, hunsent, sendBuf_onWrite]
      omega

theorem Sound.flushed (h : Sound c) (hfinal : ∀ c', ¬ Moves c c') : c.unsent = [] := by
  have hposted : c.posted = [] := by
    cases hposted : c.posted with
    | nil => rfl
    | cons bytes rest => exact absurd (.realSend bytes rest hposted) (hfinal _)
  have hremaining : c.remaining = [] := by
    by_contra hne
    exact hfinal _ (.transmit c.remaining [] (List.append_nil _).symm hne)
  have hbuf : c.sender.sendBuf = [] := by
    rcases h.cases with ⟨-, hbuf, -⟩ | ⟨buffer, rest, -, -, hwrites⟩
    · exact hbuf
    · have hstep : step c.sender .writeDone = some (onWrite { c.sender with
          writes := [], written := c.sender.written ++ [buffer] }) := by
        simp only [step, hwrites]
      exact absurd (.writeDone _ hremaining hstep) (hfinal _)
  rw [unsent, hremaining, hbuf, hposted]
  rfl

end Flush

end Channel

end BlackCat.TcpChannel
