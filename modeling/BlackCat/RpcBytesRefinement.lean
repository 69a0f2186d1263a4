import BlackCat.RpcBytes
import BlackCat.RpcTermination

/-!
The system on bytes refines the system on packets. What a receiver holds and
what is in flight to it are the frames of the packets of its link, in order;
a read dispatches the packets whose frames it completes, which is a run of
steps of the system on packets. As long as the proxy has shut no connection down,
every result about reachable states of that system therefore holds on bytes.
-/
namespace BlackCat.RpcBytes

open ByteMemory LengthFrames ServerCommon Codec RpcMessages RpcTask RpcService ConnMgr RpcWire
open TcpConnection (Arrival onRead onRead_mono onRead_frames)
open RpcSystem (Deployment Call Node)
open Dispatcher (Stops)
open RpcReassembly (EndFits BelowLimit provider_settled proxy_settled provider_scansFrames
  proxy_scansFrames stops_of_prefix proxy_guard_spoilt)

section Links

/-- The link holds the given packets, the first of them perhaps in part received. -/
structure Carries (link : Link) (packets : List Packet) : Prop where
  opened : link.receiver.socketOpen = true
  held : Incomplete link.receiver.recvBuf
  stream : link.receiver.recvBuf ++ link.inFlight = frames (packets.map payload)
  small : ∀ packet ∈ packets, ShortPacket packet

theorem carries_fresh : Carries ⟨[], TcpConnection.fresh⟩ [] where
  opened := rfl
  held := Or.inl (by decide)
  stream := rfl
  small := by simp

theorem Carries.send {link : Link} {packets : List Packet} (h : Carries link packets)
    {packet : Packet} (hsmall : ShortPacket packet) :
    Carries (link.send packet) (packets ++ [packet]) where
  opened := h.opened
  held := h.held
  stream := by
    rw [Link.send, encode_packetMessage hsmall, List.map_append, frames_append, ← h.stream,
      List.append_assoc]
    simp [frames_cons, frames_nil]
  small := by
    intro other hother
    rcases List.mem_append.mp hother with hold | hnew
    · exact h.small other hold
    · rw [List.mem_singleton.mp hnew]
      exact hsmall

theorem endFits_payload {packet : Packet} (h : ShortPacket packet) : EndFits (payload packet) := by
  have hlength := (length_payload h).2
  unfold ShortPacket CodedInputStream.kDefaultTotalBytesLimit at h
  unfold EndFits
  omega

theorem Carries.held_length {link : Link} {packets : List Packet} (h : Carries link packets) :
    link.receiver.recvBuf.length < 67109000 := by
  have hheld := h.held
  by_cases hfour : 4 ≤ link.receiver.recvBuf.length
  · have hword := word_append link.receiver.recvBuf link.inFlight hfour
    rw [h.stream] at hword
    cases packets with
    | nil =>
      have hnil := h.stream
      rw [List.map_nil, frames_nil, List.append_eq_nil_iff] at hnil
      rw [hnil.1] at hfour
      simp at hfour
    | cons packet packets =>
      have hsmall := h.small packet (List.mem_cons_self ..)
      have hlength := (length_payload hsmall).2
      rw [List.map_cons, frames_cons, word_frame_append _ _ (endFits_payload hsmall).fits] at hword
      unfold ShortPacket CodedInputStream.kDefaultTotalBytesLimit at hsmall
      unfold Incomplete at hheld
      omega
  · omega

/-- A read completes the first packets of a link. The rest of the link carries the
others. -/
theorem Carries.exists_split {link : Link} {packets : List Packet} (h : Carries link packets)
    {bytes rest : List Byte} (hbytes : link.inFlight = bytes ++ rest) :
    ∃ before after tail, packets = before ++ after ∧
      link.receiver.recvBuf ++ bytes = frames (before.map payload) ++ tail ∧
      Stops tail ∧ Carries ⟨rest, ⟨tail, true⟩⟩ after := by
  have hfits : ∀ p ∈ packets.map payload, Fits p := by
    intro p hp
    obtain ⟨packet, hpacket, rfl⟩ := List.mem_map.mp hp
    exact (endFits_payload (h.small packet hpacket)).fits
  have hstream := h.stream
  rw [hbytes, ← List.append_assoc, ← List.append_nil (frames _)] at hstream
  obtain ⟨front, back, tail, hsplit, hfront, hback, htail⟩ :=
    exists_split_prefix _ [] _ rest hfits (Or.inl (by decide)) hstream
  obtain ⟨before, after, rfl, rfl, rfl⟩ := List.map_eq_append_iff.mp hsplit
  have hsmall : ∀ packet ∈ after, ShortPacket packet :=
    fun packet hp => h.small packet (List.mem_append_right _ hp)
  have hends : ∀ p ∈ after.map payload, EndFits p := by
    intro p hp
    obtain ⟨packet, hpacket, rfl⟩ := List.mem_map.mp hp
    exact endFits_payload (hsmall packet hpacket)
  refine ⟨before, after, tail, rfl, hfront, ?_, rfl, htail, ?_, hsmall⟩
  · exact stops_of_prefix _ [] tail rest hends (Or.inl (by decide)) htail hback
  · rw [List.append_nil] at hback
    exact hback

theorem Carries.provider_read {link : Link} {packets : List Packet} (h : Carries link packets)
    {arrival : Arrival} {rest : List Byte} (hbytes : link.inFlight = arrival.bytes ++ rest)
    (hshort : (arrival.bytes.length : ℤ) ≤ maxRecvBuf) :
    ∃ before after tail, packets = before ++ after ∧ Carries ⟨rest, ⟨tail, true⟩⟩ after ∧
      ∀ n, before.length < n → onRead Dispatcher.RpcServiceProvider.onRead n link.receiver arrival =
        some (.ok (⟨tail, true⟩, before.map payload)) := by
  obtain ⟨before, after, tail, rfl, hbuffer, hstops, hafter⟩ := h.exists_split hbytes
  have hfits : ∀ p ∈ before.map payload, Fits p := by
    intro p hp
    obtain ⟨packet, hpacket, rfl⟩ := List.mem_map.mp hp
    exact (endFits_payload (h.small packet (List.mem_append_left _ hpacket))).fits
  have hheld := h.held_length
  have hlen : (link.receiver.recvBuf ++ arrival.bytes).length < 2147483648 := by
    rw [List.length_append]
    unfold maxRecvBuf at hshort
    omega
  have hgood : Stops (leftover (link.receiver.recvBuf ++ arrival.bytes)) := by
    rw [hbuffer, leftover_frames_append _ _ hfits hstops.incomplete]
    exact hstops
  refine ⟨before, after, tail, rfl, hafter, fun n hn => ?_⟩
  have hread := onRead_frames provider_scansFrames link.receiver h.opened arrival
    (before.map payload) tail hfits hstops.incomplete hbuffer hlen hgood n (by simpa using hn)
  rwa [List.map_id] at hread

theorem Carries.proxy_read {link : Link} {packets : List Packet} (h : Carries link packets)
    {arrival : Arrival} {rest : List Byte} (hbytes : link.inFlight = arrival.bytes ++ rest)
    (hlimit : ((link.receiver.recvBuf ++ arrival.bytes).length : ℤ) < maxRecvBuf) :
    ∃ before after tail, packets = before ++ after ∧ Carries ⟨rest, ⟨tail, true⟩⟩ after ∧
      (∀ packet ∈ before, packetSize packet ≤ 32768) ∧
      ∀ n, before.length < n → onRead Dispatcher.RpcProxyServer.onRead n link.receiver arrival =
        some (.ok (⟨tail, true⟩, before.map payload)) := by
  obtain ⟨before, after, tail, rfl, hbuffer, hstops, hafter⟩ := h.exists_split hbytes
  have hlength : ∀ p ∈ before.map payload, p.length + 4 ≤
      (link.receiver.recvBuf ++ arrival.bytes).length := by
    intro p hp
    have hle := payload_length_le p _ hp
    rw [hbuffer, List.length_append]
    omega
  have hbelow : ∀ p ∈ before.map payload, BelowLimit p := by
    intro p hp
    have hle := hlength p hp
    unfold BelowLimit
    rw [frame_length]
    omega
  have hfits : ∀ p ∈ before.map payload, Fits p :=
    fun p hp => RpcReassembly.fits_of_belowLimit p (hbelow p hp)
  have hlen : (link.receiver.recvBuf ++ arrival.bytes).length < 2147483648 := by
    unfold maxRecvBuf at hlimit
    omega
  have hgood : ((link.receiver.recvBuf ++ arrival.bytes).length : ℤ) < maxRecvBuf ∧
      Stops (leftover (link.receiver.recvBuf ++ arrival.bytes)) := by
    refine ⟨hlimit, ?_⟩
    rw [hbuffer, leftover_frames_append _ _ hfits hstops.incomplete]
    exact hstops
  refine ⟨before, after, tail, rfl, hafter, ?_, fun n hn => ?_⟩
  · intro packet hpacket
    have hle := hlength _ (List.mem_map_of_mem hpacket)
    have hsize := (length_payload (h.small packet (List.mem_append_left _ hpacket))).1
    unfold maxRecvBuf at hlimit
    omega
  · have hread := onRead_frames proxy_scansFrames link.receiver h.opened arrival
      (before.map payload) tail hbelow hstops.incomplete hbuffer hlen hgood n (by simpa using hn)
    rwa [List.map_id] at hread

theorem read_unique {cb : FuncOnRead (List Byte)} (hcb : TcpConnection.Settled cb) {n k : ℕ}
    {c : TcpConnection.State} {arrival : Arrival}
    {outcome outcome' : Except Failure (TcpConnection.State × List (List Byte))}
    (h : onRead cb n c arrival = some outcome)
    (h' : ∀ m, k < m → onRead cb m c arrival = some outcome') : outcome = outcome' := by
  have hmore := onRead_mono cb hcb (Nat.le_max_left n (k + 1)) c arrival h
  have hother := h' (max n (k + 1)) (Nat.le_max_right n (k + 1))
  exact Option.some.inj (hmore.symm.trans hother)

/-- Where the proxy's buffer reaches the limit, the connection is shut down. -/
theorem limit_of_open {link : Link} {packets : List Packet} (h : Carries link packets)
    {arrival : Arrival} (hshort : (arrival.bytes.length : ℤ) ≤ maxRecvBuf) {n : ℕ}
    {receiver : TcpConnection.State} {messages : List (List Byte)}
    (hread : onRead Dispatcher.RpcProxyServer.onRead n link.receiver arrival =
      some (.ok (receiver, messages))) (hopen : receiver.socketOpen = true) :
    ((link.receiver.recvBuf ++ arrival.bytes).length : ℤ) < maxRecvBuf := by
  by_contra hlimit
  have hheld := h.held_length
  have hlen : (link.receiver.recvBuf ++ arrival.bytes).length < 2147483648 := by
    rw [List.length_append]
    unfold maxRecvBuf at hshort
    omega
  rcases proxy_guard_spoilt link.receiver arrival n h.opened hlen (by omega) receiver messages
    hread with hclosed | ⟨_, _, hfalse⟩
  · rw [hopen] at hclosed
    cases hclosed
  · exact hfalse

theorem Carries.proxy_shutdown {link : Link} {packets : List Packet} (h : Carries link packets)
    {arrival : Arrival} (hshort : (arrival.bytes.length : ℤ) ≤ maxRecvBuf)
    (hlimit : ¬ ((link.receiver.recvBuf ++ arrival.bytes).length : ℤ) < maxRecvBuf) :
    onRead Dispatcher.RpcProxyServer.onRead 1 link.receiver arrival =
      some (.ok (⟨[], false⟩, [])) := by
  have hheld := h.held_length
  have hlen : (link.receiver.recvBuf ++ arrival.bytes).length < 2147483648 := by
    rw [List.length_append]
    unfold maxRecvBuf at hshort
    omega
  have herase : TcpConnection.eraseFront (link.receiver.recvBuf ++ arrival.bytes)
      (link.receiver.recvBuf ++ arrival.bytes).length = .ok [] := by
    have hne : ((link.receiver.recvBuf ++ arrival.bytes).length : ℤ) ≠ 0 := by
      unfold maxRecvBuf at hlimit
      omega
    rw [TcpConnection.eraseFront, if_neg hne, if_pos (by omega), Int.toNat_natCast,
      List.drop_length]
  rw [TcpConnection.onRead_eq _ 1 _ arrival h.opened hlen, Dispatcher.RpcProxyServer.onRead,
    if_pos (by omega)]
  simp only [Option.map_some, Except.bind, TcpConnection.afterCallback, herase, Except.map,
    Bool.not_true]

end Links

section Simulation

variable {P τ : Type*}

/-- The state on bytes stands for the state on packets. -/
structure Refines (b : State P τ Link) (s : RpcSystem.State P τ) : Prop where
  mgr : b.mgr = s.mgr
  node : b.node = s.node
  up : ∀ p, Carries (b.up p) (s.up p)
  down : ∀ p, Carries (b.down p) (s.down p)

variable [DecidableEq P] {d : Deployment P}

theorem carries_update {links : P → Link} {q : P → List Packet}
    (h : ∀ p, Carries (links p) (q p)) (p : P) {link : Link} {packets : List Packet}
    (hlink : Carries link packets) (r : P) :
    Carries (Function.update links p link r) (Function.update q p packets r) := by
  by_cases hr : r = p
  · subst r
    rw [Function.update_self, Function.update_self]
    exact hlink
  · rw [Function.update_of_ne hr, Function.update_of_ne hr]
    exact h r

theorem carries_sendOn {links : P → Link} {q : P → List Packet}
    (h : ∀ p, Carries (links p) (q p)) (p : P) {packet : Packet} (hsmall : ShortPacket packet)
    (r : P) :
    Carries (sendOn links p packet r) (Queues.put q p packet r) :=
  carries_update h p ((h p).send hsmall) r

theorem foldl_proxyDispatch (p : P) (packets : List Packet) (b : State P τ Link)
    (hsmall : ∀ packet ∈ packets, ShortPacket packet) :
    (packets.map payload).foldl (fun s msg => s.proxyDispatch d p msg) b =
      packets.foldl (fun s packet => s.proxyHandle d p packet) b := by
  induction packets generalizing b with
  | nil => rfl
  | cons packet packets ih =>
    obtain ⟨hfirst, hothers⟩ := List.forall_mem_cons.mp hsmall
    have hone := b.proxyDispatch_of_decode d p (decodePacket_payload hfirst)
    rw [List.map_cons, List.foldl_cons, List.foldl_cons, hone, ih _ hothers]

theorem foldl_providerDispatch (p : P) (packets : List Packet) (b : State P τ Link)
    (hsmall : ∀ packet ∈ packets, ShortPacket packet) :
    (packets.map payload).foldl (fun s msg => s.providerDispatch d p msg) b =
      packets.foldl (fun s packet => s.providerHandle d p packet) b := by
  induction packets generalizing b with
  | nil => rfl
  | cons packet packets ih =>
    obtain ⟨hfirst, hothers⟩ := List.forall_mem_cons.mp hsmall
    have hone := b.providerDispatch_of_decode d p (decodePacket_payload hfirst)
    rw [List.map_cons, List.foldl_cons, List.foldl_cons, hone, ih _ hothers]

omit [DecidableEq P] in
theorem small_dispatched {getId : P → UInt32} {mgr : Registry P} {p : P} {packet : Packet}
    (hsmall : ShortPacket packet) (hsize : packetSize packet ≤ 32768) {sent : P × Packet}
    (h : (RpcProxyServer.dispatch getId mgr p packet).2 = some sent) : ShortPacket sent.2 := by
  cases packet with
  | login request => cases h
  | request request =>
    simp only [RpcProxyServer.dispatch, RpcProxyServer.handleRpcRequest, Option.some.injEq] at h
    cases hconn : getConn mgr request.serviceName with
    | none =>
      rw [hconn] at h
      rw [← h]
      exact small_refused hsize
    | some dst =>
      rw [hconn] at h
      rw [← h]
      exact hsmall
  | response response =>
    simp only [RpcProxyServer.dispatch, RpcProxyServer.handleRpcResponse] at h
    cases hconn : getConn mgr response.requestor with
    | none =>
      rw [hconn] at h
      cases h
    | some dst =>
      rw [hconn] at h
      cases h
      exact hsmall

theorem Refines.proxyHandle (d : Deployment P) {b : State P τ Link} {s : RpcSystem.State P τ}
    {p : P} {packet : Packet} {after : List Packet} (rest : List Packet)
    (h : Refines b { s with up := Function.update s.up p after }) (hsmall : ShortPacket packet)
    (hsize : packetSize packet ≤ 32768) :
    Refines (b.proxyHandle d p packet)
      { s.proxyRead d p packet rest with
        up := Function.update (s.proxyRead d p packet rest).up p after } := by
  have hmgr : b.mgr = s.mgr := h.mgr
  simp only [State.proxyHandle, RpcSystem.State.proxyRead, hmgr, Function.update_idem]
  constructor
  · rfl
  · exact h.node
  · exact h.up
  · cases hsent : (RpcProxyServer.dispatch d.getId s.mgr p packet).2 with
    | none => exact h.down
    | some sent => exact carries_sendOn h.down sent.1 (small_dispatched hsmall hsize hsent)

theorem Refines.proxyHandles {p : P} (before after : List Packet) {b : State P τ Link}
    {s : RpcSystem.State P τ} (hreach : RpcSystem.Reachable d s) (hup : s.up p = before ++ after)
    (h : Refines b { s with up := Function.update s.up p after })
    (hsmall : ∀ packet ∈ before, ShortPacket packet ∧ packetSize packet ≤ 32768) :
    ∃ t, RpcSystem.Reachable d t ∧
      Refines (before.foldl (fun s packet => s.proxyHandle d p packet) b) t := by
  induction before generalizing b s with
  | nil =>
    rw [List.nil_append] at hup
    rw [← hup, Function.update_eq_self] at h
    exact ⟨s, hreach, h⟩
  | cons packet before ih =>
    obtain ⟨hfirst, hothers⟩ := List.forall_mem_cons.mp hsmall
    have hnext := Refines.proxyHandle d (before ++ after) h hfirst.1 hfirst.2
    have hstep := hreach.step (.proxyRead p packet (before ++ after) hup)
    exact ih hstep (Function.update_self _ _ _) hnext hothers

theorem Refines.providerHandle (d : Deployment P) {b : State P τ Link} {s : RpcSystem.State P τ}
    {p : P} (packet : Packet) {after : List Packet} (rest : List Packet)
    (h : Refines b { s with down := Function.update s.down p after }) :
    Refines (b.providerHandle d p packet)
      { s.providerRead d p packet rest with
        down := Function.update (s.providerRead d p packet rest).down p after } := by
  have hnode : b.node = s.node := h.node
  simp only [State.providerHandle, RpcSystem.State.providerRead, hnode, Function.update_idem]
  exact ⟨h.mgr, rfl, h.up, h.down⟩

theorem Refines.providerHandles {p : P} (before after : List Packet) {b : State P τ Link}
    {s : RpcSystem.State P τ} (hreach : RpcSystem.Reachable d s)
    (hdown : s.down p = before ++ after)
    (h : Refines b { s with down := Function.update s.down p after }) :
    ∃ t, RpcSystem.Reachable d t ∧
      Refines (before.foldl (fun s packet => s.providerHandle d p packet) b) t := by
  induction before generalizing b s with
  | nil =>
    rw [List.nil_append] at hdown
    rw [← hdown, Function.update_eq_self] at h
    exact ⟨s, hreach, h⟩
  | cons packet before ih =>
    have hnext := Refines.providerHandle d packet (before ++ after) h
    have hstep := hreach.step (.providerRead p packet (before ++ after) hdown)
    exact ih hstep (Function.update_self _ _ _) hnext

/-- Every step on bytes that shuts no connection down is a run of steps on packets. -/
theorem Refines.step {b c : State P τ Link} {s : RpcSystem.State P τ}
    (hreach : RpcSystem.Reachable d s) (h : Refines b s) (hstep : Step d b c) (hup : c.Up) :
    ∃ t, RpcSystem.Reachable d t ∧ Refines c t := by
  cases hstep with
  | connect p hconnected hsmall =>
    have hnode : b.node = s.node := h.node
    rw [hnode] at hconnected
    refine ⟨_, hreach.step (.connect p hconnected), ?_⟩
    simp only [State.connect, RpcSystem.State.connect, hnode]
    exact ⟨h.mgr, rfl, carries_sendOn h.up p hsmall, h.down⟩
  | register p typeName func =>
    refine ⟨_, hreach.step (.register p typeName func), ?_⟩
    simp only [State.register, RpcSystem.State.register, h.node]
    exact ⟨h.mgr, rfl, h.up, h.down⟩
  | call p thread service requestName requestBody cbId hconnected hfree hsmall =>
    have hnode : b.node = s.node := h.node
    rw [hnode] at hconnected hfree
    refine ⟨_, hreach.step
      (.call p thread service requestName requestBody cbId hconnected hfree), ?_⟩
    simp only [State.call, RpcSystem.State.call, hnode]
    exact ⟨h.mgr, rfl, carries_sendOn h.up p hsmall, h.down⟩
  | proxyRead p arrival rest n receiver messages hbytes hshort hread =>
    have hopen : receiver.socketOpen = true := by
      have hlink := hup p
      rw [State.up_proxyRead, Function.update_self] at hlink
      exact hlink
    have hlimit := limit_of_open (h.up p) hshort hread hopen
    obtain ⟨before, after, tail, hsplit, hafter, hsize, hdone⟩ := (h.up p).proxy_read hbytes hlimit
    have hsame := read_unique proxy_settled hread hdone
    cases hsame
    have hsmall : ∀ packet ∈ before, ShortPacket packet :=
      fun packet hpacket => (h.up p).small packet (hsplit ▸ List.mem_append_left _ hpacket)
    rw [State.proxyRead, foldl_proxyDispatch p before _ hsmall]
    apply Refines.proxyHandles before after hreach hsplit
    · exact ⟨h.mgr, h.node, carries_update h.up p hafter, h.down⟩
    · intro packet hpacket
      exact ⟨hsmall packet hpacket, hsize packet hpacket⟩
  | providerRead p arrival rest n receiver messages hbytes hshort hread =>
    obtain ⟨before, after, tail, hsplit, hafter, hdone⟩ := (h.down p).provider_read hbytes hshort
    have hsame := read_unique provider_settled hread hdone
    cases hsame
    have hsmall : ∀ packet ∈ before, ShortPacket packet :=
      fun packet hpacket => (h.down p).small packet (hsplit ▸ List.mem_append_left _ hpacket)
    rw [State.providerRead, foldl_providerDispatch p before _ hsmall]
    apply Refines.providerHandles before after hreach hsplit
    exact ⟨h.mgr, h.node, h.up, carries_update h.down p hafter⟩
  | pop p taskMgr task goOn hidle hpop =>
    have hnode : b.node = s.node := h.node
    rw [hnode] at hidle hpop
    refine ⟨_, hreach.step (.pop p taskMgr task goOn hidle hpop), ?_⟩
    simp only [State.pop, RpcSystem.State.pop, hnode]
    exact ⟨h.mgr, rfl, h.up, h.down⟩
  | execute p request hrunning hsmall =>
    have hnode : b.node = s.node := h.node
    rw [hnode] at hrunning hsmall
    refine ⟨_, hreach.step (.execute p request hrunning), ?_⟩
    simp only [State.execute, RpcSystem.State.execute, hnode]
    exact ⟨h.mgr, rfl, carries_sendOn h.up p hsmall, h.down⟩
  | up p link hmoves => exact hmoves.elim
  | down p link hmoves => exact hmoves.elim

theorem Reachable.exists_refines {b : State P τ Link} (h : Reachable d b) (hup : b.Up) :
    ∃ s, RpcSystem.Reachable d s ∧ Refines b s := by
  induction h with
  | initial =>
    exact ⟨RpcSystem.initial, .initial, rfl, rfl, fun _ => carries_fresh, fun _ => carries_fresh⟩
  | step _ hbefore hstep ih =>
    obtain ⟨s, hreach, hrefines⟩ := ih hbefore
    exact hrefines.step hreach hstep hup

end Simulation

section Drained

variable {P τ : Type*} [DecidableEq P] {d : Deployment P}

theorem Carries.eq_nil_of_drained {packets : List Packet} {tail : List Byte}
    (h : Carries ⟨[], ⟨tail, true⟩⟩ packets) : packets = [] ∧ tail = [] := by
  have hstream : tail = frames (packets.map payload) := by
    rw [← h.stream, List.append_nil]
  have hheld : Incomplete (frames (packets.map payload) ++ []) := by
    rw [List.append_nil, ← hstream]
    exact h.held
  have hfits : ∀ p ∈ packets.map payload, Fits p := by
    intro p hp
    obtain ⟨packet, hpacket, rfl⟩ := List.mem_map.mp hp
    exact (endFits_payload (h.small packet hpacket)).fits
  have hnil := List.map_eq_nil_iff.mp (eq_rest_of_incomplete _ [] hfits hheld)
  rw [hnil] at hstream
  exact ⟨hnil, hstream⟩

theorem Reachable.proxyReadAll {b : State P τ Link} (h : Reachable d b) (hup : b.Up) {p : P}
    {packets : List Packet} (hcarries : Carries (b.up p) packets)
    (hlimit : (((b.up p).receiver.recvBuf ++ (b.up p).inFlight).length : ℤ) < maxRecvBuf) :
    Reachable d (packets.foldl (fun s packet => s.proxyHandle d p packet)
      { b with up := Function.update b.up p ⟨[], ⟨[], true⟩⟩ }) := by
  have hwhole : (b.up p).inFlight = (⟨(b.up p).inFlight, fun _ => 0⟩ : Arrival).bytes ++ [] :=
    (List.append_nil _).symm
  obtain ⟨before, after, tail, hsplit, hafter, -, hdone⟩ := hcarries.proxy_read hwhole hlimit
  obtain ⟨rfl, rfl⟩ := hafter.eq_nil_of_drained
  rw [List.append_nil] at hsplit
  subst hsplit
  rw [← foldl_proxyDispatch p packets _ hcarries.small]
  refine h.step hup (.proxyRead p _ [] _ _ _ hwhole ?_ (hdone _ (Nat.lt_succ_self _)))
  rw [List.length_append] at hlimit
  simp only
  omega

theorem Reachable.providerReadAll {b : State P τ Link} (h : Reachable d b) (hup : b.Up) {p : P}
    {packets : List Packet} (hcarries : Carries (b.down p) packets)
    (hshort : ((b.down p).inFlight.length : ℤ) ≤ maxRecvBuf) :
    Reachable d (packets.foldl (fun s packet => s.providerHandle d p packet)
      { b with down := Function.update b.down p ⟨[], ⟨[], true⟩⟩ }) := by
  have hwhole : (b.down p).inFlight = (⟨(b.down p).inFlight, fun _ => 0⟩ : Arrival).bytes ++ [] :=
    (List.append_nil _).symm
  obtain ⟨before, after, tail, hsplit, hafter, hdone⟩ := hcarries.provider_read hwhole hshort
  obtain ⟨rfl, rfl⟩ := hafter.eq_nil_of_drained
  rw [List.append_nil] at hsplit
  subst hsplit
  rw [← foldl_providerDispatch p packets _ hcarries.small]
  exact h.step hup (.providerRead p _ [] _ _ _ hwhole hshort (hdone _ (Nat.lt_succ_self _)))

/-- Provider `a` has connected and its login is in flight. -/
def loggingIn : State Bool Unit Link := initial.connect RpcSystem.pair false

theorem reachable_loggingIn : Reachable RpcSystem.pair loggingIn :=
  .step .initial (fun _ => rfl) (.connect false rfl (by unfold ShortPacket; decide))

/-- The proxy has received the login of `a`. -/
def loggedIn : State Bool Unit Link :=
  { loggingIn with up := Function.update loggingIn.up false ⟨[], ⟨[], true⟩⟩ }.proxyHandle
    RpcSystem.pair false (onConnected "a")

def echoCall : RpcRequest := ⟨"b", "a", 1, "Echo", []⟩

/-- Provider `a` has called `b`, and the proxy has answered that it is not online. -/
def refused : State Bool Unit Link :=
  let called := loggedIn.call RpcSystem.pair false () "b" "Echo" [] 1
  { called with up := Function.update called.up false ⟨[], ⟨[], true⟩⟩ }.proxyHandle
    RpcSystem.pair false (.request echoCall)

/-- The answer has come back. -/
def answered : State Bool Unit Link :=
  { refused with down := Function.update refused.down false ⟨[], ⟨[], true⟩⟩ }.providerHandle
    RpcSystem.pair false (.response (echoCall.respond
      (RpcError.result ⟨echoCall.serviceName ++ " is not online now"⟩)))

theorem Carries.length_le {link : Link} {packet : Packet} (h : Carries link [packet]) :
    (link.receiver.recvBuf ++ link.inFlight).length ≤ packetSize packet + 73 := by
  have hlength := (length_payload (h.small packet (List.mem_singleton_self _))).2
  rw [h.stream, List.map_singleton, frames_cons, frames_nil, List.append_nil, frame_length]
  omega

theorem reachable_loggedIn : Reachable RpcSystem.pair loggedIn := by
  have hcarries : Carries (loggingIn.up false) [onConnected "a"] :=
    carries_fresh.send (by unfold ShortPacket; decide)
  have hle := hcarries.length_le
  have hsize : packetSize (onConnected "a") ≤ 100 := by decide
  refine reachable_loggingIn.proxyReadAll (fun p => by cases p <;> rfl) hcarries ?_
  unfold maxRecvBuf
  omega

theorem packetSize_echoCall : packetSize (.request echoCall) ≤ 100 := by decide

theorem reachable_refused : Reachable RpcSystem.pair refused := by
  have hcarries : Carries ((loggedIn.call RpcSystem.pair false () "b" "Echo" [] 1).up false)
      [.request echoCall] :=
    carries_fresh.send (by unfold ShortPacket; decide)
  have hle := hcarries.length_le
  have hsize := packetSize_echoCall
  have hcall : Reachable RpcSystem.pair
      (loggedIn.call RpcSystem.pair false () "b" "Echo" [] 1) :=
    reachable_loggedIn.step (fun p => by cases p <;> rfl)
      (.call false () "b" "Echo" [] 1 rfl rfl (by unfold ShortPacket; decide))
  refine hcall.proxyReadAll (fun p => by cases p <;> rfl) hcarries ?_
  unfold maxRecvBuf
  omega

theorem reachable_answered : Reachable RpcSystem.pair answered := by
  have hrequest : packetSize (.request echoCall) ≤ 32768 := packetSize_echoCall.trans (by decide)
  have hcarries : Carries (refused.down false)
      [.response (echoCall.respond
        (RpcError.result ⟨echoCall.serviceName ++ " is not online now"⟩))] :=
    carries_fresh.send (small_refused hrequest)
  have hle := hcarries.length_le
  have hsize := packetSize_refused_le echoCall
  have hsmall := packetSize_echoCall
  refine reachable_refused.providerReadAll (fun p => by cases p <;> rfl) hcarries ?_
  rw [List.length_append] at hle
  unfold maxRecvBuf
  omega

end Drained

section Results

variable {P τ : Type*} [DecidableEq P] {d : Deployment P}

/-- However the bytes of all links are cut and their reads interleaved, as long as no read
has made the proxy shut a connection down, a reachable state on bytes has the registry,
the providers and, in frames, the links of a reachable state on packets, and every
packet of it will be decoded. -/
theorem reachable_refines_packets {b : State P τ Link} (h : Reachable d b) (hup : b.Up) :
    ∃ s : RpcSystem.State P τ, RpcSystem.Reachable d s ∧ b.mgr = s.mgr ∧ b.node = s.node ∧
      ∀ p, (b.up p).receiver.recvBuf ++ (b.up p).inFlight = frames ((s.up p).map payload) ∧
        (b.down p).receiver.recvBuf ++ (b.down p).inFlight = frames ((s.down p).map payload) ∧
        ∀ packet, packet ∈ s.up p ∨ packet ∈ s.down p →
          decodePacket (payload packet) = some packet := by
  obtain ⟨s, hreach, hrefines⟩ := h.exists_refines hup
  refine ⟨s, hreach, hrefines.mgr, hrefines.node, fun p => ⟨(hrefines.up p).stream,
    (hrefines.down p).stream, ?_⟩⟩
  rintro packet (hin | hin)
  · exact decodePacket_payload ((hrefines.up p).small packet hin)
  · exact decodePacket_payload ((hrefines.down p).small packet hin)

theorem up_answered : answered.Up := by
  intro p
  cases p <;> rfl

theorem reachable_refines_packets_answered :
    ∃ s : RpcSystem.State Bool Unit, RpcSystem.Reachable RpcSystem.pair s ∧
      answered.node = s.node := by
  obtain ⟨s, hreach, -, hnode, -⟩ := reachable_refines_packets reachable_answered up_answered
  exact ⟨s, hreach, hnode⟩

/-- The read dispatches the first packets of a link, each as it was sent, and leaves the
link with the others. -/
def Reads (cb : FuncOnRead (List Byte)) (receiver : TcpConnection.State) (arrival : Arrival)
    (rest : List Byte) (packets : List Packet) : Prop :=
  ∃ (n : ℕ) (tail : List Byte) (before after : List Packet), packets = before ++ after ∧
    onRead cb n receiver arrival = some (.ok (⟨tail, true⟩, before.map payload)) ∧
    tail ++ rest = frames (after.map payload) ∧
    ∀ packet ∈ before, decodePacket (payload packet) = some packet

/-- A state on bytes stands for a state on packets such that every read of a provider, and
every read of the proxy below the receive limit, returns and dispatches the first
packets queued on its link there. At the limit the proxy drops what it was given and
shuts the connection down. -/
theorem reads_return {b : State P τ Link} (h : Reachable d b) (hup : b.Up) :
    ∃ s : RpcSystem.State P τ, RpcSystem.Reachable d s ∧ Refines b s ∧
      ∀ (p : P) (arrival : Arrival) (rest : List Byte),
        (arrival.bytes.length : ℤ) ≤ maxRecvBuf →
        ((b.down p).inFlight = arrival.bytes ++ rest →
          Reads Dispatcher.RpcServiceProvider.onRead (b.down p).receiver arrival rest
            (s.down p)) ∧
        ((b.up p).inFlight = arrival.bytes ++ rest →
          ((((b.up p).receiver.recvBuf ++ arrival.bytes).length : ℤ) < maxRecvBuf →
            Reads Dispatcher.RpcProxyServer.onRead (b.up p).receiver arrival rest (s.up p)) ∧
          (maxRecvBuf ≤ (((b.up p).receiver.recvBuf ++ arrival.bytes).length : ℤ) →
            onRead Dispatcher.RpcProxyServer.onRead 1 (b.up p).receiver arrival =
              some (.ok (⟨[], false⟩, [])))) := by
  obtain ⟨s, hreach, hrefines⟩ := h.exists_refines hup
  refine ⟨s, hreach, hrefines, fun p arrival rest hshort => ⟨?_, ?_⟩⟩
  · intro hbytes
    obtain ⟨before, after, tail, hsplit, hafter, hdone⟩ :=
      (hrefines.down p).provider_read hbytes hshort
    refine ⟨before.length + 1, tail, before, after, hsplit, hdone _ (Nat.lt_succ_self _),
      hafter.stream, fun packet hpacket => ?_⟩
    exact decodePacket_payload
      ((hrefines.down p).small packet (hsplit ▸ List.mem_append_left _ hpacket))
  · intro hbytes
    constructor
    · intro hlimit
      obtain ⟨before, after, tail, hsplit, hafter, -, hdone⟩ :=
        (hrefines.up p).proxy_read hbytes hlimit
      refine ⟨before.length + 1, tail, before, after, hsplit, hdone _ (Nat.lt_succ_self _),
        hafter.stream, fun packet hpacket => ?_⟩
      exact decodePacket_payload
        ((hrefines.up p).small packet (hsplit ▸ List.mem_append_left _ hpacket))
    · intro hlimit
      exact (hrefines.up p).proxy_shutdown hshort (Int.not_lt.mpr hlimit)

/-- The login of `a` arrives one byte at first. -/
theorem reads_return_loggingIn :
    ∃ s : RpcSystem.State Bool Unit, RpcSystem.Reachable RpcSystem.pair s ∧
      Reads Dispatcher.RpcProxyServer.onRead (loggingIn.up false).receiver
        ⟨(loggingIn.up false).inFlight.take 1, fun _ => 0⟩
        ((loggingIn.up false).inFlight.drop 1) (s.up false) := by
  obtain ⟨s, hreach, -, hreads⟩ :=
    reads_return reachable_loggingIn (fun p => by cases p <;> rfl)
  have hone : ((loggingIn.up false).inFlight.take 1).length ≤ 1 := List.length_take_le 1 _
  have hbuf : (loggingIn.up false).receiver.recvBuf = [] := rfl
  refine ⟨s, hreach, ((hreads false ⟨(loggingIn.up false).inFlight.take 1, fun _ => 0⟩
    ((loggingIn.up false).inFlight.drop 1) ?_).2 (List.take_append_drop 1 _).symm).1 ?_⟩
  · unfold maxRecvBuf
    exact_mod_cast hone.trans (by decide)
  · rw [hbuf, List.nil_append]
    unfold maxRecvBuf
    exact_mod_cast Nat.lt_of_le_of_lt hone (by decide)

theorem eq_nil_of_frames_eq_nil {packets : List Packet}
    (h : frames (packets.map payload) = []) : packets = [] := by
  cases packets with
  | nil => rfl
  | cons packet packets =>
    have hlength := congrArg List.length h
    rw [List.map_cons, frames_cons, List.length_append, frame_length, List.length_nil] at hlength
    omega

/-- No byte is in flight or held back, and no provider has a task. -/
def Quiet (b : State P τ Link) : Prop :=
  ∀ p, (b.up p).inFlight = [] ∧ (b.up p).receiver.recvBuf = [] ∧
    (b.down p).inFlight = [] ∧ (b.down p).receiver.recvBuf = [] ∧ (b.node p).inHand = []

omit [DecidableEq P] in
theorem Refines.idle {b : State P τ Link} {s : RpcSystem.State P τ} (h : Refines b s)
    (hquiet : Quiet b) : RpcSystem.Idle s := by
  intro p
  obtain ⟨hupFlight, hupHeld, hdownFlight, hdownHeld, hhand⟩ := hquiet p
  have hup := (h.up p).stream
  have hdown := (h.down p).stream
  rw [hupFlight, hupHeld] at hup
  rw [hdownFlight, hdownHeld] at hdown
  rw [h.node] at hhand
  exact ⟨eq_nil_of_frames_eq_nil hup.symm, eq_nil_of_frames_eq_nil hdown.symm, hhand⟩

end Results

end BlackCat.RpcBytes
