import BlackCat.RpcBytesRefinement
import BlackCat.TcpChannel

/-!
The RPC system on the handlers of `TcpConnection`. A kind of connection may be
seen as another, plainer one if every step of its own leaves the view as it is
and sends and reads are those of the plainer kind; then so may whole systems. On
the view of channels as streams of bytes this puts the handlers below the system
on bytes, and every run on bytes is the view of some run of the handlers.
-/
namespace BlackCat.RpcBytes

open ByteMemory ServerCommon RpcMessages RpcTask RpcService ConnMgr RpcWire
open TcpConnection (Arrival onRead)
open RpcSystem (Deployment Call Node)

/-- The view of a connection as one of another kind, while it is in good order. -/
structure Implements {K L : Type} [Connection K] [Connection L] (view : K → L)
    (Sound : K → Prop) : Prop where
  fresh : Sound Connection.fresh ∧ view Connection.fresh = Connection.fresh
  send (c : K) (packet : Packet) : Sound c → Sound (Connection.send c packet)
  view_send (c : K) (packet : Packet) :
    view (Connection.send c packet) = Connection.send (view c) packet
  receiver (c : K) : Connection.receiver (view c) = Connection.receiver c
  read (c : K) (bytes rest : List Byte) (receiver : TcpConnection.State) : Sound c →
    Connection.inFlight c = bytes ++ rest → Sound (Connection.received c rest receiver) ∧
      ∃ rest', Connection.inFlight (view c) = bytes ++ rest' ∧
        view (Connection.received c rest receiver) =
          Connection.received (view c) rest' receiver
  moves (c c' : K) : Sound c → Connection.Moves c c' → Sound c' ∧ view c' = view c

section Views

variable {P τ : Type*} {K L : Type} [Connection K] [Connection L]

def State.map (view : K → L) (s : State P τ K) : State P τ L :=
  ⟨s.mgr, fun p => view (s.up p), fun p => view (s.down p), s.node⟩

variable [DecidableEq P] {d : Deployment P} {view : K → L} {Sound : K → Prop}

omit [Connection K] [Connection L] in
theorem map_update_of_eq (links : P → K) (p : P) {link : K} (h : view link = view (links p)) :
    (fun r => view (Function.update links p link r)) = fun r => view (links r) := by
  have hupdate := Function.comp_update view links p link
  rw [h] at hupdate
  exact hupdate.trans (Function.update_eq_self p _)

theorem Implements.map_sendOn (h : Implements view Sound) (links : P → K) (p : P)
    (packet : Packet) :
    (fun r => view (sendOn links p packet r)) = sendOn (fun r => view (links r)) p packet := by
  have hupdate := Function.comp_update view links p (Connection.send (links p) packet)
  rw [h.view_send] at hupdate
  exact hupdate

theorem Implements.map_connect (h : Implements view Sound) (s : State P τ K) (p : P) :
    (s.connect d p).map view = (s.map view).connect d p := by
  simp only [State.map, State.connect, h.map_sendOn]

theorem Implements.map_call (h : Implements view Sound) (s : State P τ K) (p : P) (thread : τ)
    (service requestName : String) (requestBody : List Byte) (cbId : UInt64) :
    (s.call d p thread service requestName requestBody cbId).map view =
      (s.map view).call d p thread service requestName requestBody cbId := by
  simp only [State.map, State.call, h.map_sendOn]

theorem Implements.map_execute (h : Implements view Sound) (s : State P τ K) (p : P)
    (request : RpcRequest) : (s.execute p request).map view =
      (s.map view).execute p request := by
  simp only [State.map, State.execute, h.map_sendOn]

theorem Implements.map_proxyHandle (h : Implements view Sound) (s : State P τ K) (p : P)
    (packet : Packet) : (s.proxyHandle d p packet).map view =
      (s.map view).proxyHandle d p packet := by
  unfold State.proxyHandle State.map
  dsimp only
  cases (RpcProxyServer.dispatch d.getId s.mgr p packet).2 with
  | none => rfl
  | some sent => simp only [h.map_sendOn]

theorem Implements.map_proxyDispatch (h : Implements view Sound) (s : State P τ K) (p : P)
    (msg : List Byte) : (s.proxyDispatch d p msg).map view =
      (s.map view).proxyDispatch d p msg := by
  unfold State.proxyDispatch
  cases decodePacket msg with
  | none => rfl
  | some packet => exact h.map_proxyHandle s p packet

omit [Connection K] [Connection L] in
theorem map_providerDispatch (s : State P τ K) (p : P) (msg : List Byte) :
    (s.providerDispatch d p msg).map view = (s.map view).providerDispatch d p msg := by
  unfold State.providerDispatch
  cases decodePacket msg with
  | none => rfl
  | some packet => rfl

theorem Implements.map_proxyRead (h : Implements view Sound) (s : State P τ K) (p : P) (link : K)
    (messages : List (List Byte)) : (s.proxyRead d p link messages).map view =
      (s.map view).proxyRead d p (view link) messages := by
  have hlink : ({ s with up := Function.update s.up p link } : State P τ K).map view =
      { s.map view with up := Function.update (s.map view).up p (view link) } := by
    simp only [State.map, State.mk.injEq, true_and, and_true]
    exact Function.comp_update view s.up p link
  rw [State.proxyRead, State.proxyRead, ← hlink]
  generalize { s with up := Function.update s.up p link } = s
  induction messages generalizing s with
  | nil => rfl
  | cons msg messages ih => rw [List.foldl_cons, List.foldl_cons, ih, h.map_proxyDispatch]

omit [Connection K] [Connection L] in
theorem map_providerRead (s : State P τ K) (p : P) (link : K) (messages : List (List Byte)) :
    (s.providerRead d p link messages).map view =
      (s.map view).providerRead d p (view link) messages := by
  have hlink : ({ s with down := Function.update s.down p link } : State P τ K).map view =
      { s.map view with down := Function.update (s.map view).down p (view link) } := by
    simp only [State.map, State.mk.injEq, true_and, and_true]
    exact Function.comp_update view s.down p link
  rw [State.providerRead, State.providerRead, ← hlink]
  generalize { s with down := Function.update s.down p link } = s
  induction messages generalizing s with
  | nil => rfl
  | cons msg messages ih => rw [List.foldl_cons, List.foldl_cons, ih, map_providerDispatch]

/-- All connections are in good order. -/
def AllSound (Sound : K → Prop) (s : State P τ K) : Prop :=
  ∀ p, Sound (s.up p) ∧ Sound (s.down p)

omit [Connection K] [Connection L] in
theorem sound_update {links : P → K} (h : ∀ p, Sound (links p)) (p : P) {link : K}
    (hlink : Sound link) (r : P) : Sound (Function.update links p link r) := by
  by_cases hr : r = p
  · subst r
    rwa [Function.update_self]
  · rw [Function.update_of_ne hr]
    exact h r

theorem Implements.sound_sendOn (h : Implements view Sound) {links : P → K}
    (hsound : ∀ p, Sound (links p)) (p : P) (packet : Packet) (r : P) :
    Sound (sendOn links p packet r) :=
  sound_update hsound p (h.send _ packet (hsound p)) r

theorem Implements.sound_proxyDispatch (h : Implements view Sound) {s : State P τ K}
    (hsound : AllSound Sound s) (p : P) (msg : List Byte) :
    AllSound Sound (s.proxyDispatch d p msg) := by
  unfold State.proxyDispatch
  cases decodePacket msg with
  | none => exact hsound
  | some packet =>
    intro r
    refine ⟨(hsound r).1, ?_⟩
    simp only [Option.elim_some, State.proxyHandle]
    cases (RpcProxyServer.dispatch d.getId s.mgr p packet).2 with
    | none => exact (hsound r).2
    | some sent => exact h.sound_sendOn (fun p => (hsound p).2) sent.1 sent.2 r

theorem Implements.sound_proxyRead (h : Implements view Sound) {s : State P τ K}
    (hsound : AllSound Sound s) (p : P) {link : K} (hlink : Sound link)
    (messages : List (List Byte)) : AllSound Sound (s.proxyRead d p link messages) := by
  have hread : AllSound Sound { s with up := Function.update s.up p link } := fun r =>
    ⟨sound_update (fun p => (hsound p).1) p hlink r, (hsound r).2⟩
  unfold State.proxyRead
  clear hsound
  generalize { s with up := Function.update s.up p link } = s at *
  induction messages generalizing s with
  | nil => exact hread
  | cons msg messages ih =>
    rw [List.foldl_cons]
    exact ih _ (h.sound_proxyDispatch hread p msg)

omit [Connection K] in
theorem sound_providerRead {s : State P τ K} (hsound : AllSound Sound s) (p : P) {link : K}
    (hlink : Sound link) (messages : List (List Byte)) :
    AllSound Sound (s.providerRead d p link messages) := by
  have hread : AllSound Sound { s with down := Function.update s.down p link } := fun r =>
    ⟨(hsound r).1, sound_update (fun p => (hsound p).2) p hlink r⟩
  unfold State.providerRead
  clear hsound
  generalize { s with down := Function.update s.down p link } = s at *
  induction messages generalizing s with
  | nil => exact hread
  | cons msg messages ih =>
    rw [List.foldl_cons]
    refine ih _ ?_
    unfold State.providerDispatch
    cases decodePacket msg with
    | none => exact hread
    | some packet => exact hread

omit [DecidableEq P] in
theorem Implements.up_map (h : Implements view Sound) (s : State P τ K) :
    (s.map view).Up ↔ s.Up := by
  refine forall_congr' fun p => ?_
  rw [← h.receiver (s.up p)]
  rfl

theorem Reachable.map (h : Implements view Sound) {s : State P τ K} (hreach : Reachable d s) :
    AllSound Sound s ∧ Reachable d (s.map view) := by
  induction hreach with
  | initial =>
    have hinitial : (RpcBytes.initial : State P τ K).map view = RpcBytes.initial := by
      simp only [State.map, RpcBytes.initial, h.fresh.2]
    rw [hinitial]
    exact ⟨fun _ => ⟨h.fresh.1, h.fresh.1⟩, .initial⟩
  | @step s t _ hopened hstep ih =>
    obtain ⟨hsound, hview⟩ := ih
    have hups := fun p => (hsound p).1
    have hnext := fun u => hview.step (t := u) ((h.up_map s).mpr hopened)
    cases hstep with
    | connect p hconnected hsmall =>
      rw [h.map_connect]
      exact ⟨fun r => ⟨h.sound_sendOn hups p _ r, (hsound r).2⟩,
        hnext _ (.connect p hconnected hsmall)⟩
    | register p typeName func => exact ⟨hsound, hnext _ (.register p typeName func)⟩
    | call p thread service requestName requestBody cbId hconnected hfree hsmall =>
      rw [h.map_call]
      exact ⟨fun r => ⟨h.sound_sendOn hups p _ r, (hsound r).2⟩, hnext _
        (.call p thread service requestName requestBody cbId hconnected hfree hsmall)⟩
    | proxyRead p arrival rest n receiver messages hbytes hshort hread =>
      obtain ⟨hlink, rest', hview', hreceived⟩ := h.read _ _ _ receiver (hsound p).1 hbytes
      rw [h.map_proxyRead, hreceived]
      rw [← h.receiver] at hread
      exact ⟨h.sound_proxyRead hsound p hlink messages,
        hnext _ (.proxyRead p arrival rest' n receiver messages hview' hshort hread)⟩
    | providerRead p arrival rest n receiver messages hbytes hshort hread =>
      obtain ⟨hlink, rest', hview', hreceived⟩ := h.read _ _ _ receiver (hsound p).2 hbytes
      rw [map_providerRead, hreceived]
      rw [← h.receiver] at hread
      exact ⟨sound_providerRead hsound p hlink messages,
        hnext _ (.providerRead p arrival rest' n receiver messages hview' hshort hread)⟩
    | pop p taskMgr task goOn hidle hpop =>
      exact ⟨hsound, hnext _ (.pop p taskMgr task goOn hidle hpop)⟩
    | execute p request hrunning hsmall =>
      rw [h.map_execute]
      exact ⟨fun r => ⟨h.sound_sendOn hups p _ r, (hsound r).2⟩,
        hnext _ (.execute p request hrunning hsmall)⟩
    | up p link hmoves =>
      obtain ⟨hlink, hsame⟩ := h.moves _ _ (hsound p).1 hmoves
      have hmap : ({ s with up := Function.update s.up p link } : State P τ K).map view =
          s.map view := by simp only [State.map, map_update_of_eq s.up p hsame]
      rw [hmap]
      exact ⟨fun r => ⟨sound_update hups p hlink r, (hsound r).2⟩, hview⟩
    | down p link hmoves =>
      obtain ⟨hlink, hsame⟩ := h.moves _ _ (hsound p).2 hmoves
      have hmap : ({ s with down := Function.update s.down p link } : State P τ K).map view =
          s.map view := by simp only [State.map, map_update_of_eq s.down p hsame]
      rw [hmap]
      exact ⟨fun r => ⟨(hsound r).1, sound_update (fun p => (hsound p).2) p hlink r⟩, hview⟩

end Views

section Handlers

open TcpChannel (Channel)
open Descents (Run exists_final)

theorem implements_link : Implements Channel.link Channel.Sound where
  fresh := ⟨Channel.sound_fresh, rfl⟩
  send _ packet h := h.send packet
  view_send c packet := Channel.link_send c packet
  receiver _ := rfl
  read c bytes rest receiver h hbytes := by
    refine ⟨⟨h.sync, h.connected, h.live, h.buffers, h.posts, h.taken_le⟩, rest ++ c.unsent, ?_,
      rfl⟩
    change c.inFlight ++ c.unsent = bytes ++ (rest ++ c.unsent)
    change c.inFlight = bytes ++ rest at hbytes
    rw [hbytes, List.append_assoc]
  moves _ _ h hmoves := h.moves hmoves

theorem exists_flushed {c : Channel} (h : c.Sound) :
    ∃ n c', Run Channel.Moves n c c' ∧ c'.link = c.link ∧ c'.unsent = [] := by
  let moves : Channel → Channel → Prop := fun c c' => c.Sound ∧ c.Moves c'
  have hless : ∀ c c' : Channel, moves c c' → c'.work < c.work :=
    fun _ _ hmoves => hmoves.1.work_lt hmoves.2
  obtain ⟨n, c', hrun, hfinal⟩ := exists_final hless c
  have hkeep : ∀ s t : Channel, moves s t → s.Sound ∧ s.link = c.link →
      t.Sound ∧ t.link = c.link := by
    intro s t hmoves hs
    obtain ⟨hsound, hlink⟩ := hs.1.moves hmoves.2
    exact ⟨hsound, hlink.trans hs.2⟩
  have hkept : c'.Sound ∧ c'.link = c.link := hrun.invariant hkeep ⟨h, rfl⟩
  exact ⟨n, c', hrun.mono fun _ _ hmoves => hmoves.2, hkept.2,
    hkept.1.flushed fun next hmoves => hfinal next ⟨hkept.1, hmoves⟩⟩

variable {P τ : Type*} [DecidableEq P] {d : Deployment P}

theorem receiver_of_moves {c c' : Channel} (h : c.Moves c') : c'.receiver = c.receiver := by
  cases h <;> rfl

omit [DecidableEq P] in
theorem up_of_receiver {s t : State P τ Channel} (hup : s.Up)
    (h : ∀ p, (t.up p).receiver = (s.up p).receiver) : t.Up := by
  intro p
  have hopen := hup p
  change (s.up p).receiver.socketOpen = true at hopen
  rw [← h p] at hopen
  exact hopen

theorem receiver_update {links : P → Channel} (p : P) {c : Channel}
    (hc : c.receiver = (links p).receiver) (r : P) :
    (Function.update links p c r).receiver = (links r).receiver := by
  by_cases hr : r = p
  · subst r
    rw [Function.update_self, hc]
  · rw [Function.update_of_ne hr]

theorem Reachable.up_run {s : State P τ Channel} (h : Reachable d s) (hup : s.Up) (p : P) {n : ℕ}
    {c c' : Channel} (hc : s.up p = c) (hrun : Run Channel.Moves n c c') :
    Reachable d { s with up := Function.update s.up p c' } := by
  induction hrun generalizing s with
  | refl c =>
    rw [← hc, Function.update_eq_self]
    exact h
  | head hfirst _ ih =>
    have hnext := h.step hup (.up p _ (hc ▸ hfirst))
    have hsame := receiver_of_moves hfirst
    rw [← hc] at hsame
    have hlast := ih hnext (up_of_receiver hup (receiver_update p hsame))
      (Function.update_self _ _ _)
    rwa [Function.update_idem] at hlast

theorem Reachable.down_run {s : State P τ Channel} (h : Reachable d s) (hup : s.Up) (p : P)
    {n : ℕ} {c c' : Channel} (hc : s.down p = c) (hrun : Run Channel.Moves n c c') :
    Reachable d { s with down := Function.update s.down p c' } := by
  induction hrun generalizing s with
  | refl c =>
    rw [← hc, Function.update_eq_self]
    exact h
  | head hfirst _ ih =>
    have hnext := h.step hup (.down p _ (hc ▸ hfirst))
    have hlast := ih hnext hup (Function.update_self _ _ _)
    rwa [Function.update_idem] at hlast

theorem inFlight_of_flushed {c c' : Channel} (hlink : c'.link = c.link)
    (hunsent : c'.unsent = []) : c'.inFlight = c.link.inFlight := by
  rw [← hlink, Channel.link, hunsent, List.append_nil]

theorem link_received {c : Channel} (hunsent : c.unsent = []) (rest : List Byte)
    (receiver : TcpConnection.State) :
    (Connection.received c rest receiver).link = ⟨rest, receiver⟩ := by
  change Link.mk (rest ++ c.unsent) receiver = ⟨rest, receiver⟩
  rw [hunsent, List.append_nil]

/-- Every run on bytes is the view of a run of the handlers, which bring everything
on its way before each read. -/
theorem exists_handlers {b : State P τ Link} (h : Reachable d b) :
    ∃ s : State P τ Channel, Reachable d s ∧ s.map Channel.link = b := by
  induction h with
  | initial => exact ⟨RpcBytes.initial, .initial, rfl⟩
  | @step b t _ hopened hstep ih =>
    obtain ⟨s, hreach, rfl⟩ := ih
    have hsound := (hreach.map implements_link).1
    have hup := (implements_link.up_map s).mp hopened
    cases hstep with
    | connect p hconnected hsmall =>
      exact ⟨_, hreach.step hup (.connect p hconnected hsmall), implements_link.map_connect s p⟩
    | register p typeName func => exact ⟨_, hreach.step hup (.register p typeName func), rfl⟩
    | call p thread service requestName requestBody cbId hconnected hfree hsmall =>
      exact ⟨_, hreach.step hup
        (.call p thread service requestName requestBody cbId hconnected hfree hsmall),
        implements_link.map_call s p thread service requestName requestBody cbId⟩
    | proxyRead p arrival rest n receiver messages hbytes hshort hread =>
      obtain ⟨k, c, hrun, hlink, hunsent⟩ := exists_flushed (hsound p).1
      have hready := hreach.up_run hup p rfl hrun
      have hself : ({ s with up := Function.update s.up p c } : State P τ Channel).up p = c :=
        Function.update_self _ _ _
      have hflight : c.inFlight = arrival.bytes ++ rest :=
        (inFlight_of_flushed hlink hunsent).trans hbytes
      have hreceiver : c.receiver = (s.up p).receiver := congrArg Link.receiver hlink
      have hmap : ({ s with up := Function.update s.up p c } : State P τ Channel).map
          Channel.link = s.map Channel.link := by
        simp only [State.map, map_update_of_eq s.up p hlink]
      have hopen := up_of_receiver (t := { s with up := Function.update s.up p c }) hup
        (receiver_update p hreceiver)
      refine ⟨_, hready.step hopen
        (.proxyRead p arrival rest n receiver messages ?_ hshort ?_), ?_⟩
      · rw [hself]
        exact hflight
      · rw [hself]
        change onRead _ n c.receiver arrival = _
        rw [hreceiver]
        exact hread
      · rw [implements_link.map_proxyRead, hmap, hself, link_received hunsent]
        rfl
    | providerRead p arrival rest n receiver messages hbytes hshort hread =>
      obtain ⟨k, c, hrun, hlink, hunsent⟩ := exists_flushed (hsound p).2
      have hready := hreach.down_run hup p rfl hrun
      have hself : ({ s with down := Function.update s.down p c } : State P τ Channel).down p = c :=
        Function.update_self _ _ _
      have hflight : c.inFlight = arrival.bytes ++ rest :=
        (inFlight_of_flushed hlink hunsent).trans hbytes
      have hreceiver : c.receiver = (s.down p).receiver := congrArg Link.receiver hlink
      have hmap : ({ s with down := Function.update s.down p c } : State P τ Channel).map
          Channel.link = s.map Channel.link := by
        simp only [State.map, map_update_of_eq s.down p hlink]
      refine ⟨_, hready.step hup
        (.providerRead p arrival rest n receiver messages ?_ hshort ?_), ?_⟩
      · rw [hself]
        exact hflight
      · rw [hself]
        change onRead _ n c.receiver arrival = _
        rw [hreceiver]
        exact hread
      · rw [map_providerRead, hmap, hself, link_received hunsent]
        rfl
    | pop p taskMgr task goOn hidle hpop =>
      exact ⟨_, hreach.step hup (.pop p taskMgr task goOn hidle hpop), rfl⟩
    | execute p request hrunning hsmall =>
      exact ⟨_, hreach.step hup (.execute p request hrunning hsmall),
        implements_link.map_execute s p request⟩
    | up p link hmoves => exact hmoves.elim
    | down p link hmoves => exact hmoves.elim

/-- The system on bytes is the view of the system on the handlers of `TcpConnection`. -/
theorem reachable_iff_handlers (b : State P τ Link) :
    Reachable d b ↔ ∃ s : State P τ Channel, Reachable d s ∧ s.map Channel.link = b := by
  constructor
  · exact exists_handlers
  · rintro ⟨s, hreach, rfl⟩
    exact (hreach.map implements_link).2

/-- Nothing is posted, queued, outstanding, in flight or held back, and no provider has
a task. -/
def Settled (s : State P τ Channel) : Prop :=
  ∀ p, ((s.up p).posted = [] ∧ (s.up p).sender.sendBuf = [] ∧ (s.up p).inFlight = [] ∧
      (s.up p).receiver.recvBuf = []) ∧
    ((s.down p).posted = [] ∧ (s.down p).sender.sendBuf = [] ∧ (s.down p).inFlight = [] ∧
      (s.down p).receiver.recvBuf = []) ∧ (s.node p).inHand = []

end Handlers

end BlackCat.RpcBytes
