import BlackCat.RpcReassembly
import BlackCat.RpcSystem
import BlackCat.RpcWire

/-!
The RPC system on bytes. A link is a stream of bytes with the receiver's
`recv_buf_` at its end; messages are encoded into it, and a read takes any part
of what is in flight, shows the callback the whole buffer and dispatches what
the callback extracts. Reads of all links interleave with the other steps. The
read that brings the proxy's buffer to the receive limit drops the bytes and
shuts the connection down; runs are followed up to the first such read. No other
operation fails. The system is stated for any kind of connection on which
messages can be sent and read, so that it can be run on the handlers of
`TcpConnection` as well.
-/
namespace BlackCat.RpcBytes

open ByteMemory LengthFrames ServerCommon Codec RpcMessages RpcTask RpcService ConnMgr RpcWire
open TcpConnection (Arrival onRead)
open RpcSystem (Deployment Call Node)

/-- One direction of a connection: the bytes sent and not yet received, and the
receiving `TcpConnection`. -/
structure Link where
  inFlight : List Byte
  receiver : TcpConnection.State

/-- `Send`: the encoded message follows what was sent before. -/
def Link.send (link : Link) (packet : Packet) : Link :=
  { link with inFlight := link.inFlight ++ encode rpcPool.protobuf (packetMessage packet) }

/-- One direction of a connection as the system uses it: a message is sent, a read
takes a part of what is in flight, and the connection may take steps of its own. -/
class Connection (L : Type) where
  fresh : L
  send : L → Packet → L
  inFlight : L → List Byte
  receiver : L → TcpConnection.State
  received : L → List Byte → TcpConnection.State → L
  Moves : L → L → Prop

instance : Connection Link where
  fresh := ⟨[], TcpConnection.fresh⟩
  send := Link.send
  inFlight := Link.inFlight
  receiver := Link.receiver
  received _ rest receiver := ⟨rest, receiver⟩
  Moves _ _ := False

structure State (P τ : Type*) (L : Type) where
  mgr : Registry P
  up : P → L
  down : P → L
  node : P → Node τ

variable {P τ : Type*} {L : Type} [Connection L]

def initial : State P τ L where
  mgr := empty
  up _ := Connection.fresh
  down _ := Connection.fresh
  node _ := ⟨RpcService.fresh, false, none, [], []⟩

variable [DecidableEq P] (d : Deployment P)

def sendOn (links : P → L) (p : P) (packet : Packet) : P → L :=
  Function.update links p (Connection.send (links p) packet)

def State.connect (s : State P τ L) (p : P) : State P τ L :=
  { s with
    up := sendOn s.up p (onConnected (d.name p))
    node := Function.update s.node p { s.node p with connected := true } }

def State.register (s : State P τ L) (p : P) (typeName : String) (func : RpcCallback) :
    State P τ L :=
  { s with
    node := Function.update s.node p
      { s.node p with provider := RpcService.register (s.node p).provider typeName func } }

def State.call (s : State P τ L) (p : P) (thread : τ) (service requestName : String)
    (requestBody : List Byte) (cbId : UInt64) : State P τ L :=
  let cb : Call τ := ⟨thread, service, (s.node p).calls.length⟩
  let called := RpcService.call (d.name p) (s.node p).provider service requestName requestBody
    cb cbId
  { s with
    up := sendOn s.up p called.2
    node := Function.update s.node p
      { s.node p with provider := called.1, calls := (s.node p).calls ++ [cb] } }

def State.proxyHandle (s : State P τ L) (p : P) (packet : Packet) : State P τ L :=
  let handled := RpcProxyServer.dispatch d.getId s.mgr p packet
  { s with
    mgr := handled.1
    down := match handled.2 with
      | none => s.down
      | some sent => sendOn s.down sent.1 sent.2 }

/-- The proxy's `Dispatch`: what is not decoded, or has no handler, is dropped. -/
def State.proxyDispatch (s : State P τ L) (p : P) (msg : List Byte) : State P τ L :=
  (decodePacket msg).elim s fun packet => s.proxyHandle d p packet

theorem State.proxyDispatch_of_decode (s : State P τ L) (p : P) {msg : List Byte} {packet : Packet}
    (h : decodePacket msg = some packet) :
    s.proxyDispatch d p msg = s.proxyHandle d p packet := by
  rw [State.proxyDispatch, h, Option.elim_some]

/-- A read at the proxy, from p, after which the link is as given. -/
def State.proxyRead (s : State P τ L) (p : P) (link : L) (messages : List (List Byte)) :
    State P τ L :=
  messages.foldl (fun s msg => s.proxyDispatch d p msg)
    { s with up := Function.update s.up p link }

theorem State.up_proxyRead (s : State P τ L) (p : P) (link : L) (messages : List (List Byte)) :
    (s.proxyRead d p link messages).up = Function.update s.up p link := by
  have hdispatch : ∀ t : State P τ L, ∀ msg, (t.proxyDispatch d p msg).up = t.up := by
    intro t msg
    unfold State.proxyDispatch
    cases decodePacket msg with
    | none => rfl
    | some packet => rfl
  have hfold : ∀ t : State P τ L,
      (messages.foldl (fun s msg => s.proxyDispatch d p msg) t).up = t.up := by
    induction messages with
    | nil => exact fun t => rfl
    | cons msg messages ih =>
      intro t
      rw [List.foldl_cons, ih, hdispatch]
  rw [State.proxyRead, hfold]

def State.providerHandle (s : State P τ L) (p : P) (packet : Packet) : State P τ L :=
  let handled := RpcService.dispatch (d.name p) (s.node p).provider packet
  { s with
    node := Function.update s.node p
      { s.node p with
        provider := handled.1
        invoked := (s.node p).invoked ++ handled.2.toList } }

def State.providerDispatch (s : State P τ L) (p : P) (msg : List Byte) : State P τ L :=
  (decodePacket msg).elim s fun packet => s.providerHandle d p packet

omit [Connection L] in
theorem State.providerDispatch_of_decode (s : State P τ L) (p : P) {msg : List Byte}
    {packet : Packet} (h : decodePacket msg = some packet) :
    s.providerDispatch d p msg = s.providerHandle d p packet := by
  rw [State.providerDispatch, h, Option.elim_some]

def State.providerRead (s : State P τ L) (p : P) (link : L) (messages : List (List Byte)) :
    State P τ L :=
  messages.foldl (fun s msg => s.providerDispatch d p msg)
    { s with down := Function.update s.down p link }

def State.pop (s : State P τ L) (p : P) (taskMgr : RpcTaskMgr RpcRequest) (task : RpcRequest)
    (goOn : Bool) : State P τ L :=
  { s with
    node := Function.update s.node p
      { s.node p with
        provider := { (s.node p).provider with taskMgr := taskMgr }
        running := if goOn then some task else none } }

def State.execute (s : State P τ L) (p : P) (request : RpcRequest) : State P τ L :=
  { s with
    up := sendOn s.up p (.response (handler (s.node p).provider request))
    node := Function.update s.node p { s.node p with running := none } }

/-- A read takes at most the socket's buffer. Providers send packets that protobuf
parses. -/
inductive Step (s : State P τ L) : State P τ L → Prop
  | connect (p : P) : (s.node p).connected = false → ShortPacket (onConnected (d.name p)) →
      Step s (s.connect d p)
  | register (p : P) (typeName : String) (func : RpcCallback) :
      Step s (s.register p typeName func)
  | call (p : P) (thread : τ) (service requestName : String) (requestBody : List Byte)
      (cbId : UInt64) : (s.node p).connected = true →
      (s.node p).provider.callbackMap cbId = none →
      ShortPacket (sendRequestToServer (d.name p) service requestName requestBody cbId) →
      Step s (s.call d p thread service requestName requestBody cbId)
  | proxyRead (p : P) (arrival : Arrival) (rest : List Byte) (n : ℕ)
      (receiver : TcpConnection.State) (messages : List (List Byte)) :
      Connection.inFlight (s.up p) = arrival.bytes ++ rest →
      (arrival.bytes.length : ℤ) ≤ maxRecvBuf →
      onRead Dispatcher.RpcProxyServer.onRead n (Connection.receiver (s.up p)) arrival =
        some (.ok (receiver, messages)) →
      Step s (s.proxyRead d p (Connection.received (s.up p) rest receiver) messages)
  | providerRead (p : P) (arrival : Arrival) (rest : List Byte) (n : ℕ)
      (receiver : TcpConnection.State) (messages : List (List Byte)) :
      Connection.inFlight (s.down p) = arrival.bytes ++ rest →
      (arrival.bytes.length : ℤ) ≤ maxRecvBuf →
      onRead Dispatcher.RpcServiceProvider.onRead n (Connection.receiver (s.down p)) arrival =
        some (.ok (receiver, messages)) →
      Step s (s.providerRead d p (Connection.received (s.down p) rest receiver) messages)
  | pop (p : P) (taskMgr : RpcTaskMgr RpcRequest) (task : RpcRequest) (goOn : Bool) :
      (s.node p).running = none →
      RpcTask.pop (s.node p).provider.taskMgr = (taskMgr, .took task goOn) →
      Step s (s.pop p taskMgr task goOn)
  | execute (p : P) (request : RpcRequest) : (s.node p).running = some request →
      ShortPacket (.response (handler (s.node p).provider request)) → Step s (s.execute p request)
  | up (p : P) (link : L) : Connection.Moves (s.up p) link →
      Step s { s with up := Function.update s.up p link }
  | down (p : P) (link : L) : Connection.Moves (s.down p) link →
      Step s { s with down := Function.update s.down p link }

/-- The proxy has shut no connection down. -/
def State.Up (s : State P τ L) : Prop := ∀ p, (Connection.receiver (s.up p)).socketOpen = true

/-- What is reached before, or by, the first read that shuts a connection down. -/
inductive Reachable : State P τ L → Prop
  | initial : Reachable initial
  | step {s t : State P τ L} : Reachable s → s.Up → Step d s t → Reachable t

end BlackCat.RpcBytes
