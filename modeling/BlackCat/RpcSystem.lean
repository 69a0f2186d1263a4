import BlackCat.Queues
import BlackCat.RpcProxyServer
import BlackCat.RpcService

/-!
The proxy and its providers as one system. Links are queues of packets, one up
to the proxy and one down from it for each provider. A step is a connect, a
call, the handling of the first packet of a link, or half a round of a task
runner; they interleave freely. Connections stay up and no provider is stopped.
-/
namespace BlackCat.RpcSystem

open ByteMemory Queues RpcMessages RpcTask RpcService ConnMgr

/-- Providers under pairwise distinct, non-empty names, and the ids of their
connections at the proxy. -/
structure Deployment (P : Type*) where
  name : P → String
  getId : P → UInt32
  distinct : Function.Injective name
  named : ∀ p, name p ≠ ""

/-- One `Call`: its thread, the service, and its number among the calls of its
provider, which tells its callback from all others. -/
structure Call (τ : Type*) where
  thread : τ
  service : String
  serial : ℕ
  deriving DecidableEq, Repr

/-- A provider, whether it has connected, the task its runner is in, its calls so
far and the callbacks invoked so far. -/
structure Node (τ : Type*) where
  provider : RpcServiceProvider (Call τ)
  connected : Bool
  running : Option RpcRequest
  calls : List (Call τ)
  invoked : List (Call τ × RpcResult)

structure State (P τ : Type*) where
  mgr : Registry P
  up : P → List Packet
  down : P → List Packet
  node : P → Node τ

variable {P τ : Type*}

def initial : State P τ where
  mgr := empty
  up _ := []
  down _ := []
  node _ := ⟨RpcService.fresh, false, none, [], []⟩

variable [DecidableEq P] (d : Deployment P)

def State.connect (s : State P τ) (p : P) : State P τ :=
  { s with
    up := put s.up p (onConnected (d.name p))
    node := Function.update s.node p { s.node p with connected := true } }

def State.register (s : State P τ) (p : P) (typeName : String) (func : RpcCallback) :
    State P τ :=
  { s with
    node := Function.update s.node p
      { s.node p with provider := RpcService.register (s.node p).provider typeName func } }

def State.call (s : State P τ) (p : P) (thread : τ) (service requestName : String)
    (requestBody : List Byte) (cbId : UInt64) : State P τ :=
  let cb : Call τ := ⟨thread, service, (s.node p).calls.length⟩
  let called := RpcService.call (d.name p) (s.node p).provider service requestName requestBody
    cb cbId
  { s with
    up := put s.up p called.2
    node := Function.update s.node p
      { s.node p with provider := called.1, calls := (s.node p).calls ++ [cb] } }

/-- The proxy handles a packet from p; at most one packet is sent for it. -/
def State.proxyRead (s : State P τ) (p : P) (packet : Packet) (rest : List Packet) :
    State P τ :=
  let handled := RpcProxyServer.dispatch d.getId s.mgr p packet
  { s with
    mgr := handled.1
    up := Function.update s.up p rest
    down := match handled.2 with
      | none => s.down
      | some sent => put s.down sent.1 sent.2 }

/-- The proxy takes a packet from p and sends one to q for it. -/
def State.relay (s : State P τ) (p q : P) (packet : Packet) (rest : List Packet) : State P τ :=
  { s with up := Function.update s.up p rest, down := put s.down q packet }

/-- The proxy answers a request of p itself, with an error. -/
def State.refuse (s : State P τ) (p : P) (request : RpcRequest) (rest : List Packet) :
    State P τ :=
  { s with
    up := Function.update s.up p rest
    down := put s.down p (.response (request.respond
      (RpcError.result ⟨request.serviceName ++ " is not online now"⟩))) }

theorem proxyRead_offline (s : State P τ) (p : P) (request : RpcRequest) (rest : List Packet)
    (hdst : getConn s.mgr request.serviceName = none) :
    s.proxyRead d p (.request request) rest = s.refuse p request rest := by
  simp only [State.proxyRead, State.refuse, RpcProxyServer.dispatch,
    RpcProxyServer.handleRpcRequest, hdst]

theorem proxyRead_online (s : State P τ) (p q : P) (request : RpcRequest) (rest : List Packet)
    (hdst : getConn s.mgr request.serviceName = some q) :
    s.proxyRead d p (.request request) rest = s.relay p q (.request request) rest := by
  simp only [State.proxyRead, State.relay, RpcProxyServer.dispatch,
    RpcProxyServer.handleRpcRequest, hdst]

theorem proxyRead_back (s : State P τ) (p q : P) (response : RpcResponse) (rest : List Packet)
    (hdst : getConn s.mgr response.requestor = some q) :
    s.proxyRead d p (.response response) rest = s.relay p q (.response response) rest := by
  simp only [State.proxyRead, State.relay, RpcProxyServer.dispatch,
    RpcProxyServer.handleRpcResponse, hdst]

theorem proxyRead_nobody (s : State P τ) (p : P) (response : RpcResponse) (rest : List Packet)
    (hdst : getConn s.mgr response.requestor = none) :
    s.proxyRead d p (.response response) rest = { s with up := Function.update s.up p rest } := by
  simp only [State.proxyRead, RpcProxyServer.dispatch, RpcProxyServer.handleRpcResponse, hdst]

/-- The network thread of p handles a packet. -/
def State.providerRead (s : State P τ) (p : P) (packet : Packet) (rest : List Packet) :
    State P τ :=
  let handled := RpcService.dispatch (d.name p) (s.node p).provider packet
  { s with
    down := Function.update s.down p rest
    node := Function.update s.node p
      { s.node p with
        provider := handled.1
        invoked := (s.node p).invoked ++ handled.2.toList } }

/-- The task runner of p takes a task, and runs it if `Pop` says so. -/
def State.pop (s : State P τ) (p : P) (taskMgr : RpcTaskMgr RpcRequest) (task : RpcRequest)
    (goOn : Bool) : State P τ :=
  { s with
    node := Function.update s.node p
      { s.node p with
        provider := { (s.node p).provider with taskMgr := taskMgr }
        running := if goOn then some task else none } }

/-- The task runner of p finishes its task, which sends the response. -/
def State.execute (s : State P τ) (p : P) (request : RpcRequest) : State P τ :=
  { s with
    up := put s.up p (.response (handler (s.node p).provider request))
    node := Function.update s.node p { s.node p with running := none } }

/-- A provider calls only once it has connected, under an id that is not in its
`callback_map_`. -/
inductive Step (s : State P τ) : State P τ → Prop
  | connect (p : P) : (s.node p).connected = false → Step s (s.connect d p)
  | register (p : P) (typeName : String) (func : RpcCallback) :
      Step s (s.register p typeName func)
  | call (p : P) (thread : τ) (service requestName : String) (requestBody : List Byte)
      (cbId : UInt64) : (s.node p).connected = true →
      (s.node p).provider.callbackMap cbId = none →
      Step s (s.call d p thread service requestName requestBody cbId)
  | proxyRead (p : P) (packet : Packet) (rest : List Packet) : s.up p = packet :: rest →
      Step s (s.proxyRead d p packet rest)
  | providerRead (p : P) (packet : Packet) (rest : List Packet) : s.down p = packet :: rest →
      Step s (s.providerRead d p packet rest)
  | pop (p : P) (taskMgr : RpcTaskMgr RpcRequest) (task : RpcRequest) (goOn : Bool) :
      (s.node p).running = none →
      RpcTask.pop (s.node p).provider.taskMgr = (taskMgr, .took task goOn) →
      Step s (s.pop p taskMgr task goOn)
  | execute (p : P) (request : RpcRequest) : (s.node p).running = some request →
      Step s (s.execute p request)

inductive Reachable : State P τ → Prop
  | initial : Reachable initial
  | step {s t : State P τ} : Reachable s → Step d s t → Reachable t

end BlackCat.RpcSystem
