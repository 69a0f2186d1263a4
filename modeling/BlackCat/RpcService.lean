import BlackCat.RpcMessages
import BlackCat.RpcTask
import Mathlib.Logic.Function.Basic

/-!
`RpcServiceProvider`: its calls, its message handlers and the tasks it pushes.
The member `name_` is fixed when a provider is constructed, so the functions
that read it take it as an argument.
-/
namespace BlackCat.RpcService

open ByteMemory RpcMessages RpcTask

/-- `RpcCallback::Execute` of a registered function. -/
abbrev RpcCallback := RpcRequest → RpcResult

/-- The members that the handlers change. The tasks of `task_mgr_` are the
requests bound to the handler; κ stands for the callbacks passed to `Call`. -/
structure RpcServiceProvider (κ : Type*) where
  functionMap : String → Option RpcCallback
  callbackMap : UInt64 → Option κ
  taskMgr : RpcTaskMgr RpcRequest

variable {κ : Type*}

def fresh : RpcServiceProvider κ := ⟨fun _ => none, fun _ => none, RpcTask.fresh⟩

def register (provider : RpcServiceProvider κ) (typeName : String) (func : RpcCallback) :
    RpcServiceProvider κ :=
  { provider with functionMap := Function.update provider.functionMap typeName (some func) }

def getCallbackFromName (provider : RpcServiceProvider κ) (name : String) : Option RpcCallback :=
  provider.functionMap name

def getCallbackFromId (provider : RpcServiceProvider κ) (id : UInt64) : Option κ :=
  provider.callbackMap id

def removeCallbackFromId (provider : RpcServiceProvider κ) (id : UInt64) :
    RpcServiceProvider κ :=
  { provider with callbackMap := Function.update provider.callbackMap id none }

/-- The packet that `SendRequestToServer` sends. -/
def sendRequestToServer (name service requestName : String) (requestBody : List Byte)
    (cbId : UInt64) : Packet :=
  .request ⟨service, name, cbId, requestName, requestBody⟩

/-- `Call`: the callback is registered under its address, then the request is sent. -/
def call (name : String) (provider : RpcServiceProvider κ) (service requestName : String)
    (requestBody : List Byte) (cb : κ) (cbId : UInt64) : RpcServiceProvider κ × Packet :=
  ({ provider with callbackMap := Function.update provider.callbackMap cbId (some cb) },
    sendRequestToServer name service requestName requestBody cbId)

/-- Requests for another service are dropped; for the others a task is pushed. -/
def handleRpcRequest (name : String) (provider : RpcServiceProvider κ) (request : RpcRequest) :
    RpcServiceProvider κ :=
  if request.serviceName ≠ name then provider
  else { provider with taskMgr := push provider.taskMgr request }

/-- The handler that the task of a request runs, and the response it sends. -/
def handler (provider : RpcServiceProvider κ) (request : RpcRequest) : RpcResponse :=
  match getCallbackFromName provider request.requestName with
  | none =>
    let err : RpcError := ⟨request.serviceName ++ " does not provide the `" ++
      request.requestName ++ "' service"⟩
    request.respond err.result
  | some func => request.respond (func request)

theorem exists_handler_eq (provider : RpcServiceProvider κ) (request : RpcRequest) :
    ∃ result, handler provider request = request.respond result := by
  unfold handler
  cases getCallbackFromName provider request.requestName with
  | none => exact ⟨_, rfl⟩
  | some func => exact ⟨func request, rfl⟩

/-- The callback is removed and then invoked with the result. Without one, only
`invalid callback id` is printed. -/
def handleRpcResponse (provider : RpcServiceProvider κ) (response : RpcResponse) :
    RpcServiceProvider κ × Option (κ × RpcResult) :=
  match getCallbackFromId provider response.callbackId with
  | none => (provider, none)
  | some func =>
    (removeCallbackFromId provider response.callbackId,
      some (func, ⟨response.responseName, response.responseBody⟩))

/-- `Dispatch`. The default handler ignores packets of other types. -/
def dispatch (name : String) (provider : RpcServiceProvider κ) :
    Packet → RpcServiceProvider κ × Option (κ × RpcResult)
  | .login _ => (provider, none)
  | .request request => (handleRpcRequest name provider request, none)
  | .response response => handleRpcResponse provider response

/-- What is sent by `OnConnected` after a successful connect. -/
def onConnected (name : String) : Packet := .login ⟨name, "test key"⟩

end BlackCat.RpcService
