import BlackCat.Varints

/-!
The messages of `RpcServer.proto` that travel between providers and the proxy.
Names are strings and bodies are bytes. The proxy and a provider build their
responses alike: they copy the names and the callback id of the request.
-/
namespace BlackCat.RpcMessages

open ByteMemory

structure LoginRequest where
  serviceName : String
  secureKey : String
  deriving DecidableEq, Repr

structure RpcRequest where
  serviceName : String
  requestor : String
  callbackId : UInt64
  requestName : String
  requestBody : List Byte
  deriving DecidableEq, Repr

structure RpcResponse where
  serviceName : String
  requestor : String
  callbackId : UInt64
  responseName : String
  responseBody : List Byte
  deriving DecidableEq, Repr

structure RpcError where
  error : String
  deriving DecidableEq, Repr

inductive Packet
  | login (request : LoginRequest)
  | request (request : RpcRequest)
  | response (response : RpcResponse)
  deriving DecidableEq, Repr

/-- What a registered function returns: a type name and a serialised message. -/
structure RpcResult where
  name : String
  body : List Byte
  deriving DecidableEq, Repr

def RpcError.getTypeName (_ : RpcError) : String := "RpcServer.RpcError"

/-- Field 1, a string: its tag, its length and its text. -/
def RpcError.serializeAsString (err : RpcError) : List Byte :=
  10 :: Varints.encode 4 err.error.utf8ByteSize ++ err.error.toUTF8.toList

/-- The response to a request, with the given result. -/
def RpcRequest.respond (request : RpcRequest) (result : RpcResult) : RpcResponse where
  serviceName := request.serviceName
  requestor := request.requestor
  callbackId := request.callbackId
  responseName := result.name
  responseBody := result.body

def RpcError.result (err : RpcError) : RpcResult := ⟨err.getTypeName, err.serializeAsString⟩

end BlackCat.RpcMessages
