import BlackCat.ProtoMessage

/-!
The message types of the files under `Protocol/proto`, as the descriptors in the
generated code give them.
-/
namespace BlackCat.ProtoTypes

open ProtoMessage

/-- The values that `EnumResult_IsValid` accepts. -/
def enumResult : List Int32 := [0, 1]

section RpcServer

def loginRequest : Descriptor where
  fullName := "RpcServer.LoginRequest"
  fields := [⟨1, .required, .string⟩, ⟨2, .required, .string⟩]
  small := by decide
  distinct := by decide

def loginResponse : Descriptor where
  fullName := "RpcServer.LoginResponse"
  fields := [⟨1, .required, .enum enumResult⟩, ⟨2, .optional, .string⟩]
  small := by decide
  distinct := by decide

def rpcRequest : Descriptor where
  fullName := "RpcServer.RpcRequest"
  fields := [⟨1, .required, .string⟩, ⟨2, .required, .string⟩, ⟨3, .required, .uint64⟩,
    ⟨4, .required, .string⟩, ⟨5, .required, .string⟩]
  small := by decide
  distinct := by decide

def rpcResponse : Descriptor where
  fullName := "RpcServer.RpcResponse"
  fields := [⟨1, .required, .string⟩, ⟨2, .required, .string⟩, ⟨3, .required, .uint64⟩,
    ⟨4, .required, .string⟩, ⟨5, .required, .string⟩]
  small := by decide
  distinct := by decide

def rpcError : Descriptor where
  fullName := "RpcServer.RpcError"
  fields := [⟨1, .required, .string⟩]
  small := by decide
  distinct := by decide

end RpcServer

section GatewayServer

def reportAvailable : Descriptor where
  fullName := "GatewayServer.ReportAvailable"
  fields := [⟨1, .required, .string⟩, ⟨2, .repeated, .string⟩]
  small := by decide
  distinct := by decide

def reportAvailableResponse : Descriptor where
  fullName := "GatewayServer.ReportAvailableResponse"
  fields := [⟨1, .required, .uint32⟩]
  small := by decide
  distinct := by decide

def forwardingPacket : Descriptor where
  fullName := "GatewayServer.ForwardingPacket"
  fields := [⟨1, .required, .uint32⟩, ⟨2, .required, .string⟩, ⟨3, .required, .string⟩]
  small := by decide
  distinct := by decide

def userDisconnect : Descriptor where
  fullName := "GatewayServer.UserDisconnect"
  fields := [⟨1, .required, .uint32⟩]
  small := by decide
  distinct := by decide

end GatewayServer

section Others

def ping : Descriptor where
  fullName := "ClientGate.Ping"
  fields := [⟨1, .required, .uint32⟩]
  small := by decide
  distinct := by decide

def pong : Descriptor where
  fullName := "ClientGate.Pong"
  fields := [⟨1, .required, .uint32⟩]
  small := by decide
  distinct := by decide

def echoRequest : Descriptor where
  fullName := "DBService.EchoRequest"
  fields := [⟨1, .required, .string⟩]
  small := by decide
  distinct := by decide

def echoResponse : Descriptor where
  fullName := "DBService.EchoResponse"
  fields := [⟨1, .required, .string⟩]
  small := by decide
  distinct := by decide

def packet : Descriptor where
  fullName := "PB.Packet"
  fields := [⟨1, .required, .uint32⟩, ⟨2, .required, .string⟩, ⟨3, .optional, .string⟩]
  small := by decide
  distinct := by decide

end Others

/-- The types that all of these files together put into the generated pool. -/
def generatedTypes : List Descriptor :=
  [loginRequest, loginResponse, rpcRequest, rpcResponse, rpcError, reportAvailable,
    reportAvailableResponse, forwardingPacket, userDisconnect, ping, pong, echoRequest,
    echoResponse, packet]

theorem generatedTypes_names_nodup : (generatedTypes.map Descriptor.fullName).Nodup := by
  decide

end BlackCat.ProtoTypes
