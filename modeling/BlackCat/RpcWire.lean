import BlackCat.ProtoCodec
import BlackCat.RpcMessages

/-!
The packets of the RPC protocol as protobuf messages. A packet is put into a
message by the setters, in the order of the source, and taken out by the
getters. Within protobuf's size limit, the payload of a packet is decoded as
the packet.
-/
namespace BlackCat.RpcWire

open ByteMemory LengthFrames Codec CodedInputStream CodedOutputStream ProtoMessage ProtoTypes
open ProtoParser ProtoCodec RpcMessages

/-- The types of `RpcServer.proto`. -/
def rpcPool : Pool where
  types := [loginRequest, loginResponse, rpcRequest, rpcResponse, rpcError]
  distinct := by decide
  named := by decide

theorem rpcPool_subset : ∀ d ∈ rpcPool.types, d ∈ generatedTypes := by
  intro d hd
  simp only [rpcPool, List.mem_cons, List.not_mem_nil, or_false] at hd
  simp only [generatedTypes, List.mem_cons]
  rcases hd with rfl | rfl | rfl | rfl | rfl <;> simp

def ofUtf8 (bytes : List Byte) : Option String := String.fromUTF8? ⟨bytes.toArray⟩

theorem ofUtf8_utf8 (s : String) : ofUtf8 (utf8 s) = some s := by
  have hbytes : (⟨(utf8 s).toArray⟩ : ByteArray) = s.toByteArray := rfl
  rw [ofUtf8, hbytes, String.fromUTF8?, dif_pos s.isValidUTF8]
  rfl

section Messages

def loginMessage (request : LoginRequest) : Message loginRequest :=
  ((Message.clear loginRequest).put ⟨0, by decide⟩ (utf8 request.serviceName)).put ⟨1, by decide⟩
    (utf8 request.secureKey)

def requestMessage (request : RpcRequest) : Message rpcRequest :=
  (((((Message.clear rpcRequest).put ⟨0, by decide⟩ (utf8 request.serviceName)).put
    ⟨1, by decide⟩ (utf8 request.requestor)).put
    ⟨2, by decide⟩ request.callbackId).put
    ⟨3, by decide⟩ (utf8 request.requestName)).put
    ⟨4, by decide⟩ request.requestBody

def responseMessage (response : RpcResponse) : Message rpcResponse :=
  (((((Message.clear rpcResponse).put ⟨0, by decide⟩ (utf8 response.serviceName)).put
    ⟨1, by decide⟩ (utf8 response.requestor)).put
    ⟨2, by decide⟩ response.callbackId).put
    ⟨3, by decide⟩ (utf8 response.responseName)).put
    ⟨4, by decide⟩ response.responseBody

def errorMessage (err : RpcError) : Message rpcError :=
  (Message.clear rpcError).put ⟨0, by decide⟩ (utf8 err.error)

def packetMessage : Packet → rpcPool.Message
  | .login request => ⟨⟨0, by decide⟩, loginMessage request⟩
  | .request request => ⟨⟨2, by decide⟩, requestMessage request⟩
  | .response response => ⟨⟨3, by decide⟩, responseMessage response⟩

/-- The getters. Names that are not UTF-8 are outside of the model. -/
def loginOf (m : Message loginRequest) : Option LoginRequest :=
  (ofUtf8 (Option.getD (m.values ⟨0, by decide⟩) [])).bind fun serviceName =>
    (ofUtf8 (Option.getD (m.values ⟨1, by decide⟩) [])).map fun secureKey =>
      ⟨serviceName, secureKey⟩

def requestOf (m : Message rpcRequest) : Option RpcRequest :=
  (ofUtf8 (Option.getD (m.values ⟨0, by decide⟩) [])).bind fun serviceName =>
    (ofUtf8 (Option.getD (m.values ⟨1, by decide⟩) [])).bind fun requestor =>
      (ofUtf8 (Option.getD (m.values ⟨3, by decide⟩) [])).map fun requestName =>
        ⟨serviceName, requestor, Option.getD (m.values ⟨2, by decide⟩) 0, requestName,
          Option.getD (m.values ⟨4, by decide⟩) []⟩

def responseOf (m : Message rpcResponse) : Option RpcResponse :=
  (ofUtf8 (Option.getD (m.values ⟨0, by decide⟩) [])).bind fun serviceName =>
    (ofUtf8 (Option.getD (m.values ⟨1, by decide⟩) [])).bind fun requestor =>
      (ofUtf8 (Option.getD (m.values ⟨3, by decide⟩) [])).map fun responseName =>
        ⟨serviceName, requestor, Option.getD (m.values ⟨2, by decide⟩) 0, responseName,
          Option.getD (m.values ⟨4, by decide⟩) []⟩

/-- `OnMessage`: the callback registered for the message's type. For the other types
it is the default one, which does nothing. -/
def packetOf : rpcPool.Message → Option Packet
  | ⟨⟨0, _⟩, m⟩ => (loginOf m).map .login
  | ⟨⟨2, _⟩, m⟩ => (requestOf m).map .request
  | ⟨⟨3, _⟩, m⟩ => (responseOf m).map .response
  | _ => none

theorem loginOf_loginMessage (request : LoginRequest) :
    loginOf (loginMessage request) = some request := by
  change ((ofUtf8 (utf8 request.serviceName)).bind fun serviceName =>
    (ofUtf8 (utf8 request.secureKey)).map fun secureKey =>
      (⟨serviceName, secureKey⟩ : LoginRequest)) = some request
  rw [ofUtf8_utf8, ofUtf8_utf8]
  rfl

theorem requestOf_requestMessage (request : RpcRequest) :
    requestOf (requestMessage request) = some request := by
  change ((ofUtf8 (utf8 request.serviceName)).bind fun serviceName =>
    (ofUtf8 (utf8 request.requestor)).bind fun requestor =>
      (ofUtf8 (utf8 request.requestName)).map fun requestName =>
        (⟨serviceName, requestor, request.callbackId, requestName, request.requestBody⟩ :
          RpcRequest)) = some request
  rw [ofUtf8_utf8, ofUtf8_utf8, ofUtf8_utf8]
  rfl

theorem responseOf_responseMessage (response : RpcResponse) :
    responseOf (responseMessage response) = some response := by
  change ((ofUtf8 (utf8 response.serviceName)).bind fun serviceName =>
    (ofUtf8 (utf8 response.requestor)).bind fun requestor =>
      (ofUtf8 (utf8 response.responseName)).map fun responseName =>
        (⟨serviceName, requestor, response.callbackId, responseName, response.responseBody⟩ :
          RpcResponse)) = some response
  rw [ofUtf8_utf8, ofUtf8_utf8, ofUtf8_utf8]
  rfl

theorem packetOf_packetMessage (packet : Packet) :
    packetOf (packetMessage packet) = some packet := by
  cases packet with
  | login request =>
    change (loginOf (loginMessage request)).map Packet.login = _
    rw [loginOf_loginMessage]
    rfl
  | request request =>
    change (requestOf (requestMessage request)).map Packet.request = _
    rw [requestOf_requestMessage]
    rfl
  | response response =>
    change (responseOf (responseMessage response)).map Packet.response = _
    rw [responseOf_responseMessage]
    rfl

end Messages

section Sizes

theorem varintSize32_le (value : UInt32) : varintSize32 value ≤ 5 := by
  rw [varintSize32_eq]
  exact Varints.length_encode_le 4 _

theorem varintSize64_le (value : UInt64) : varintSize64 value ≤ 10 := by
  rw [varintSize64_eq]
  exact Varints.length_encode_le 9 _

def packetSize (packet : Packet) : ℕ := byteSize (packetMessage packet).2

theorem packetSize_request (request : RpcRequest) : packetSize (.request request) =
    (1 + valueSize .string (utf8 request.serviceName) + 0) +
      ((1 + valueSize .string (utf8 request.requestor) + 0) +
        ((1 + valueSize .uint64 request.callbackId + 0) +
          ((1 + valueSize .string (utf8 request.requestName) + 0) +
            ((1 + valueSize .string request.requestBody + 0) + 0)))) + 0 := rfl

theorem packetSize_response (response : RpcResponse) : packetSize (.response response) =
    (1 + valueSize .string (utf8 response.serviceName) + 0) +
      ((1 + valueSize .string (utf8 response.requestor) + 0) +
        ((1 + valueSize .uint64 response.callbackId + 0) +
          ((1 + valueSize .string (utf8 response.responseName) + 0) +
            ((1 + valueSize .string response.responseBody + 0) + 0)))) + 0 := rfl

end Sizes

section Payloads

/-- A packet within protobuf's limit. -/
def ShortPacket (packet : Packet) : Prop := packetSize packet ≤ kDefaultTotalBytesLimit

theorem sendable_packetMessage {packet : Packet} (h : ShortPacket packet) :
    Sendable (packetMessage packet).2 := by
  apply sendable_of_byteSize h
  · cases packet <;> rfl
  · cases packet <;> rfl

/-- The bytes of a packet after its length. -/
def payload (packet : Packet) : List Byte :=
  transport (utf8 (rpcPool.type (packetMessage packet).1).fullName)
    (packetMessage packet).2.toFields.bytes

def decodePacket (buf : List Byte) : Option Packet :=
  (decode rpcPool.protobuf buf).bind packetOf

theorem encode_packetMessage {packet : Packet} (h : ShortPacket packet) :
    encode rpcPool.protobuf (packetMessage packet) = frame (payload packet) :=
  encode_sendable _ (sendable_packetMessage h)
    (fits_sendable rpcPool_subset _ (sendable_packetMessage h))

theorem decodePacket_payload {packet : Packet} (h : ShortPacket packet) :
    decodePacket (payload packet) = some packet := by
  have hsend := sendable_packetMessage h
  have hname := length_generated_names _
    (rpcPool_subset _ (List.get_mem rpcPool.types (packetMessage packet).1))
  have hdecode := decode_sendable (packetMessage packet) hsend
    (by simp only [Pool.type] at hname ⊢; omega) (fits_sendable rpcPool_subset _ hsend)
  rw [decodePacket, payload, hdecode]
  exact packetOf_packetMessage packet

theorem length_payload {packet : Packet} (h : ShortPacket packet) :
    packetSize packet + 5 ≤ (payload packet).length ∧
      (payload packet).length ≤ packetSize packet + 69 := by
  have hname := length_generated_names _
    (rpcPool_subset _ (List.get_mem rpcPool.types (packetMessage packet).1))
  have hsize := byteSize_eq _ (sendable_packetMessage h).proper
  rw [payload, transport_length, packetSize, hsize]
  simp only [Pool.type] at hname ⊢
  omega

end Payloads

section Errors

theorem toList_loop (bytes : ByteArray) (n i : ℕ) (r : List Byte) (h : bytes.size - i = n) :
    ByteArray.toList.loop bytes i r = r.reverse ++ bytes.data.toList.drop i := by
  have hsize : bytes.size = bytes.data.toList.length := Array.length_toList.symm
  induction n generalizing i r with
  | zero =>
    rw [ByteArray.toList.loop.eq_def, if_neg (by omega), List.drop_eq_nil_of_le (by omega),
      List.append_nil]
  | succ n ih =>
    have hi : i < bytes.data.toList.length := by omega
    have hget : bytes.get! i = bytes.data.toList[i] := by
      have hlt : i < bytes.data.size := by rwa [Array.length_toList] at hi
      rw [Array.getElem_toList]
      exact getElem!_pos bytes.data i hlt
    rw [ByteArray.toList.loop.eq_def, if_pos (by omega), ih (i + 1) _ (by omega), hget,
      List.reverse_cons, List.append_assoc, List.singleton_append, ← List.drop_eq_getElem_cons hi]

theorem toList_toUTF8 (s : String) : s.toUTF8.toList = utf8 s := by
  rw [ByteArray.toList, toList_loop _ _ 0 [] rfl]
  rfl

theorem serializeAsString_eq (err : RpcError) :
    err.serializeAsString = (errorMessage err).toFields.bytes := by
  have hbytes : (errorMessage err).toFields.bytes =
      (WireFields.tagBytes 1 2 ++ (Varints.encode 4 (utf8 err.error).length ++ utf8 err.error)) ++
        [] := rfl
  rw [RpcError.serializeAsString, toList_toUTF8, hbytes, List.append_nil, length_utf8]
  rfl

theorem length_serializeAsString_le (err : RpcError) :
    err.serializeAsString.length ≤ err.error.utf8ByteSize + 6 := by
  have hlen := Varints.length_encode_le 4 err.error.utf8ByteSize
  have hbytes : (utf8 err.error).length = err.error.utf8ByteSize := length_utf8 _
  rw [RpcError.serializeAsString, toList_toUTF8]
  simp only [List.length_cons, List.length_append]
  omega

theorem packetSize_refused_le (request : RpcRequest) :
    packetSize (.response (request.respond
      (RpcError.result ⟨request.serviceName ++ " is not online now"⟩))) ≤
        2 * packetSize (.request request) + 100 := by
  have hname := length_utf8 request.serviceName
  have herror : (request.serviceName ++ " is not online now").utf8ByteSize =
      (utf8 request.serviceName).length + 18 := by
    rw [String.utf8ByteSize_append, hname]
    rfl
  have htype : (utf8 "RpcServer.RpcError").length = 18 := by decide
  rw [packetSize_request]
  simp only [valueSize]
  have hbody := length_serializeAsString_le ⟨request.serviceName ++ " is not online now"⟩
  simp only [herror] at hbody
  rw [packetSize_response]
  simp only [RpcRequest.respond, RpcError.result, RpcError.getTypeName, valueSize, htype]
  have hservice := varintSize32_le (UInt32.ofNat (utf8 request.serviceName).length)
  have hrequestor := varintSize32_le (UInt32.ofNat (utf8 request.requestor).length)
  have hid := varintSize64_le request.callbackId
  have hresponse := varintSize32_le (UInt32.ofNat 18)
  have hlength := varintSize32_le (UInt32.ofNat (RpcError.serializeAsString
    ⟨request.serviceName ++ " is not online now"⟩).length)
  omega

theorem small_refused {request : RpcRequest} (h : packetSize (.request request) ≤ 32768) :
    ShortPacket (.response (request.respond
      (RpcError.result ⟨request.serviceName ++ " is not online now"⟩))) := by
  have hle := packetSize_refused_le request
  unfold ShortPacket kDefaultTotalBytesLimit
  omega

end Errors

end BlackCat.RpcWire
