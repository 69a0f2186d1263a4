import BlackCat.Codec
import BlackCat.RpcService

/-!
The stubs around registered functions. A function that is registered for a type
is called with the message parsed from the body of a request. If there is no
such type or the body cannot be parsed, `Execute` returns an empty result, and
the handler sends it like any other: the caller gets a response without a name
and not an `RpcServer.RpcError`.
-/
namespace BlackCat.RpcStubs

open ByteMemory Codec RpcMessages RpcService

/-- A name as protobuf sees it. -/
def nameBytes (name : String) : List Byte := name.toUTF8.data.toList

/-- The message in the body of a request, where its type is known and the body parses. -/
def requestMessage (pb : Protobuf) (request : RpcRequest) : Option pb.Message :=
  match createMessage pb (nameBytes request.requestName) with
  | some message => pb.parseFromArray message request.requestBody
  | none => none

/-- `MakeCallback`: the callback whose `Execute` parses the request and calls the function.
Otherwise it returns `RpcResult()`. -/
def makeCallback (pb : Protobuf) (func : pb.Message → RpcResult) : RpcCallback := fun args =>
  match requestMessage pb args with
  | some message => func message
  | none => ⟨"", []⟩

variable {κ : Type*} {pb : Protobuf}

/-- The functions registered with a provider, under the names of their types. -/
def Registers (functions : String → Option (pb.Message → RpcResult))
    (provider : RpcServiceProvider κ) : Prop :=
  ∀ name, provider.functionMap name = (functions name).map (makeCallback pb)

theorem Registers.register {functions : String → Option (pb.Message → RpcResult)}
    {provider : RpcServiceProvider κ} (h : Registers functions provider) (typeName : String)
    (func : pb.Message → RpcResult) :
    Registers (Function.update functions typeName (some func))
      (RpcService.register provider typeName (makeCallback pb func)) := by
  intro name
  by_cases hname : name = typeName
  · subst hname
    simp only [RpcService.register, Function.update_self, Option.map_some]
  · simp only [RpcService.register, Function.update_of_ne hname]
    exact h name

end BlackCat.RpcStubs
