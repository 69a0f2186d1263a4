import BlackCat.Dispatcher

/-!
The transport format of protobuf messages. `Encode` and `Decode` state its
layout independently. They agree on every message except the smallest ones:
`Decode` refuses fewer than ten bytes, while a type name and a body of less
than five bytes together are encoded in nine or fewer.
-/
namespace BlackCat.Codec

open ByteMemory LengthFrames ServerCommon Dispatcher

/-- What the codec calls of protobuf. Strings are lists of bytes. -/
structure Protobuf where
  Message : Type
  Descriptor : Type
  getTypeName : Message → List Byte
  appendToString : Message → Option (List Byte)
  findMessageTypeByName : List Byte → Option Descriptor
  getPrototype : Descriptor → Option Message
  new : Message → Message
  parseFromArray : Message → List Byte → Option Message

variable (pb : Protobuf)

/-- `Encode`: the length is left open until the size of the body is known. An
empty string is returned if the message cannot be serialised. -/
def encode (message : pb.Message) : List Byte :=
  let typeName := pb.getTypeName message
  let nameLen := int32 (typeName.length + 1)
  let result := List.replicate 4 0 ++ wordBytes nameLen ++
    (typeName ++ [0]).take nameLen.toNat
  match pb.appendToString message with
  | some body =>
    let len := int32 ((result ++ body).length - kHeaderLen)
    wordBytes len ++ (result ++ body).drop 4
  | none => []

def createMessage (typeName : List Byte) : Option pb.Message :=
  match pb.findMessageTypeByName typeName with
  | some descriptor =>
    match pb.getPrototype descriptor with
    | some prototype => some (pb.new prototype)
    | none => none
  | none => none

def decode (buf : List Byte) : Option pb.Message :=
  let len := int32 buf.length
  if 10 ≤ len then
    let nameLen := word buf
    if 2 ≤ nameLen ∧ nameLen ≤ len - kHeaderLen then
      let typeName := (buf.drop 4).take (nameLen - 1).toNat
      match createMessage pb typeName with
      | some message =>
        let dataLen := len - nameLen - kHeaderLen
        pb.parseFromArray message ((buf.drop (4 + nameLen).toNat).take dataLen.toNat)
      | none => none
    else none
  else none

/-- A generated pool: types have names, a type is found under its name, and a
message is parsed back from its serialisation. -/
structure GeneratedPool extends Protobuf where
  named : ∀ message, getTypeName message ≠ []
  creates : ∀ message, ∃ blank,
    createMessage toProtobuf (getTypeName message) = some blank ∧
    getTypeName blank = getTypeName message
  parses : ∀ message blank body, appendToString message = some body →
    getTypeName blank = getTypeName message → parseFromArray blank body = some message

/-- The bytes after the length: the name's length with its terminating zero, the
name, and the body. -/
def transport (typeName body : List Byte) : List Byte :=
  wordBytes (typeName.length + 1) ++ (typeName ++ 0 :: body)

theorem transport_length (typeName body : List Byte) :
    (transport typeName body).length = typeName.length + body.length + 5 := by
  simp only [transport, List.length_append, wordBytes_length, List.length_cons]
  omega

theorem encode_eq (message : pb.Message) (body : List Byte)
    (hbody : pb.appendToString message = some body)
    (hsize : Fits (transport (pb.getTypeName message) body)) :
    encode pb message = frame (transport (pb.getTypeName message) body) := by
  have hlen := transport_length (pb.getTypeName message) body
  unfold Fits at hsize
  have hname : int32 ((pb.getTypeName message).length + 1) =
      ((pb.getTypeName message).length + 1 : ℕ) := by
    rw [int32_eq_self _ (by omega) (by omega)]
    rfl
  have htake : (pb.getTypeName message ++ [0]).take ((pb.getTypeName message).length + 1) =
      pb.getTypeName message ++ [0] := by
    apply List.take_of_length_le
    rw [List.length_append, List.length_singleton]
  unfold encode
  simp only [hname, Int.toNat_natCast, htake, hbody]
  have hrest : (List.replicate 4 0 ++ wordBytes ((pb.getTypeName message).length + 1 : ℕ) ++
      (pb.getTypeName message ++ [0]) ++ body).drop 4 =
        transport (pb.getTypeName message) body := by
    simp [transport, List.append_assoc]
  have hsum : int32 (((List.replicate 4 0 ++
      wordBytes ((pb.getTypeName message).length + 1 : ℕ) ++
      (pb.getTypeName message ++ [0]) ++ body).length : ℤ) - kHeaderLen) =
        (transport (pb.getTypeName message) body).length := by
    simp only [List.length_append, List.length_replicate, wordBytes_length,
      List.length_singleton, kHeaderLen, hlen]
    rw [int32_eq_self _ (by omega) (by omega)]
    omega
  rw [hrest, hsum, frame]

theorem transport_drop_header (typeName body : List Byte) :
    (transport typeName body).drop 4 = typeName ++ 0 :: body :=
  List.drop_left' (wordBytes_length _)

theorem transport_drop_name (typeName body : List Byte) :
    (transport typeName body).drop (4 + (typeName.length + 1)) = body := by
  rw [← List.drop_drop, transport_drop_header, List.append_cons]
  exact List.drop_left' (by rw [List.length_append, List.length_singleton])

theorem decode_transport (pool : GeneratedPool) (message : pool.Message) (body : List Byte)
    (hbody : pool.appendToString message = some body)
    (hsize : Fits (transport (pool.getTypeName message) body))
    (hten : 10 ≤ (transport (pool.getTypeName message) body).length) :
    decode pool.toProtobuf (transport (pool.getTypeName message) body) = some message := by
  have hlen := transport_length (pool.getTypeName message) body
  have hpos := List.length_pos_of_ne_nil (pool.named message)
  unfold Fits at hsize
  have hwhole : int32 ((transport (pool.getTypeName message) body).length : ℤ) =
      (transport (pool.getTypeName message) body).length :=
    int32_eq_self _ (by omega) (by omega)
  have hword : word (transport (pool.getTypeName message) body) =
      (pool.getTypeName message).length + 1 := by
    rw [transport, word_wordBytes_append, int32_eq_self _ (by omega) (by omega)]
  obtain ⟨blank, hcreate, htype⟩ := pool.creates message
  have hparse := pool.parses message blank body hbody htype
  have hname : ((transport (pool.getTypeName message) body).drop 4).take
      ((pool.getTypeName message).length + 1 - 1 : ℤ).toNat = pool.getTypeName message := by
    rw [transport_drop_header, Int.add_sub_cancel, Int.toNat_natCast, List.take_left]
  have hdata : ((transport (pool.getTypeName message) body).drop
      (4 + ((pool.getTypeName message).length + 1) : ℤ).toNat).take
        (((transport (pool.getTypeName message) body).length : ℤ) -
          ((pool.getTypeName message).length + 1) - kHeaderLen).toNat = body := by
    rw [show (4 + ((pool.getTypeName message).length + 1) : ℤ).toNat =
      4 + ((pool.getTypeName message).length + 1) by omega, transport_drop_name]
    apply List.take_of_length_le
    unfold kHeaderLen
    omega
  unfold decode
  simp only [hwhole, hword]
  rw [if_pos (by omega), if_pos (by unfold kHeaderLen; omega), hname, hcreate]
  simp only [hdata, hparse]

theorem decode_short (buf : List Byte) (h : buf.length < 10) : decode pb buf = none := by
  unfold decode
  simp only [int32_eq_self (buf.length : ℤ) (by omega) (by omega)]
  rw [if_neg (by omega)]

/-- The encoding begins with the number of the bytes after it, these are what
`GetMessage` extracts, and `Decode` gives the message back from them. -/
structure RoundTrips (message : pb.Message) : Prop where
  counted : word (encode pb message) = ((encode pb message).drop 4).length
  extracted : ∀ around, getMessage (blockMemory around (encode pb message)) 0 =
    .ok ((encode pb message).drop 4)
  decoded : decode pb ((encode pb message).drop 4) = some message

/-- Decoding undoes encoding exactly for the messages whose type name and body
have at least five bytes together. -/
theorem roundTrips_iff (pool : GeneratedPool) (message : pool.Message) (body : List Byte)
    (hbody : pool.appendToString message = some body)
    (hsize : Fits (transport (pool.getTypeName message) body)) :
    RoundTrips pool.toProtobuf message ↔
      5 ≤ (pool.getTypeName message).length + body.length := by
  have hencode := encode_eq pool.toProtobuf message body hbody hsize
  have hlen := transport_length (pool.getTypeName message) body
  have hrest : (encode pool.toProtobuf message).drop 4 =
      transport (pool.getTypeName message) body := by
    rw [hencode, frame]
    exact List.drop_left' (wordBytes_length _)
  constructor
  · intro h
    by_contra hsmall
    have hdecoded := h.decoded
    rw [hrest, decode_short _ _ (by omega)] at hdecoded
    cases hdecoded
  · intro hfive
    constructor
    · rw [hrest, hencode, ← List.append_nil (frame _), word_frame_append _ [] hsize]
    · intro around
      rw [hrest, hencode]
      apply getMessage_frame _ 0 _ [] hsize
      rw [List.append_nil]
      exact holds_blockMemory around _
    · rw [hrest]
      exact decode_transport pool message body hbody hsize (by omega)

/-- A pool with a single type, whose values are written and read by two given
functions. -/
def singleTypePool (name : List Byte) (hname : name ≠ []) (α : Type) (blank : α)
    (write : α → List Byte) (read : List Byte → Option α)
    (hread : ∀ a, read (write a) = some a) : GeneratedPool where
  Message := α
  Descriptor := Unit
  getTypeName _ := name
  appendToString a := some (write a)
  findMessageTypeByName n := if n = name then some () else none
  getPrototype _ := some blank
  new := id
  parseFromArray _ data := read data
  named _ := hname
  creates _ := ⟨blank, by simp [createMessage], rfl⟩
  parses a _ body hbody _ := by
    rw [← Option.some.inj hbody]
    exact hread a

/-- The text of an `RpcError` below 128 bytes, so that its length is one byte. -/
abbrev ErrorText := { text : List Byte // text.length < 128 }

/-- The field tag, the length and the text. -/
def writeError (error : ErrorText) : List Byte := 10 :: UInt8.ofNat error.1.length :: error.1

def readError : List Byte → Option ErrorText
  | tag :: len :: text =>
    if h : text.length < 128 then
      if tag = 10 ∧ len = UInt8.ofNat text.length then some ⟨text, h⟩ else none
    else none
  | _ => none

theorem readError_writeError (error : ErrorText) : readError (writeError error) = some error := by
  obtain ⟨text, h⟩ := error
  simp [readError, writeError, h]

/-- `RpcServer.RpcError` as a type of its own pool. -/
def rpcErrorPool : GeneratedPool :=
  singleTypePool [82, 112, 99, 83, 101, 114, 118, 101, 114, 46, 82, 112, 99, 69, 114, 114, 111, 114]
    (by decide) ErrorText ⟨[], by decide⟩ writeError readError readError_writeError

/-- An error of one letter is encoded and decoded. -/
theorem roundTrips_rpcError : RoundTrips rpcErrorPool.toProtobuf (⟨[63], by decide⟩ : ErrorText) :=
  (roundTrips_iff rpcErrorPool (⟨[63], by decide⟩ : ErrorText) [10, 1, 63] rfl (by decide)).mpr
    (by decide)

/-- A type named `A` without fields. -/
def emptyTypePool : GeneratedPool :=
  singleTypePool [65] (by decide) Unit () (fun _ => []) (fun _ => some ()) (fun _ => rfl)

/-- Its message is encoded in ten bytes, and `Decode` refuses the six after the
length. -/
theorem empty_type_not_decoded :
    emptyTypePool.appendToString () = some [] ∧
      encode emptyTypePool.toProtobuf () = [6, 0, 0, 0, 2, 0, 0, 0, 65, 0] ∧
      decode emptyTypePool.toProtobuf [2, 0, 0, 0, 65, 0] = none ∧
      ¬ RoundTrips emptyTypePool.toProtobuf () := by
  have hencode : encode emptyTypePool.toProtobuf () = [6, 0, 0, 0, 2, 0, 0, 0, 65, 0] := by
    decide
  have hdecode := decode_short emptyTypePool.toProtobuf [2, 0, 0, 0, 65, 0] (by decide)
  refine ⟨rfl, hencode, hdecode, ?_⟩
  intro h
  have hdecoded := h.decoded
  rw [hencode] at hdecoded
  cases hdecode.symm.trans hdecoded

end BlackCat.Codec
