import BlackCat.Codec
import BlackCat.ProtoParser

/-!
The codec over the generated message types. A program's pool has the types of
the files linked into it, each found under its full name. `Encode` and `Decode`
then agree on every message that protobuf itself can write and read back, and
whatever `Decode` accepts can be encoded again.
-/
namespace BlackCat.ProtoCodec

open ByteMemory LengthFrames Codec CodedInputStream ProtoMessage ProtoTypes ProtoParser

section Strings

def utf8 (s : String) : List Byte := s.toUTF8.data.toList

theorem utf8_injective : Function.Injective utf8 := by
  intro s t h
  apply String.toByteArray_inj.mp
  exact ByteArray.ext (Array.toList_inj.mp h)

theorem length_utf8 (s : String) : (utf8 s).length = s.utf8ByteSize := by
  rw [utf8, Array.length_toList]
  exact String.size_toByteArray

end Strings

section Pools

/-- The types linked into a program. -/
structure Pool where
  types : List Descriptor
  distinct : (types.map Descriptor.fullName).Nodup
  named : ∀ d ∈ types, d.fullName ≠ ""

abbrev Pool.Index (pool : Pool) : Type := Fin pool.types.length

abbrev Pool.type (pool : Pool) (i : pool.Index) : Descriptor := pool.types.get i

abbrev Pool.Message (pool : Pool) : Type := (i : pool.Index) × ProtoMessage.Message (pool.type i)

/-- `AppendPartialToString`: the program is aborted if the bytes written are not as
many as were computed before. -/
def appendPartialToString {d : Descriptor} (m : ProtoMessage.Message d) : Option (List Byte) :=
  let bytes := serializeWithCachedSizesToArray m
  if bytes.length = byteSize m then some bytes else none

def Pool.findMessageTypeByName (pool : Pool) (name : List Byte) : Option pool.Index :=
  (List.finRange pool.types.length).find? fun i => utf8 (pool.type i).fullName = name

/-- Protobuf with the types of a pool. -/
def Pool.protobuf (pool : Pool) : Protobuf where
  Message := pool.Message
  Descriptor := pool.Index
  getTypeName m := utf8 (pool.type m.1).fullName
  appendToString m := appendPartialToString m.2
  findMessageTypeByName := pool.findMessageTypeByName
  getPrototype i := some ⟨i, .clear _⟩
  new m := ⟨m.1, .clear _⟩
  parseFromArray m bytes :=
    (ProtoParser.parseFromArray (pool.type m.1) (blockMemory (fun _ => 0) bytes) 0
      bytes.length).map (Sigma.mk m.1)

variable (pool : Pool)

theorem Pool.findMessageTypeByName_eq_some_iff (name : List Byte) (i : pool.Index) :
    pool.findMessageTypeByName name = some i ↔ utf8 (pool.type i).fullName = name :=
  find?_finRange_eq_some_iff (utf8_injective.comp (injective_key_get pool.distinct)) name i

theorem Pool.bind_createMessage (name body : List Byte) :
    ((createMessage pool.protobuf name).bind fun blank =>
      pool.protobuf.parseFromArray blank body) =
    (pool.findMessageTypeByName name).bind fun i =>
      (ProtoParser.parseFromArray (pool.type i) (blockMemory (fun _ => 0) body) 0
        body.length).map (Sigma.mk i : _ → pool.Message) := by
  unfold createMessage
  cases hfind : pool.findMessageTypeByName name with
  | none =>
    have hnone : pool.protobuf.findMessageTypeByName name = none := hfind
    rw [hnone]
    rfl
  | some i =>
    have hsome : pool.protobuf.findMessageTypeByName name = some i := hfind
    rw [hsome]
    rfl

end Pools

section Sending

variable {d : Descriptor}

/-- A message that protobuf writes and reads back. -/
structure Sendable (m : ProtoMessage.Message d) : Prop where
  proper : m.Proper kDefaultRecursionLimit
  initialized : m.isInitialized = true
  small : byteSize m ≤ kDefaultTotalBytesLimit

theorem Sendable.appendPartialToString_eq {m : ProtoMessage.Message d} (h : Sendable m) :
    appendPartialToString m = some m.toFields.bytes := by
  unfold appendPartialToString
  rw [serializeWithCachedSizesToArray_eq m h.proper, byteSize_eq m h.proper, if_pos rfl]

theorem Sendable.length_bytes {m : ProtoMessage.Message d} (h : Sendable m) :
    m.toFields.bytes.length ≤ 67108864 := by
  have hsmall := h.small
  rw [byteSize_eq m h.proper, kDefaultTotalBytesLimit] at hsmall
  omega

theorem Sendable.parseFromArray_eq {m : ProtoMessage.Message d} (h : Sendable m)
    (around : Memory) :
    ProtoParser.parseFromArray d (blockMemory around m.toFields.bytes) 0
      m.toFields.bytes.length = some m := by
  have hread : ProtoParser.parseFromArray d
      (blockMemory around (serializeWithCachedSizesToArray m)) 0 (byteSize m) = some m :=
    parseFromArray_written m h.proper h.initialized h.small (holds_blockMemory around _)
  rw [serializeWithCachedSizesToArray_eq m h.proper, byteSize_eq m h.proper] at hread
  exact hread

theorem sendable_of_byteSize {m : ProtoMessage.Message d}
    (hsize : byteSize m ≤ kDefaultTotalBytesLimit) (hunknown : m.unknown = .nil)
    (hinit : m.isInitialized = true) : Sendable m where
  proper := proper_of_byteSize m _ hunknown (by unfold kDefaultTotalBytesLimit at hsize; omega)
  initialized := hinit
  small := hsize

end Sending

section Decoding

variable (pb : Protobuf)

theorem decode_eq_bind (buf : List Byte) (hlen : buf.length < 2147483648) :
    decode pb buf =
      if 10 ≤ buf.length ∧ 2 ≤ word buf ∧ word buf + 4 ≤ buf.length then
        (createMessage pb ((buf.drop 4).take (word buf - 1).toNat)).bind fun blank =>
          pb.parseFromArray blank (buf.drop (4 + word buf).toNat)
      else none := by
  have hwhole : int32 (buf.length : ℤ) = buf.length := int32_eq_self _ (by omega) (by omega)
  simp only [decode, hwhole, ServerCommon.kHeaderLen]
  by_cases hten : 10 ≤ buf.length
  · rw [if_pos (by omega)]
    by_cases hname : 2 ≤ word buf ∧ word buf + 4 ≤ buf.length
    · have htake : (buf.drop (4 + word buf).toNat).take
          ((buf.length : ℤ) - word buf - 4).toNat = buf.drop (4 + word buf).toNat := by
        apply List.take_of_length_le
        rw [List.length_drop]
        omega
      rw [if_pos (by omega), if_pos ⟨hten, hname⟩, htake]
      cases createMessage pb ((buf.drop 4).take (word buf - 1).toNat) <;> rfl
    · rw [if_neg (by omega), if_neg (by omega)]
  · rw [if_neg (by omega), if_neg (by omega)]

theorem decode_transport_eq_bind (typeName body : List Byte) (hname : typeName ≠ [])
    (hfive : 5 ≤ typeName.length + body.length) (hsize : Fits (transport typeName body)) :
    decode pb (transport typeName body) =
      (createMessage pb typeName).bind fun blank => pb.parseFromArray blank body := by
  have hlen := transport_length typeName body
  have hpos := List.length_pos_of_ne_nil hname
  unfold Fits at hsize
  have hword : word (transport typeName body) = typeName.length + 1 := by
    rw [transport, word_wordBytes_append, int32_eq_self _ (by omega) (by omega)]
  have htake : ((transport typeName body).drop 4).take
      ((typeName.length : ℤ) + 1 - 1).toNat = typeName := by
    rw [transport_drop_header, Int.add_sub_cancel, Int.toNat_natCast, List.take_left]
  have hbody : (4 + ((typeName.length : ℤ) + 1)).toNat = 4 + (typeName.length + 1) := by omega
  rw [decode_eq_bind pb _ (by omega), if_pos (by omega), hword, htake, hbody,
    transport_drop_name]

end Decoding

section Agreement

variable {pool : Pool}

theorem encode_sendable (m : pool.Message) (h : Sendable m.2)
    (hsize : Fits (transport (utf8 (pool.type m.1).fullName) m.2.toFields.bytes)) :
    encode pool.protobuf m =
      frame (transport (utf8 (pool.type m.1).fullName) m.2.toFields.bytes) :=
  encode_eq pool.protobuf m _ h.appendPartialToString_eq hsize

theorem decode_sendable (m : pool.Message) (h : Sendable m.2)
    (hfive : 5 ≤ (utf8 (pool.type m.1).fullName).length + m.2.toFields.bytes.length)
    (hsize : Fits (transport (utf8 (pool.type m.1).fullName) m.2.toFields.bytes)) :
    decode pool.protobuf (transport (utf8 (pool.type m.1).fullName) m.2.toFields.bytes) =
      some m := by
  have hnamed := pool.named (pool.type m.1) (List.get_mem pool.types m.1)
  have hfind := (pool.findMessageTypeByName_eq_some_iff _ m.1).mpr rfl
  rw [decode_transport_eq_bind _ _ _ (fun hnil => hnamed (utf8_injective hnil)) hfive hsize,
    pool.bind_createMessage, hfind, Option.bind_some, h.parseFromArray_eq, Option.map_some]

theorem roundTrips_sendable (m : pool.Message) (h : Sendable m.2)
    (hfive : 5 ≤ (utf8 (pool.type m.1).fullName).length + m.2.toFields.bytes.length)
    (hsize : Fits (transport (utf8 (pool.type m.1).fullName) m.2.toFields.bytes)) :
    RoundTrips pool.protobuf m := by
  have hencode := encode_sendable m h hsize
  have hrest : (encode pool.protobuf m).drop 4 =
      transport (utf8 (pool.type m.1).fullName) m.2.toFields.bytes := by
    rw [hencode, frame]
    exact List.drop_left' (wordBytes_length _)
  constructor
  · rw [hrest, hencode, ← List.append_nil (frame _), word_frame_append _ [] hsize]
  · intro around
    rw [hrest, hencode]
    apply Dispatcher.getMessage_frame _ 0 _ [] hsize
    rw [List.append_nil]
    exact holds_blockMemory around _
  · rw [hrest]
    exact decode_sendable m h hfive hsize

/-- The pool of a program that is linked with all of the files. -/
def generatedPool : Pool where
  types := generatedTypes
  distinct := generatedTypes_names_nodup
  named := by decide

theorem length_generated_names :
    ∀ d ∈ generatedTypes, 5 ≤ (utf8 d.fullName).length ∧ (utf8 d.fullName).length ≤ 64 := by
  decide

section Generated

variable {pool : Pool} (hsub : ∀ d ∈ pool.types, d ∈ generatedTypes)
include hsub

theorem fits_sendable (m : pool.Message) (h : Sendable m.2) :
    Fits (transport (utf8 (pool.type m.1).fullName) m.2.toFields.bytes) := by
  have hname := length_generated_names _ (hsub _ (List.get_mem pool.types m.1))
  have hbody := h.length_bytes
  unfold Fits
  rw [transport_length]
  simp only [Pool.type] at hname ⊢
  omega

/-- Every message of a program's types that protobuf can write and read back is
decoded from its encoding. -/
theorem roundTrips_generated (m : pool.Message) (h : Sendable m.2) :
    RoundTrips pool.protobuf m := by
  have hname := length_generated_names _ (hsub _ (List.get_mem pool.types m.1))
  apply roundTrips_sendable m h _ (fits_sendable hsub m h)
  simp only [Pool.type] at hname ⊢
  omega

end Generated

theorem sendable_pingFive : Sendable pingFive := ⟨proper_pingFive, by decide, by decide⟩

def pingMessage : generatedPool.Message := ⟨⟨9, by decide⟩, pingFive⟩

theorem roundTrips_generated_ping : RoundTrips generatedPool.protobuf pingMessage :=
  roundTrips_generated (fun _ h => h) pingMessage sendable_pingFive

/-- What `Decode` accepted: the name of the message's type with its length, and a
body that the type's parser accepts. -/
theorem decode_inversion {buf : List Byte} (hlen : buf.length < 2147483648) {m : pool.Message}
    (h : decode pool.protobuf buf = some m) :
    ∃ body, buf.length = (utf8 (pool.type m.1).fullName).length + 5 + body.length ∧
      body.length ≤ kDefaultTotalBytesLimit ∧ parse (pool.type m.1) body = some m.2 := by
  rw [decode_eq_bind pool.protobuf buf hlen] at h
  by_cases hcond : 10 ≤ buf.length ∧ 2 ≤ word buf ∧ word buf + 4 ≤ buf.length
  · rw [if_pos hcond, pool.bind_createMessage] at h
    obtain ⟨i, hfind, hmap⟩ := Option.bind_eq_some_iff.mp h
    obtain ⟨parsed, hparsed, rfl⟩ := Option.map_eq_some_iff.mp hmap
    have hname := congrArg List.length ((pool.findMessageTypeByName_eq_some_iff _ i).mp hfind)
    obtain ⟨hlimit, hparse⟩ :=
      (parseFromArray_eq_some_iff (holds_blockMemory _ _) parsed).mp hparsed
    refine ⟨_, ?_, hlimit, hparse⟩
    rw [List.length_take, List.length_drop] at hname
    rw [hname, List.length_drop]
    omega
  · rw [if_neg hcond] at h
    cases h

/-- Whatever `Decode` accepted can be sent on: for a type without an enumeration
the message is encoded in no more bytes than it came in, and it is decoded from
them again. -/
theorem decode_forwarded (hsub : ∀ d ∈ pool.types, d ∈ generatedTypes) {buf : List Byte}
    (hlen : buf.length < 2147483648) {m : pool.Message} (hplain : (pool.type m.1).Plain)
    (h : decode pool.protobuf buf = some m) :
    RoundTrips pool.protobuf m ∧ (encode pool.protobuf m).length ≤ buf.length + 4 := by
  have hgenerated := length_generated_names _ (hsub _ (List.get_mem pool.types m.1))
  obtain ⟨body, hbuf, hlimit, hparse⟩ := decode_inversion hlen h
  obtain ⟨hproper, hinit⟩ := proper_of_parse hparse
  have hsize := byteSize_le_of_parse hplain hparse
  have hsend : Sendable m.2 := ⟨hproper, hinit, by omega⟩
  have hfits := fits_sendable hsub m hsend
  have hencode := encode_sendable m hsend hfits
  rw [byteSize_eq _ hproper] at hsize
  refine ⟨roundTrips_sendable m hsend ?_ hfits, ?_⟩
  · simp only [Pool.type] at hgenerated ⊢
    omega
  · rw [hencode, frame_length, transport_length]
    omega

/-- The ping's encoding is what a client sends; the pool here is the whole one. -/
theorem decode_forwarded_ping :
    RoundTrips generatedPool.protobuf pingMessage ∧
      (encode generatedPool.protobuf pingMessage).length ≤
        ((encode generatedPool.protobuf pingMessage).drop 4).length + 4 := by
  have hsub : ∀ d ∈ generatedPool.types, d ∈ generatedTypes := fun _ h => h
  have hfits := fits_sendable hsub pingMessage sendable_pingFive
  have hencode := encode_sendable pingMessage sendable_pingFive hfits
  have hrest : (encode generatedPool.protobuf pingMessage).drop 4 =
      transport (utf8 ping.fullName) pingFive.toFields.bytes := by
    rw [hencode, frame]
    exact List.drop_left' (wordBytes_length _)
  have hdecode := decode_sendable pingMessage sendable_pingFive (by decide) hfits
  rw [hrest]
  exact decode_forwarded hsub hfits plain_ping hdecode

end Agreement

end BlackCat.ProtoCodec
