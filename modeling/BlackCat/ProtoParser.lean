import BlackCat.ProtoTypes
import BlackCat.WireFormat
import Mathlib.Algebra.GroupWithZero.Nat
import Mathlib.Algebra.Order.BigOperators.Group.List
import Mathlib.Algebra.Order.Ring.Nat

/-!
The code that protobuf generates for a message type. The parser is a loop over
tags with jumps: after a field it looks whether the tag of the next field
follows and, if so, goes straight to the code that reads it. On every input it
builds the message that the plain reader's fields are read into, and a message
is accepted exactly if the whole input is a sequence of fields, no longer than
the limit, that sets every required one.
-/
namespace BlackCat.ProtoParser

open ByteMemory Varints WireFields CodedInputStream CodedOutputStream WireFormat ProtoMessage
open ProtoTypes

variable (d : Descriptor)

section Parser

/-- A field's value. A number that is none of an enumeration is given apart. -/
def readValue : (type : FieldType) → Stream → Option ((type.Value ⊕ UInt64) × Stream)
  | .string, s => (readLengthAndString s).map fun read => (.inl read.1, read.2)
  | .uint32, s => (readVarint32 s).map fun read => (.inl read.1, read.2)
  | .uint64, s => (readVarint64 s).map fun read => (.inl read.1, read.2)
  | .enum valid, s => (readVarint32 s).map fun read =>
    (if h : read.1.toInt32 ∈ valid then .inl ⟨read.1.toInt32, h⟩
      else .inr (signExtend read.1.toInt32), read.2)

variable {d}

/-- What is done with the value read for a field. -/
def store (m : Message d) (i : d.Index) : (d.field i).type.Value ⊕ UInt64 → Message d
  | .inl value => m.put i value
  | .inr raw => m.addUnknown (.scalar (d.field i).number (.varint raw) .nil)

def tagOf (f : FieldDescriptor) : UInt32 := makeTag32 f.number f.type.wireType

/-- The fields whose tags are expected after a field: itself if it is repeated, and
the one after it. At the end of an array `ExpectAtEnd` is false, since no limit
was pushed. -/
def expected (i : d.Index) : List d.Index :=
  (if (d.field i).label = .repeated then [i] else []) ++
    (if h : i.val + 1 < d.fields.length then [⟨i.val + 1, h⟩] else [])

def expectNext (s : Stream) : List d.Index → Option (d.Index × Stream)
  | [] => none
  | i :: rest =>
    match expectTag s (tagOf (d.field i)) with
    | some s => some (i, s)
    | none => expectNext s rest

/-- The code that reads a field, with the jump after it. -/
def parseField (goOn : Option d.Index → Stream → Message d → Option (Message d × Stream))
    (i : d.Index) (s : Stream) (m : Message d) : Option (Message d × Stream) :=
  (readValue (d.field i).type s).bind fun read =>
    match expectNext read.2 (expected i) with
    | some (j, s) => goOn (some j) s (store m i read.1)
    | none => goOn none read.2 (store m i read.1)

def handleUninterpreted
    (goOn : Option d.Index → Stream → Message d → Option (Message d × Stream)) (n : ℕ)
    (tag : UInt32) (s : Stream) (m : Message d) : Option (Message d × Stream) :=
  if getTagWireType tag = 4 then some (m, s)
  else (skipField (skipMessage n) s tag m.unknown).bind fun done =>
    goOn none done.2 { m with unknown := done.1 }

/-- The loop, from its top or from the code of a field. Every round reads at least
a byte. -/
def mergeLoop : ℕ → Option d.Index → Stream → Message d → Option (Message d × Stream)
  | 0, _, _, _ => none
  | n + 1, some i, s, m => parseField (mergeLoop n) i s m
  | n + 1, none, s, m =>
    let (tag, s) := readTag s
    if tag = 0 then some (m, s)
    else
      match d.findFieldByNumber (getTagFieldNumber tag) with
      | some i =>
        if getTagWireType tag = (d.field i).type.wireType then parseField (mergeLoop n) i s m
        else handleUninterpreted (mergeLoop n) n tag s m
      | none => handleUninterpreted (mergeLoop n) n tag s m

def mergePartialFromCodedStream (n : ℕ) (s : Stream) (m : Message d) :
    Option (Message d × Stream) := mergeLoop n none s m

variable (d) in
def parseFromArray (mem : Memory) (data : ℤ) (size : ℕ) : Option (Message d) :=
  match mergePartialFromCodedStream (size + 1) (ofArray mem data size) (Message.clear d) with
  | some (m, s) => if m.isInitialized ∧ s.legitimateMessageEnd then some m else none
  | none => none

end Parser

section Serializer

variable {d}

/-- A field with its tag, as `WireFormatLite` writes each type. -/
def writeFieldToArray (number : ℕ) : (type : FieldType) → type.Value → List Byte
  | .string, value => writeTagToArray (makeTag32 number 2) ++
    writeVarint32ToArray (UInt32.ofNat value.length) ++ value
  | .uint32, value => writeTagToArray (makeTag32 number 0) ++ writeVarint32ToArray value
  | .uint64, value => writeTagToArray (makeTag32 number 0) ++ writeVarint64ToArray value
  | .enum _, value => writeTagToArray (makeTag32 number 0) ++
    if value.1 < 0 then writeVarint64ToArray (signExtend value.1)
    else writeVarint32ToArray value.1.toUInt32

/-- The size of a field's value; the generated code adds one for the tag. -/
def valueSize : (type : FieldType) → type.Value → ℕ
  | .string, value => varintSize32 (UInt32.ofNat value.length) + value.length
  | .uint32, value => varintSize32 value
  | .uint64, value => varintSize64 value
  | .enum _, value => if value.1 < 0 then 10 else varintSize32 value.1.toUInt32

def serializeWithCachedSizesToArray (m : Message d) : List Byte :=
  ((List.finRange d.fields.length).flatMap fun i =>
    (Slot.toList _ (m.values i)).flatMap (writeFieldToArray (d.field i).number _)) ++
    serializeUnknownFieldsToArray m.unknown

def byteSize (m : Message d) : ℕ :=
  ((List.finRange d.fields.length).map fun i =>
    ((Slot.toList _ (m.values i)).map fun value => 1 + valueSize _ value).sum).sum +
    computeUnknownFieldsSize m.unknown

end Serializer

section Values

variable {s : Stream} {bytes : List Byte}

theorem FieldType.interpret_isSome_iff (type : FieldType) (value : Scalar) :
    (type.interpret value).isSome ↔ value.wireType = type.wireType := by
  cases type with
  | enum valid =>
    cases value with
    | varint value =>
      simp only [FieldType.interpret]
      split <;> simp [Scalar.wireType, FieldType.wireType]
    | _ => simp [FieldType.interpret, Scalar.wireType, FieldType.wireType]
  | _ => cases value <;> simp [FieldType.interpret, Scalar.wireType, FieldType.wireType]

theorem readValue_eq (type : FieldType) (h : Views s bytes) :
    readValue type s = (readScalar type.wireType bytes).bind fun read =>
      (type.interpret read.1).map fun value => (value, s.seek read.2) := by
  have hcut : ∀ n : ℕ, (UInt64.ofNat n).toUInt32 = UInt32.ofNat (n % 4294967296) := by
    intro n
    rw [← UInt32.toNat_inj, UInt64.toNat_toUInt32, UInt64.toNat_ofNat', UInt32.toNat_ofNat']
    omega
  cases type with
  | string =>
    simp only [readValue, readLengthAndString_eq h, FieldType.wireType, readScalar]
    cases readLengthDelimited bytes <;> rfl
  | uint32 =>
    simp only [readValue, readVarint32_eq h, FieldType.wireType, readScalar,
      WireFields.readVarint32]
    cases decode 10 bytes with
    | none => rfl
    | some read => simp [FieldType.interpret, hcut]
  | uint64 =>
    simp only [readValue, readVarint64_eq h, FieldType.wireType, readScalar]
    cases decode 10 bytes <;> rfl
  | enum valid =>
    simp only [readValue, readVarint32_eq h, FieldType.wireType, readScalar,
      WireFields.readVarint32]
    cases decode 10 bytes with
    | none => rfl
    | some read =>
      simp only [Option.map_some, Option.bind_some, FieldType.interpret, hcut]
      split <;> rfl

theorem store_eq_absorbScalar {d : Descriptor} (m : Message d) (i : d.Index) {value : Scalar}
    {read : (d.field i).type.Value ⊕ UInt64}
    (h : (d.field i).type.interpret value = some read) :
    store m i read = m.absorbScalar (d.field i).number value := by
  have hfind := (d.findFieldByNumber_eq_some_iff _ i).mpr rfl
  cases read <;> simp only [store, Message.absorbScalar, hfind, h]

end Values

section Jumps

variable {d : Descriptor} {s : Stream} {bytes : List Byte}

def tagByte (f : FieldDescriptor) : Byte := UInt8.ofNat (makeTag f.number f.type.wireType)

theorem wireType_le (type : FieldType) : type.wireType = 0 ∨ type.wireType = 2 := by
  cases type with
  | string => exact Or.inr rfl
  | _ => exact Or.inl rfl

theorem makeTag_lt (i : d.Index) :
    makeTag (d.field i).number (d.field i).type.wireType < 128 := by
  have hsmall := d.small (d.field i) (List.get_mem d.fields i)
  have htype := wireType_le (d.field i).type
  unfold makeTag
  omega

theorem toNat_tagByte (i : d.Index) :
    (tagByte (d.field i)).toNat = makeTag (d.field i).number (d.field i).type.wireType := by
  have hlt := makeTag_lt i
  rw [tagByte, UInt8.toNat_ofNat', Nat.mod_eq_of_lt (by omega)]

theorem exists_of_expectNext {indices : List d.Index} {j : d.Index} {t : Stream}
    (h : Views s bytes) (hnext : expectNext s indices = some (j, t)) :
    ∃ rest, bytes = tagByte (d.field j) :: rest ∧ t = s.seek rest := by
  induction indices with
  | nil => cases hnext
  | cons i indices ih =>
    have hsmall := d.small (d.field i) (List.get_mem d.fields i)
    have htype := wireType_le (d.field i).type
    have htag : tagOf (d.field i) =
        UInt32.ofNat (makeTag (d.field i).number (d.field i).type.wireType) :=
      makeTag32_eq (by omega) (by omega)
    rw [expectNext, htag, expectTag_eq h _ (makeTag_lt i)] at hnext
    cases bytes with
    | nil => exact ih hnext
    | cons b rest =>
      by_cases hb : b.toNat = makeTag (d.field i).number (d.field i).type.wireType
      · simp only [hb, ↓reduceIte] at hnext
        have hbyte : b = tagByte (d.field i) :=
          UInt8.toNat_inj.mp (hb.trans (toNat_tagByte i).symm)
        cases hnext
        exact ⟨rest, by rw [hbyte], rfl⟩
      · simp only [hb, ↓reduceIte] at hnext
        exact ih hnext

theorem readVarint32_tagByte (i : d.Index) (rest : List Byte) :
    WireFields.readVarint32 (tagByte (d.field i) :: rest) =
      some (makeTag (d.field i).number (d.field i).type.wireType, rest) := by
  have hlt := makeTag_lt i
  have hbyte := toNat_tagByte i
  rw [WireFields.readVarint32, decode_byte 9 _ _ (by omega), Option.map_some, hbyte,
    Nat.mod_eq_of_lt (by omega)]

end Jumps

section Loop

variable {d : Descriptor} {s : Stream} {bytes : List Byte} {n depth : ℕ}

/-- What the loop is to build, from its top and from the code of every field, where
the tag of that field was already passed over. -/
def LoopAgrees (d : Descriptor) (n : ℕ) : Prop :=
  ∀ {s : Stream} {bytes : List Byte} {depth : ℕ}, Views s bytes →
    s.recursionDepth + depth = kDefaultRecursionLimit → ∀ m : Message d,
    Agrees s m.absorb (mergeLoop n none s m) (readFields n depth bytes) ∧
    ∀ i, Agrees s m.absorb (mergeLoop n (some i) s m)
      (readFields n depth (tagByte (d.field i) :: bytes))

theorem parseField_agrees (ih : LoopAgrees d n) (h : Views s bytes)
    (hdepth : s.recursionDepth + depth = kDefaultRecursionLimit) (m : Message d) (i : d.Index) :
    Agrees s m.absorb (parseField (mergeLoop n) i s m)
      ((readScalar (d.field i).type.wireType bytes).bind fun value =>
        (readFields n depth value.2).map fun more =>
          (.scalar (d.field i).number value.1 more.1, more.2)) := by
  rw [parseField, readValue_eq _ h]
  cases hread : readScalar (d.field i).type.wireType bytes with
  | none => exact .of_none _ rfl
  | some read =>
    obtain ⟨value, rest⟩ := read
    obtain ⟨front, hfront⟩ := readScalar_eq_append hread
    obtain ⟨typed, htyped⟩ := Option.isSome_iff_exists.mp
      ((FieldType.interpret_isSome_iff _ _).mpr (wireType_of_readScalar hread).1)
    have hrest : Views (s.seek rest) rest := (hfront ▸ h).seek
    have hstore := store_eq_absorbScalar m i htyped
    simp only [Option.bind_some, htyped, Option.map_some, hstore]
    cases hnext : expectNext (s.seek rest) (expected i) with
    | none =>
      have hmore := (ih hrest hdepth (m.absorbScalar (d.field i).number value)).1
      exact hmore.cons (.scalar (d.field i).number value) (fun _ => rfl) (fun _ _ => rfl) rfl
    | some jump =>
      obtain ⟨j, t⟩ := jump
      obtain ⟨after, rfl, rfl⟩ := exists_of_expectNext hrest hnext
      have hafter : Views ((s.seek (tagByte (d.field j) :: after)).seek after) after :=
        hrest.tail
      have hmore := (ih hafter hdepth (m.absorbScalar (d.field i).number value)).2 j
      exact hmore.cons (.scalar (d.field i).number value) (fun _ => rfl) (fun _ _ => rfl) rfl

theorem absorbScalar_of_unknown (m : Message d) {number : ℕ} {value : Scalar}
    (h : ∀ i, d.findFieldByNumber number = some i →
      (d.field i).type.wireType ≠ value.wireType) :
    m.absorbScalar number value = { m with unknown := addScalar m.unknown number value } := by
  unfold Message.absorbScalar
  split
  · rename_i i hfind
    have hnone : (d.field i).type.interpret value = none := by
      rw [← Option.not_isSome_iff_eq_none, FieldType.interpret_isSome_iff]
      exact (h i hfind).symm
    rw [hnone]
    rfl
  · rfl

theorem handleUninterpreted_agrees (ih : LoopAgrees d n) (h : Views s bytes)
    (hdepth : s.recursionDepth + depth = kDefaultRecursionLimit) (m : Message d) {tag : ℕ}
    (htag : tag < 4294967296) (hend : tag % 8 ≠ 4)
    (hother : ∀ i, d.findFieldByNumber (tag / 8) = some i →
      (d.field i).type.wireType ≠ tag % 8) :
    Agrees s m.absorb (handleUninterpreted (mergeLoop n) n (UInt32.ofNat tag) s m)
      (if tag % 8 = 3 then
        if depth = 0 then none
        else (readFields n (depth - 1) bytes).bind fun inner =>
          if inner.2.1 = tag + 1 then
            (readFields n depth inner.2.2).map fun more =>
              (.group (tag / 8) inner.1 more.1, more.2)
          else none
      else (readScalar (tag % 8) bytes).bind fun value =>
        (readFields n depth value.2).map fun more =>
          (.scalar (tag / 8) value.1 more.1, more.2)) := by
  rw [handleUninterpreted, getTagWireType_ofNat htag, if_neg hend]
  by_cases hgroup : tag % 8 = 3
  · rw [if_pos hgroup, skipField_group htag hgroup h hdepth m.unknown
      (fun hviews hd fields => skipMessage_agrees hviews hd fields)]
    by_cases hflat : depth = 0
    · rw [if_pos hflat, if_pos hflat]
      exact .of_none _ rfl
    rw [if_neg hflat, if_neg hflat]
    cases hinner : readFields n (depth - 1) bytes with
    | none => exact .of_none _ rfl
    | some inner =>
      obtain ⟨group, last, middle⟩ := inner
      obtain ⟨body, hbody⟩ := (reads_of_readFields hinner).exists_append
      simp only [Option.bind_some]
      by_cases hmatch : last = tag + 1
      · have hmiddle := (hbody ▸ h).seek.tagged (tag + 1)
        have hmore := (ih hmiddle hdepth (m.addUnknown (.group (tag / 8) group .nil))).1
        rw [if_pos hmatch, if_pos hmatch]
        exact hmore.cons (.group (tag / 8) group) (fun _ => rfl) (fun _ _ => rfl) rfl
      · rw [if_neg hmatch, if_neg hmatch]
        exact .of_none _ rfl
  · rw [if_neg hgroup, skipField_scalar _ h htag hgroup]
    cases hvalue : readScalar (tag % 8) bytes with
    | none => exact .of_none _ rfl
    | some read =>
      obtain ⟨value, middle⟩ := read
      obtain ⟨body, hbody⟩ := readScalar_eq_append hvalue
      have htype := (wireType_of_readScalar hvalue).1
      have hkept := absorbScalar_of_unknown (d := d) m
        (fun i hi => htype ▸ hother i hi)
      have hmiddle := (hbody ▸ h).seek
      have hmore := (ih hmiddle hdepth (m.absorbScalar (tag / 8) value)).1
      rw [Option.map_some, Option.bind_some, Option.bind_some, ← hkept]
      exact hmore.cons (.scalar (tag / 8) value) (fun _ => rfl) (fun _ _ => rfl) rfl

/-- The generated loop, with its jumps, reads the fields that the grammar gives and
reads them into the message in order. -/
theorem mergeLoop_agrees (d : Descriptor) (n : ℕ) : LoopAgrees d n := by
  induction n with
  | zero =>
    intro s bytes depth h hdepth m
    exact ⟨.of_none _ rfl, fun i => .of_none _ rfl⟩
  | succ n ih =>
    intro s bytes depth h hdepth m
    constructor
    · cases bytes with
      | nil =>
        have hstop : readTag s = (0, finish s 0 []) := by
          rw [readTag_nil h, finish, h.seek_self]
          rfl
        rw [readFields_nil, Agrees, mergeLoop, hstop]
        rfl
      | cons b bytes =>
        rw [readFields]
        cases hread : WireFields.readVarint32 (b :: bytes) with
        | none =>
          intro out hout
          rw [mergeLoop, readTag_none h (List.cons_ne_nil b bytes) hread] at hout
          cases hout
          exact ⟨rfl, rfl⟩
        | some read =>
          obtain ⟨tag, rest⟩ := read
          have htag := readVarint32_lt hread
          obtain ⟨front, hfront⟩ := readVarint32_eq_append hread
          have hrest : Views ((s.seek rest).tagged tag) rest := (hfront ▸ h).seek.tagged tag
          simp only [mergeLoop, readTag_some h hread, Option.bind_some,
            ofNat32_eq_zero_iff htag, getTagWireType_ofNat htag, getTagFieldNumber_ofNat htag]
          by_cases hzero : tag = 0
          · rw [if_pos hzero, if_pos hzero]
            intro out hout
            cases hout
            rw [hzero]
            exact ⟨rfl, rfl⟩
          rw [if_neg hzero, if_neg hzero]
          by_cases hknown : ∃ i, d.findFieldByNumber (tag / 8) = some i ∧
              tag % 8 = (d.field i).type.wireType
          · obtain ⟨i, hfind, hsame⟩ := hknown
            have htype := wireType_le (d.field i).type
            have hnumber := (d.findFieldByNumber_eq_some_iff _ i).mp hfind
            have hfield := parseField_agrees ih hrest hdepth m i
            simp only [hfind, hsame, ↓reduceIte]
            rw [if_neg (by omega), if_neg (by omega), ← hnumber]
            exact hfield.of_finish (fun _ _ => rfl) rfl
          · have hother : ∀ i, d.findFieldByNumber (tag / 8) = some i →
                (d.field i).type.wireType ≠ tag % 8 :=
              fun i hi hsame => hknown ⟨i, hi, hsame.symm⟩
            have hskip : (match d.findFieldByNumber (tag / 8) with
                | some i =>
                  if tag % 8 = (d.field i).type.wireType then
                    parseField (mergeLoop n) i ((s.seek rest).tagged tag) m
                  else handleUninterpreted (mergeLoop n) n (UInt32.ofNat tag)
                    ((s.seek rest).tagged tag) m
                | none => handleUninterpreted (mergeLoop n) n (UInt32.ofNat tag)
                    ((s.seek rest).tagged tag) m) =
                handleUninterpreted (mergeLoop n) n (UInt32.ofNat tag)
                  ((s.seek rest).tagged tag) m := by
              cases hfind : d.findFieldByNumber (tag / 8) with
              | none => rfl
              | some i => exact if_neg (hother i hfind).symm
            rw [hskip]
            by_cases hend : tag % 8 = 4
            · rw [if_pos hend, handleUninterpreted, getTagWireType_ofNat htag, if_pos hend,
                Agrees, finish, if_neg hzero]
              rfl
            · rw [if_neg hend]
              have hkept := handleUninterpreted_agrees ih hrest hdepth m htag hend hother
              exact hkept.of_finish (fun _ _ => rfl) rfl
    · intro i
      have hpos := (d.small (d.field i) (List.get_mem d.fields i)).1
      have htype := wireType_le (d.field i).type
      have htag : makeTag (d.field i).number (d.field i).type.wireType ≠ 0 := by
        unfold makeTag
        omega
      have hmod : makeTag (d.field i).number (d.field i).type.wireType % 8 =
          (d.field i).type.wireType := by
        unfold makeTag
        omega
      have hdiv : makeTag (d.field i).number (d.field i).type.wireType / 8 =
          (d.field i).number := by
        unfold makeTag
        omega
      simp only [readFields, readVarint32_tagByte, Option.bind_some, hmod, hdiv]
      rw [if_neg htag, if_neg (by omega), if_neg (by omega)]
      exact parseField_agrees ih h hdepth m i

end Loop

section Arrays

variable (d : Descriptor)

/-- What a message type makes of bytes: the fields of the grammar, read into an
empty message, if they set every required field. -/
def parse (bytes : List Byte) : Option (Message d) :=
  (records kDefaultRecursionLimit bytes).bind fun fields =>
    let m := (Message.clear d).absorb fields
    if m.isInitialized then some m else none

theorem views_ofArray {mem : Memory} {data : ℤ} {bytes : List Byte}
    (h : Holds mem data bytes) : Views (ofArray mem data bytes.length) bytes := ⟨h, rfl⟩

theorem parseFromArray_eq {mem : Memory} {data : ℤ} {bytes : List Byte}
    (h : Holds mem data bytes) :
    parseFromArray d mem data bytes.length =
      if bytes.length ≤ kDefaultTotalBytesLimit then parse d bytes else none := by
  have hdepth : (ofArray mem data bytes.length).recursionDepth + kDefaultRecursionLimit =
      kDefaultRecursionLimit := Nat.zero_add _
  have hagrees := (mergeLoop_agrees d (bytes.length + 1) (views_ofArray h) hdepth
    (Message.clear d)).1
  rw [parseFromArray, mergePartialFromCodedStream, parse, records]
  cases hread : readFields (bytes.length + 1) kDefaultRecursionLimit bytes with
  | none =>
    rw [hread] at hagrees
    refine Eq.trans ?_ (ite_self none).symm
    split
    · rename_i m s hloop
      have hlegit : s.legitimateMessageEnd = false := (hagrees _ hloop).2
      rw [if_neg]
      rintro ⟨-, hend⟩
      exact Bool.false_ne_true (hlegit.symm.trans hend)
    · rfl
  | some read =>
    obtain ⟨fields, last, rest⟩ := read
    rw [hread] at hagrees
    have hloop : mergeLoop (bytes.length + 1) none (ofArray mem data bytes.length)
        (Message.clear d) = some ((Message.clear d).absorb fields, finish _ last rest) := hagrees
    rw [hloop]
    cases last with
    | zero =>
      by_cases hlimit : bytes.length ≤ kDefaultTotalBytesLimit
      · simp [finish, ofArray, hlimit]
      · simp [finish, ofArray, hlimit]
    | succ last => simp [finish, ofArray]

end Arrays

section Writing

variable {d : Descriptor}

theorem encode_nine (value : UInt32) : encode 9 value.toNat = encode 4 value.toNat :=
  encode_more 4 9 _ (Nat.lt_trans value.toNat_lt (by decide)) (by omega)

theorem toNat_signExtend (value : Int32) :
    (signExtend value).toNat =
      value.toUInt32.toNat + if value < 0 then 18446744069414584320 else 0 := by
  have hneg : value.toBitVec.msb = true ↔ value < 0 := by
    rw [BitVec.msb_eq_toInt, decide_eq_true_iff, Int32.lt_iff_toInt_lt]
    rfl
  have hnat : (signExtend value).toNat = (value.toBitVec.signExtend 64).toNat := rfl
  have hsmall : value.toBitVec.toNat < 4294967296 := value.toBitVec.isLt
  rw [hnat, BitVec.toNat_signExtend, BitVec.toNat_setWidth, Nat.mod_eq_of_lt (by omega)]
  simp only [hneg]
  rfl

theorem writeFieldToArray_eq {number : ℕ} (hnumber : number < 536870912) (type : FieldType)
    (value : type.Value) (hfits : (type.toScalar value).Fits) :
    writeFieldToArray number type value =
      tagBytes number (type.toScalar value).wireType ++ (type.toScalar value).bytes := by
  cases type with
  | string =>
    unfold FieldType.toScalar Scalar.Fits at hfits
    rw [writeFieldToArray, writeTagToArray_makeTag32 hnumber (by omega),
      writeVarint32ToArray_eq, toNat_ofNat32 (by omega), List.append_assoc]
    rfl
  | uint32 =>
    rw [writeFieldToArray, writeTagToArray_makeTag32 hnumber (by omega),
      writeVarint32ToArray_eq]
    have hsame := encode_nine value
    simp only [FieldType.toScalar, Scalar.bytes, Scalar.wireType, UInt32.toNat_toUInt64, hsame]
  | uint64 =>
    rw [writeFieldToArray, writeTagToArray_makeTag32 hnumber (by omega),
      writeVarint64ToArray_eq]
    rfl
  | enum valid =>
    have hnat := toNat_signExtend value.1
    rw [writeFieldToArray, writeTagToArray_makeTag32 hnumber (by omega)]
    by_cases hneg : value.1 < 0
    · rw [if_pos hneg, writeVarint64ToArray_eq]
      rfl
    · have hsame := encode_nine value.1.toUInt32
      rw [if_neg hneg] at hnat
      simp only [if_neg hneg, writeVarint32ToArray_eq, FieldType.toScalar, Scalar.bytes,
        Scalar.wireType, hnat, hsame, Nat.add_zero]

theorem FieldType.wireType_toScalar (type : FieldType) (value : type.Value) :
    (type.toScalar value).wireType = type.wireType := by
  cases type <;> rfl

theorem valueSize_eq (type : FieldType) (value : type.Value)
    (hfits : (type.toScalar value).Fits) :
    valueSize type value = (type.toScalar value).bytes.length := by
  cases type with
  | string =>
    unfold FieldType.toScalar Scalar.Fits at hfits
    rw [valueSize, varintSize32_eq, toNat_ofNat32 (by omega), FieldType.toScalar, Scalar.bytes,
      List.length_append]
  | uint32 =>
    have hsame := encode_nine value
    simp only [valueSize, varintSize32_eq, FieldType.toScalar, Scalar.bytes,
      UInt32.toNat_toUInt64, hsame]
  | uint64 => exact varintSize64_eq value
  | enum valid =>
    have hnat := toNat_signExtend value.1
    have hlt := value.1.toUInt32.toNat_lt
    simp only [valueSize, FieldType.toScalar, Scalar.bytes]
    by_cases hneg : value.1 < 0
    · rw [if_pos hneg] at hnat
      rw [if_pos hneg, length_encode_eq 9 9 _ (by omega) (by omega) (by omega)]
    · have hsame := encode_nine value.1.toUInt32
      rw [if_neg hneg] at hnat
      simp only [if_neg hneg, varintSize32_eq, hnat, hsame, Nat.add_zero]

theorem serializeWithCachedSizesToArray_eq (m : Message d) {depth : ℕ} (h : m.Proper depth) :
    serializeWithCachedSizesToArray m = m.toFields.bytes := by
  have hfold : ∀ indices : List d.Index,
      (indices.flatMap fun i => (Slot.toList _ (m.values i)).flatMap
        (writeFieldToArray (d.field i).number _)) ++ serializeUnknownFieldsToArray m.unknown =
      (indices.foldr (fun i more =>
        fieldFields (d.field i) (Slot.toList _ (m.values i)) more) m.unknown).bytes := by
    intro indices
    induction indices with
    | nil => exact serializeUnknownFieldsToArray_eq h.unknownFits
    | cons i indices ih =>
      have hsmall := d.small (d.field i) (List.get_mem d.fields i)
      rw [List.flatMap_cons, List.append_assoc, ih, List.foldr_cons, bytes_fieldFields]
      congr 1
      apply List.flatMap_congr
      intro value hvalue
      exact writeFieldToArray_eq (by omega) _ value (h.valuesFit i value hvalue)
  exact hfold _

theorem byteSize_eq (m : Message d) {depth : ℕ} (h : m.Proper depth) :
    byteSize m = m.toFields.bytes.length := by
  have hfold : ∀ indices : List d.Index,
      (indices.map fun i => ((Slot.toList _ (m.values i)).map fun value =>
        1 + valueSize _ value).sum).sum + computeUnknownFieldsSize m.unknown =
      (indices.foldr (fun i more =>
        fieldFields (d.field i) (Slot.toList _ (m.values i)) more) m.unknown).bytes.length := by
    intro indices
    induction indices with
    | nil => simpa using computeUnknownFieldsSize_eq h.unknownFits
    | cons i indices ih =>
      rw [List.map_cons, List.sum_cons, Nat.add_assoc, ih, List.foldr_cons, bytes_fieldFields,
        List.length_append, List.length_flatMap]
      congr 2
      apply List.map_congr_left
      intro value hvalue
      have hfits := h.valuesFit i value hvalue
      have htag : (tagBytes (d.field i).number (d.field i).type.wireType).length = 1 := by
        rw [tagBytes, encode_small _ _ (makeTag_lt i), List.length_singleton]
      rw [valueSize_eq _ value hfits, List.length_append, FieldType.wireType_toScalar, htag]
  exact hfold _

theorem fits_of_valueSize (type : FieldType) (value : type.Value)
    (h : valueSize type value < 2147483648) : (type.toScalar value).Fits := by
  cases type with
  | string =>
    simp only [valueSize] at h
    simp only [FieldType.toScalar, Scalar.Fits]
    omega
  | _ => trivial

theorem valueSize_le_byteSize (m : Message d) (i : d.Index) {value : (d.field i).type.Value}
    (h : value ∈ Slot.toList _ (m.values i)) : valueSize _ value ≤ byteSize m := by
  have hone := List.le_sum_of_mem (List.mem_map_of_mem (f := fun value => 1 + valueSize _ value) h)
  have hall := List.le_sum_of_mem (List.mem_map_of_mem
    (f := fun i => ((Slot.toList _ (m.values i)).map fun value => 1 + valueSize _ value).sum)
    (List.mem_finRange i))
  unfold byteSize
  omega

theorem proper_of_byteSize (m : Message d) (depth : ℕ) (hunknown : m.unknown = .nil)
    (hsize : byteSize m < 2147483648) : m.Proper depth where
  ignored := by
    rw [hunknown]
    trivial
  unknownFits := by
    rw [hunknown]
    trivial
  valuesFit i value hvalue := by
    have hle := valueSize_le_byteSize m i hvalue
    exact fits_of_valueSize _ value (by omega)

end Writing

section Results

variable {d : Descriptor} {mem : Memory} {data : ℤ} {bytes : List Byte}

theorem parse_eq_some_iff (m : Message d) :
    parse d bytes = some m ↔ ∃ fields, records kDefaultRecursionLimit bytes = some fields ∧
      m = (Message.clear d).absorb fields ∧ m.isInitialized = true := by
  rw [parse, Option.bind_eq_some_iff]
  constructor
  · rintro ⟨fields, hfields, hm⟩
    simp only [Option.ite_none_right_eq_some, Option.some.injEq] at hm
    exact ⟨fields, hfields, hm.2.symm, hm.2 ▸ hm.1⟩
  · rintro ⟨fields, hfields, rfl, hinit⟩
    exact ⟨fields, hfields, if_pos hinit⟩

theorem parseFromArray_eq_some_iff (h : Holds mem data bytes) (m : Message d) :
    parseFromArray d mem data bytes.length = some m ↔
      bytes.length ≤ kDefaultTotalBytesLimit ∧ parse d bytes = some m := by
  rw [parseFromArray_eq d h, Option.ite_none_right_eq_some]

/-- The generated parser accepts an array exactly if it is a sequence of fields of
the grammar, within the limits, that sets every required field. Its message is
what these fields are read into, one after the other. -/
theorem parseFromArray_iff_reads (h : Holds mem data bytes) (m : Message d) :
    parseFromArray d mem data bytes.length = some m ↔
      bytes.length ≤ kDefaultTotalBytesLimit ∧ m.isInitialized = true ∧
        ∃ fields, Reads kDefaultRecursionLimit bytes fields 0 [] ∧
          m = (Message.clear d).absorb fields := by
  rw [parseFromArray_eq_some_iff h, parse_eq_some_iff]
  simp only [records_eq_some_iff]
  constructor
  · rintro ⟨hlimit, fields, hreads, hm, hinit⟩
    exact ⟨hlimit, hinit, fields, hreads, hm⟩
  · rintro ⟨hlimit, hinit, fields, hreads, hm⟩
    exact ⟨hlimit, fields, hreads, hm, hinit⟩

def pingFive : Message ping := (Message.clear ping).put ⟨0, by decide⟩ (5 : UInt32)

theorem parseFromArray_iff_reads_ping :
    parseFromArray ping (blockMemory (fun _ => 255) [0x08, 0x05]) 0 2 = some pingFive :=
  (parseFromArray_iff_reads (holds_blockMemory _ [0x08, 0x05]) pingFive).mpr
    ⟨by decide, by decide, .scalar 1 (.varint 5) .nil,
      (records_eq_some_iff _ _ _).mp (by decide +kernel), rfl⟩

theorem parseFromArray_written (m : Message d) (hproper : m.Proper kDefaultRecursionLimit)
    (hinit : m.isInitialized = true) (hsize : byteSize m ≤ kDefaultTotalBytesLimit)
    (h : Holds mem data (serializeWithCachedSizesToArray m)) :
    parseFromArray d mem data (byteSize m) = some m := by
  have hlength : byteSize m = (serializeWithCachedSizesToArray m).length := by
    rw [byteSize_eq m hproper, serializeWithCachedSizesToArray_eq m hproper]
  rw [hlength] at hsize ⊢
  refine (parseFromArray_eq_some_iff h m).mpr ⟨hsize, (parse_eq_some_iff m).mpr ?_⟩
  refine ⟨m.toFields, ?_, (m.absorb_clear_toFields hproper.ignored).symm, hinit⟩
  rw [serializeWithCachedSizesToArray_eq m hproper, records_bytes _ _ hproper.fits_toFields]

/-- A message that can be written is read back from the bytes written for it, whose
number is the one computed before. -/
theorem parseFromArray_serialize (m : Message d) (hproper : m.Proper kDefaultRecursionLimit)
    (hinit : m.isInitialized = true) (hsize : byteSize m ≤ kDefaultTotalBytesLimit)
    (around : Memory) :
    parseFromArray d (blockMemory around (serializeWithCachedSizesToArray m)) 0 (byteSize m) =
      some m ∧ (serializeWithCachedSizesToArray m).length = byteSize m := by
  refine ⟨parseFromArray_written m hproper hinit hsize (holds_blockMemory around _), ?_⟩
  rw [byteSize_eq m hproper, serializeWithCachedSizesToArray_eq m hproper]

theorem proper_pingFive : pingFive.Proper kDefaultRecursionLimit :=
  (Message.proper_clear ping _).put _ _ trivial

theorem parseFromArray_serialize_ping :
    parseFromArray ping
      (blockMemory (fun _ => 0) (serializeWithCachedSizesToArray pingFive)) 0
        (byteSize pingFive) = some pingFive :=
  (parseFromArray_serialize pingFive proper_pingFive (by decide) (by decide) fun _ => 0).1

theorem proper_of_parse {m : Message d} (h : parse d bytes = some m) :
    m.Proper kDefaultRecursionLimit ∧ m.isInitialized = true := by
  obtain ⟨fields, hfields, rfl, hinit⟩ := (parse_eq_some_iff m).mp h
  exact ⟨(Message.proper_clear d _).absorb (fits_of_records hfields), hinit⟩

theorem byteSize_le_of_parse (hplain : d.Plain) {m : Message d} (h : parse d bytes = some m) :
    byteSize m ≤ bytes.length := by
  have hproper := (proper_of_parse h).1
  obtain ⟨fields, hfields, rfl, -⟩ := (parse_eq_some_iff m).mp h
  have hle := (Message.clear d).length_absorb_le hplain fields
  have hbytes := length_bytes_le_of_records hfields
  rw [Message.toFields_clear] at hle
  simp only [Fields.bytes, List.length_nil] at hle
  rw [byteSize_eq _ hproper]
  omega

/-- What the parser accepted can be forwarded: written again it takes no more bytes
and is read as the same message, with all the fields that were not known. -/
theorem parseFromArray_forwarded (hplain : d.Plain) (h : Holds mem data bytes) {m : Message d}
    (hm : parseFromArray d mem data bytes.length = some m) :
    byteSize m ≤ bytes.length ∧
      ∀ around, parseFromArray d (blockMemory around (serializeWithCachedSizesToArray m)) 0
        (byteSize m) = some m := by
  obtain ⟨hlimit, hparse⟩ := (parseFromArray_eq_some_iff h m).mp hm
  obtain ⟨hproper, hinit⟩ := proper_of_parse hparse
  have hsize := byteSize_le_of_parse hplain hparse
  refine ⟨hsize, fun around => ?_⟩
  exact parseFromArray_written m hproper hinit (by omega) (holds_blockMemory around _)

theorem plain_ping : ping.Plain := by
  intro i valid
  have hi : i = ⟨0, by decide⟩ := Fin.ext (Nat.lt_one_iff.mp i.isLt)
  rw [hi]
  exact FieldType.noConfusion

/-- A ping with a string in a field that a ping does not have. -/
theorem parseFromArray_forwarded_ping : ∃ m : Message ping,
    m.unknown ≠ .nil ∧ byteSize m ≤ 6 := by
  have hbytes := holds_blockMemory (fun _ => 0) [0x08, 0x05, 0x12, 0x02, 0x68, 0x69]
  refine ⟨(Message.clear ping).absorb
    (.scalar 1 (.varint 5) (.scalar 2 (.lengthDelimited [0x68, 0x69]) .nil)), by decide, ?_⟩
  refine (parseFromArray_forwarded plain_ping hbytes ?_).1
  refine (parseFromArray_eq_some_iff hbytes _).mpr ⟨by decide, (parse_eq_some_iff _).mpr ?_⟩
  exact ⟨_, by decide +kernel, rfl, by decide⟩

end Results

end BlackCat.ProtoParser
