import BlackCat.CodedInputStream
import BlackCat.CodedOutputStream

/-!
Protobuf's `WireFormat`: fields that a message does not know are read into an
`UnknownFieldSet` and written back from it. Reading them recurses through
groups, with the depth counted on the stream. It accepts what the grammar of
fields accepts and collects the same fields.
-/
namespace BlackCat.WireFormat

open ByteMemory Varints WireFields CodedInputStream CodedOutputStream

abbrev UnknownFieldSet := Fields

def getTagWireType (tag : UInt32) : ℕ := (tag &&& 7).toNat

def getTagFieldNumber (tag : UInt32) : ℕ := (tag >>> 3).toNat

/-- `MakeTag`, on the 32 bits of a tag. -/
def makeTag32 (number type : ℕ) : UInt32 := UInt32.ofNat number <<< 3 ||| UInt32.ofNat type

def addScalar (fields : UnknownFieldSet) (number : ℕ) (value : Scalar) : UnknownFieldSet :=
  fields.append (.scalar number value .nil)

def addGroup (fields : UnknownFieldSet) (number : ℕ) (group : UnknownFieldSet) :
    UnknownFieldSet :=
  fields.append (.group number group .nil)

/-- A length and the string of that length, as `WireFormatLite::ReadString` and
`SkipField` read them. -/
def readLengthAndString (s : Stream) : Option (List Byte × Stream) :=
  (readVarint32 s).bind fun length => readString length.2 (int32 length.1.toNat)

/-- `SkipField`. It gets the function that reads the fields of a group. -/
def skipField (skipMessage : Stream → UnknownFieldSet → Option (UnknownFieldSet × Stream))
    (s : Stream) (tag : UInt32) (fields : UnknownFieldSet) : Option (UnknownFieldSet × Stream) :=
  let number := getTagFieldNumber tag
  match getTagWireType tag with
  | 0 => (readVarint64 s).map fun read => (addScalar fields number (.varint read.1), read.2)
  | 1 => (readLittleEndian64 s).map fun read =>
    (addScalar fields number (.fixed64 read.1), read.2)
  | 2 => (readLengthAndString s).map fun read =>
    (addScalar fields number (.lengthDelimited read.1), read.2)
  | 3 => (incrementRecursionDepth s).bind fun s =>
    (skipMessage s .nil).bind fun group =>
      let s := decrementRecursionDepth group.2
      if s.lastTag = makeTag32 number 4 then some (addGroup fields number group.1, s) else none
  | 4 => none
  | 5 => (readLittleEndian32 s).map fun read =>
    (addScalar fields number (.fixed32 read.1), read.2)
  | _ => none

/-- `SkipMessage`. Every round reads at least a byte, so that a round for each
byte left and one more are enough. -/
def skipMessage : ℕ → Stream → UnknownFieldSet → Option (UnknownFieldSet × Stream)
  | 0, _, _ => none
  | n + 1, s, fields =>
    let (tag, s) := readTag s
    if tag = 0 then some (fields, s)
    else if getTagWireType tag = 4 then some (fields, s)
    else (skipField (skipMessage n) s tag fields).bind fun done => skipMessage n done.2 done.1

section Writing

def serializeScalarToArray (number : ℕ) : Scalar → List Byte
  | .varint value => writeTagToArray (makeTag32 number 0) ++ writeVarint64ToArray value
  | .fixed32 value => writeTagToArray (makeTag32 number 5) ++ valueBytes 4 value.toNat
  | .fixed64 value => writeTagToArray (makeTag32 number 1) ++ valueBytes 8 value.toNat
  | .lengthDelimited data => writeTagToArray (makeTag32 number 2) ++
    writeVarint32ToArray (UInt32.ofNat data.length) ++ data

def serializeUnknownFieldsToArray : UnknownFieldSet → List Byte
  | .nil => []
  | .scalar number value rest =>
    serializeScalarToArray number value ++ serializeUnknownFieldsToArray rest
  | .group number group rest =>
    writeTagToArray (makeTag32 number 3) ++ serializeUnknownFieldsToArray group ++
      writeTagToArray (makeTag32 number 4) ++ serializeUnknownFieldsToArray rest

def computeScalarSize (number : ℕ) : Scalar → ℕ
  | .varint value => varintSize32 (makeTag32 number 0) + varintSize64 value
  | .fixed32 _ => varintSize32 (makeTag32 number 5) + 4
  | .fixed64 _ => varintSize32 (makeTag32 number 1) + 8
  | .lengthDelimited data => varintSize32 (makeTag32 number 2) +
    varintSize32 (UInt32.ofNat data.length) + data.length

def computeUnknownFieldsSize : UnknownFieldSet → ℕ
  | .nil => 0
  | .scalar number value rest => computeScalarSize number value + computeUnknownFieldsSize rest
  | .group number group rest => varintSize32 (makeTag32 number 3) +
    computeUnknownFieldsSize group + varintSize32 (makeTag32 number 4) +
    computeUnknownFieldsSize rest

end Writing

section Tags

theorem toNat_ofNat32 {n : ℕ} (h : n < 4294967296) : (UInt32.ofNat n).toNat = n := by
  rw [UInt32.toNat_ofNat', Nat.mod_eq_of_lt (by omega)]

theorem getTagWireType_ofNat {tag : ℕ} (h : tag < 4294967296) :
    getTagWireType (UInt32.ofNat tag) = tag % 8 := by
  rw [getTagWireType, UInt32.toNat_and, toNat_ofNat32 h]
  exact Nat.and_two_pow_sub_one_eq_mod tag 3

theorem getTagFieldNumber_ofNat {tag : ℕ} (h : tag < 4294967296) :
    getTagFieldNumber (UInt32.ofNat tag) = tag / 8 := by
  rw [getTagFieldNumber, toNat_shiftRight32 _ 3 3 rfl (by omega), toNat_ofNat32 h, Nat.pow_succ]

theorem makeTag32_eq {number type : ℕ} (hnumber : number < 536870912) (htype : type < 8) :
    makeTag32 number type = UInt32.ofNat (makeTag number type) := by
  have hn : (UInt32.ofNat number).toNat = number := toNat_ofNat32 (by omega)
  have ht : (UInt32.ofNat type).toNat = type := toNat_ofNat32 (by omega)
  have hor := Nat.two_pow_add_eq_or_of_lt (i := 3) htype number
  rw [← UInt32.toNat_inj, makeTag32, UInt32.toNat_or, UInt32.toNat_shiftLeft, hn, ht,
    toNat_ofNat32 (by unfold makeTag; omega), Nat.shiftLeft_eq, makeTag]
  have hshift : number * 2 ^ ((3 : UInt32).toNat % 32) % 2 ^ 32 = 2 ^ 3 * number := by
    have hthree : (3 : UInt32).toNat % 32 = 3 := rfl
    rw [hthree, Nat.mod_eq_of_lt (by omega), Nat.mul_comm]
  rw [hshift, ← hor]
  omega

theorem ofNat32_eq_zero_iff {n : ℕ} (h : n < 4294967296) : UInt32.ofNat n = 0 ↔ n = 0 := by
  rw [← UInt32.toNat_inj, toNat_ofNat32 h]
  rfl

end Tags

section Written

theorem writeTagToArray_makeTag32 {number type : ℕ} (hnumber : number < 536870912)
    (htype : type < 8) : writeTagToArray (makeTag32 number type) = tagBytes number type := by
  rw [writeTagToArray_eq, makeTag32_eq hnumber htype,
    toNat_ofNat32 (by unfold makeTag; omega), tagBytes]

theorem varintSize32_makeTag32 {number type : ℕ} (hnumber : number < 536870912)
    (htype : type < 8) : varintSize32 (makeTag32 number type) = (tagBytes number type).length := by
  rw [varintSize32_eq, makeTag32_eq hnumber htype,
    toNat_ofNat32 (by unfold makeTag; omega), tagBytes]

theorem serializeScalarToArray_eq {number : ℕ} {value : Scalar} (hnumber : number < 536870912)
    (hvalue : value.Fits) :
    serializeScalarToArray number value = tagBytes number value.wireType ++ value.bytes := by
  cases value with
  | varint value =>
    rw [serializeScalarToArray, writeTagToArray_makeTag32 hnumber (by omega),
      writeVarint64ToArray_eq]
    rfl
  | fixed64 value =>
    rw [serializeScalarToArray, writeTagToArray_makeTag32 hnumber (by omega)]
    rfl
  | lengthDelimited data =>
    unfold Scalar.Fits at hvalue
    rw [serializeScalarToArray, writeTagToArray_makeTag32 hnumber (by omega),
      writeVarint32ToArray_eq, toNat_ofNat32 (by omega), List.append_assoc]
    rfl
  | fixed32 value =>
    rw [serializeScalarToArray, writeTagToArray_makeTag32 hnumber (by omega)]
    rfl

theorem serializeUnknownFieldsToArray_eq {depth : ℕ} {fields : UnknownFieldSet}
    (h : fields.Fits depth) : serializeUnknownFieldsToArray fields = fields.bytes := by
  induction fields generalizing depth with
  | nil => rfl
  | scalar number value rest ih =>
    obtain ⟨-, hnumber, hvalue, hrest⟩ := h
    rw [serializeUnknownFieldsToArray, serializeScalarToArray_eq hnumber hvalue, ih hrest,
      Fields.bytes]
  | group number group rest ihgroup ih =>
    obtain ⟨hnumber, -, hgroup, hrest⟩ := h
    rw [serializeUnknownFieldsToArray, writeTagToArray_makeTag32 hnumber (by omega),
      writeTagToArray_makeTag32 hnumber (by omega), ihgroup hgroup, ih hrest, Fields.bytes]

theorem computeScalarSize_eq {number : ℕ} {value : Scalar} (hnumber : number < 536870912)
    (hvalue : value.Fits) :
    computeScalarSize number value = (tagBytes number value.wireType ++ value.bytes).length := by
  rw [List.length_append]
  cases value with
  | varint value =>
    rw [computeScalarSize, varintSize32_makeTag32 hnumber (by omega), varintSize64_eq]
    rfl
  | fixed64 value =>
    rw [computeScalarSize, varintSize32_makeTag32 hnumber (by omega), Scalar.bytes,
      valueBytes_length]
    rfl
  | lengthDelimited data =>
    unfold Scalar.Fits at hvalue
    rw [computeScalarSize, varintSize32_makeTag32 hnumber (by omega), varintSize32_eq,
      toNat_ofNat32 (by omega), Scalar.bytes, List.length_append, Nat.add_assoc]
    rfl
  | fixed32 value =>
    rw [computeScalarSize, varintSize32_makeTag32 hnumber (by omega), Scalar.bytes,
      valueBytes_length]
    rfl

theorem computeUnknownFieldsSize_eq {depth : ℕ} {fields : UnknownFieldSet}
    (h : fields.Fits depth) : computeUnknownFieldsSize fields = fields.bytes.length := by
  induction fields generalizing depth with
  | nil => rfl
  | scalar number value rest ih =>
    obtain ⟨-, hnumber, hvalue, hrest⟩ := h
    rw [computeUnknownFieldsSize, computeScalarSize_eq hnumber hvalue, ih hrest, Fields.bytes]
    exact List.length_append.symm
  | group number group rest ihgroup ih =>
    obtain ⟨hnumber, -, hgroup, hrest⟩ := h
    rw [computeUnknownFieldsSize, varintSize32_makeTag32 hnumber (by omega),
      varintSize32_makeTag32 hnumber (by omega), ihgroup hgroup, ih hrest, Fields.bytes,
      List.length_append, List.length_append, List.length_append]

end Written

section Skipping

variable {s : Stream} {bytes : List Byte}

/-- The stream after fields that ended with the given tag. -/
def finish (s : Stream) (last : ℕ) (rest : List Byte) : Stream :=
  { s.seek rest with
    lastTag := UInt32.ofNat last
    legitimateMessageEnd :=
      if last = 0 then s.totalBytesRead ≤ kDefaultTotalBytesLimit else s.legitimateMessageEnd }

theorem readLengthAndString_eq (h : Views s bytes) :
    readLengthAndString s =
      (readLengthDelimited bytes).map fun read => (read.1, s.seek read.2) := by
  rw [readLengthAndString, readVarint32_eq h, readLengthDelimited]
  cases hread : WireFields.readVarint32 bytes with
  | none => rfl
  | some read =>
    obtain ⟨front, rfl⟩ := readVarint32_eq_append hread
    have hlength := readVarint32_lt hread
    rw [Option.map_some, Option.bind_some, Option.bind_some, toNat_ofNat32 hlength]
    by_cases hsize : read.1 < 2147483648
    · rw [int32_eq_self _ (by omega) (by omega), readString_eq h.seek, if_pos hsize]
      rfl
    · have hneg : int32 (read.1 : ℤ) < 0 := by unfold int32; omega
      rw [if_neg hsize, readString, if_pos hneg, Option.map_none]

theorem skipField_scalar (skip : Stream → UnknownFieldSet → Option (UnknownFieldSet × Stream))
    (h : Views s bytes) {tag : ℕ} (htag : tag < 4294967296) (hgroup : tag % 8 ≠ 3)
    (fields : UnknownFieldSet) :
    skipField skip s (UInt32.ofNat tag) fields =
      (readScalar (tag % 8) bytes).map fun read =>
        (addScalar fields (tag / 8) read.1, s.seek read.2) := by
  have hlt : tag % 8 < 8 := Nat.mod_lt _ (by omega)
  simp only [skipField, getTagWireType_ofNat htag, getTagFieldNumber_ofNat htag]
  generalize tag % 8 = type at hlt hgroup
  rcases type with _ | _ | _ | _ | _ | _ | _ | _ | type
  · rw [readVarint64_eq h]
    simp only [readScalar, Option.map_map]
    rfl
  · rw [readLittleEndian64_eq h]
    simp only [readScalar, Option.map_map]
    rfl
  · rw [readLengthAndString_eq h]
    simp only [readScalar, Option.map_map]
    rfl
  · exact absurd rfl hgroup
  · rfl
  · rw [readLittleEndian32_eq h]
    simp only [readScalar, Option.map_map]
    rfl
  · rfl
  · rfl
  · omega

/-- An answer of a reader on a stream agrees with the plain reader's: where that
one finds fields the stream's reader has built its answer from them, and where
it fails the stream's reader fails or has stopped, but at no legitimate end. -/
def Agrees {α : Type*} (s : Stream) (build : Fields → α) (answer : Option (α × Stream)) :
    Option (Fields × ℕ × List Byte) → Prop
  | some (fields, last, rest) => answer = some (build fields, finish s last rest)
  | none => ∀ out, answer = some out →
    out.2.lastTag = 0 ∧ out.2.legitimateMessageEnd = s.legitimateMessageEnd

theorem Agrees.cons {α : Type*} {s t : Stream} {build build' : Fields → α}
    {answer : Option (α × Stream)} {read : Option (Fields × ℕ × List Byte)}
    (h : Agrees t build' answer read) (front : Fields → Fields)
    (hbuild : ∀ fields, build' fields = build (front fields))
    (hfinish : ∀ last rest, finish t last rest = finish s last rest)
    (hlegit : t.legitimateMessageEnd = s.legitimateMessageEnd) :
    Agrees s build answer (read.map fun more => (front more.1, more.2)) := by
  cases read with
  | none =>
    intro out hout
    rw [← hlegit]
    exact h out hout
  | some more =>
    unfold Agrees at h
    rw [Option.map_some, Agrees, h, hbuild, hfinish]

theorem Agrees.of_finish {α : Type*} {s t : Stream} {build : Fields → α}
    {answer : Option (α × Stream)} {read : Option (Fields × ℕ × List Byte)}
    (h : Agrees t build answer read)
    (hfinish : ∀ last rest, finish t last rest = finish s last rest)
    (hlegit : t.legitimateMessageEnd = s.legitimateMessageEnd) : Agrees s build answer read := by
  cases read with
  | none =>
    intro out hout
    rw [← hlegit]
    exact h out hout
  | some more =>
    unfold Agrees at h
    rw [Agrees, h, hfinish]

theorem Agrees.of_none {α : Type*} {s : Stream} {build : Fields → α}
    (read : Option (Fields × ℕ × List Byte)) (hread : read = none) :
    Agrees s build none read := by
  subst hread
  intro out hout
  cases hout

theorem append_addScalar (fields more : Fields) (number : ℕ) (value : Scalar) :
    (addScalar fields number value).append more =
      fields.append (.scalar number value more) := by
  rw [addScalar, Fields.append_assoc]
  rfl

theorem append_addGroup (fields more group : Fields) (number : ℕ) :
    (addGroup fields number group).append more =
      fields.append (.group number group more) := by
  rw [addGroup, Fields.append_assoc]
  rfl

theorem lastTag_decrementRecursionDepth (s : Stream) :
    (decrementRecursionDepth s).lastTag = s.lastTag := by
  unfold decrementRecursionDepth
  split <;> rfl

theorem decrementRecursionDepth_finish_deeper (s : Stream) (last : ℕ) (rest : List Byte) :
    decrementRecursionDepth (finish s.deeper last rest) = finish s last rest := by
  have hpos : 0 < (finish s.deeper last rest).recursionDepth := Nat.succ_pos _
  rw [decrementRecursionDepth, if_pos hpos]
  rfl

theorem skipField_group {n depth : ℕ} {tag : ℕ} (htag : tag < 4294967296) (htype : tag % 8 = 3)
    (h : Views s bytes) (hdepth : s.recursionDepth + depth = kDefaultRecursionLimit)
    (fields : UnknownFieldSet)
    (ih : ∀ {s : Stream} {bytes : List Byte} {depth : ℕ}, Views s bytes →
      s.recursionDepth + depth = kDefaultRecursionLimit → ∀ fields,
      Agrees s fields.append (skipMessage n s fields) (readFields n depth bytes)) :
    skipField (skipMessage n) s (UInt32.ofNat tag) fields =
      if depth = 0 then none
      else (readFields n (depth - 1) bytes).bind fun inner =>
        if inner.2.1 = tag + 1 then
          some (addGroup fields (tag / 8) inner.1, (s.seek inner.2.2).tagged (tag + 1))
        else none := by
  have hend : makeTag32 (tag / 8) 4 = UInt32.ofNat (tag + 1) := by
    rw [makeTag32_eq (by omega) (by omega), makeTag]
    congr 1
    omega
  simp only [skipField, getTagWireType_ofNat htag, getTagFieldNumber_ofNat htag, htype, hend]
  by_cases hzero : depth = 0
  · rw [if_pos hzero, incrementRecursionDepth, if_neg (by omega), Option.bind_none]
  · have hincrement : incrementRecursionDepth s = some s.deeper := by
      rw [incrementRecursionDepth, if_pos (by omega), Stream.deeper]
    have hdeeper : s.deeper.recursionDepth + (depth - 1) = kDefaultRecursionLimit := by
      simp only [Stream.deeper]
      omega
    have hin := ih h.deeper hdeeper .nil
    rw [if_neg hzero, hincrement, Option.bind_some]
    cases hread : readFields n (depth - 1) bytes with
    | none =>
      rw [hread] at hin
      rw [Option.bind_none, Option.bind_eq_none_iff]
      intro out hout
      have hne : (0 : UInt32) ≠ UInt32.ofNat (tag + 1) := by
        rw [ne_comm, Ne, ofNat32_eq_zero_iff (by omega)]
        omega
      rw [lastTag_decrementRecursionDepth, (hin out hout).1, if_neg hne]
    | some inner =>
      obtain ⟨group, last, rest⟩ := inner
      have hlast := (reads_of_readFields hread).last_lt
      have hsame : (finish s last rest).lastTag = UInt32.ofNat (tag + 1) ↔ last = tag + 1 := by
        rw [← UInt32.toNat_inj, finish, toNat_ofNat32 hlast, toNat_ofNat32 (by omega)]
      rw [hread] at hin
      simp only [Agrees, Fields.append] at hin
      simp only [hin, Option.bind_some, decrementRecursionDepth_finish_deeper, hsame]
      by_cases hmatch : last = tag + 1
      · have hfinish : finish s last rest = (s.seek rest).tagged (tag + 1) := by
          rw [finish, hmatch, if_neg (Nat.succ_ne_zero tag)]
          rfl
        rw [if_pos hmatch, if_pos hmatch, hfinish]
      · rw [if_neg hmatch, if_neg hmatch]

/-- `SkipMessage` reads the fields that the grammar gives, and keeps them in order
after those it was given. -/
theorem skipMessage_agrees {n depth : ℕ} (h : Views s bytes)
    (hdepth : s.recursionDepth + depth = kDefaultRecursionLimit) (fields : UnknownFieldSet) :
    Agrees s fields.append (skipMessage n s fields) (readFields n depth bytes) := by
  induction n generalizing s bytes depth fields with
  | zero => exact .of_none _ rfl
  | succ n ih =>
    cases bytes with
    | nil =>
      have hstop : readTag s = (0, finish s 0 []) := by
        rw [readTag_nil h, finish, h.seek_self]
        rfl
      rw [readFields_nil, Agrees, Fields.append_nil, skipMessage, hstop]
      rfl
    | cons b bytes =>
      rw [readFields]
      cases hread : WireFields.readVarint32 (b :: bytes) with
      | none =>
        intro out hout
        rw [skipMessage, readTag_none h (List.cons_ne_nil b bytes) hread] at hout
        cases hout
        exact ⟨rfl, rfl⟩
      | some read =>
        obtain ⟨tag, rest⟩ := read
        have htag := readVarint32_lt hread
        obtain ⟨front, hfront⟩ := readVarint32_eq_append hread
        have hrest : Views ((s.seek rest).tagged tag) rest := (hfront ▸ h).seek.tagged tag
        simp only [skipMessage, readTag_some h hread, Option.bind_some,
          ofNat32_eq_zero_iff htag, getTagWireType_ofNat htag]
        by_cases hzero : tag = 0
        · rw [if_pos hzero, if_pos hzero]
          intro out hout
          cases hout
          rw [hzero]
          exact ⟨rfl, rfl⟩
        · rw [if_neg hzero, if_neg hzero]
          by_cases hend : tag % 8 = 4
          · rw [if_pos hend, if_pos hend, Agrees, Fields.append_nil, finish, if_neg hzero]
            rfl
          · rw [if_neg hend, if_neg hend]
            by_cases hgroup : tag % 8 = 3
            · rw [if_pos hgroup, skipField_group htag hgroup hrest hdepth fields ih]
              by_cases hflat : depth = 0
              · rw [if_pos hflat, if_pos hflat]
                exact .of_none _ rfl
              rw [if_neg hflat, if_neg hflat]
              cases hinner : readFields n (depth - 1) rest with
              | none => exact .of_none _ rfl
              | some inner =>
                obtain ⟨group, last, middle⟩ := inner
                obtain ⟨body, hbody⟩ := (reads_of_readFields hinner).exists_append
                simp only [Option.bind_some]
                by_cases hmatch : last = tag + 1
                · have hmiddle := (hbody ▸ hrest).seek.tagged (tag + 1)
                  have hmore := ih hmiddle hdepth (addGroup fields (tag / 8) group)
                  rw [if_pos hmatch, if_pos hmatch]
                  exact hmore.cons (.group (tag / 8) group)
                    (fun more => append_addGroup fields more group (tag / 8))
                    (fun _ _ => rfl) rfl
                · rw [if_neg hmatch, if_neg hmatch]
                  exact .of_none _ rfl
            · rw [if_neg hgroup, skipField_scalar _ hrest htag hgroup]
              cases hvalue : readScalar (tag % 8) rest with
              | none => exact .of_none _ rfl
              | some read =>
                obtain ⟨value, middle⟩ := read
                obtain ⟨body, hbody⟩ := readScalar_eq_append hvalue
                have hmiddle := (hbody ▸ hrest).seek
                have hmore := ih hmiddle hdepth (addScalar fields (tag / 8) value)
                exact hmore.cons (.scalar (tag / 8) value)
                  (fun more => append_addScalar fields more (tag / 8) value)
                  (fun _ _ => rfl) rfl

end Skipping

section Numbers

variable {s t : Stream} {rest : List Byte}

theorem readVarint64_write (value : UInt64)
    (h : Views s (writeVarint64ToArray value ++ rest)) :
    readVarint64 s = some (value, s.seek rest) := by
  have hlt : value.toNat < 128 ^ 10 := Nat.lt_trans value.toNat_lt (by decide)
  rw [readVarint64_eq h, writeVarint64ToArray_eq, decode_encode 9 10 _ rest hlt (by omega),
    Option.map_some, UInt64.ofNat_toNat]

theorem readVarint32_write (value : UInt32)
    (h : Views s (writeVarint32ToArray value ++ rest)) :
    readVarint32 s = some (value, s.seek rest) := by
  have hlt : value.toNat < 128 ^ 5 := Nat.lt_trans value.toNat_lt (by decide)
  rw [readVarint32_eq h, writeVarint32ToArray_eq, map_readVarint32,
    decode_encode 4 10 _ rest hlt (by omega), Option.map_some, UInt32.ofNat_toNat]

theorem le_of_readVarint64 {value : UInt64} (hs : s.buffer ≤ s.bufferEnd)
    (h : readVarint64 s = some (value, t)) :
    s.buffer + varintSize64 value ≤ t.buffer ∧ t.buffer ≤ s.bufferEnd := by
  have hviews := views_load s hs
  have hends := hviews.ends
  rw [readVarint64_eq hviews, Option.map_eq_some_iff] at h
  obtain ⟨⟨n, after⟩, hdecode, hpair⟩ := h
  obtain ⟨rfl, rfl⟩ := Prod.mk.inj hpair
  obtain ⟨front, hfront, -, -, -, hshort⟩ := exists_of_decode hdecode
  have hle : (UInt64.ofNat n).toNat ≤ n := by
    rw [UInt64.toNat_ofNat']
    exact Nat.mod_le n _
  have hmono := length_encode_mono 9 hle
  have hleast := hshort 9
  rw [hfront, List.length_append] at hends
  rw [varintSize64_eq, Stream.seek]
  simp only
  omega

/-- A number is read back from what is written for it, whatever follows. The size
computed for it is the number of bytes written, and the number is read from no
fewer bytes. -/
theorem varint_read_write :
    (∀ (value : UInt64) (s : Stream) (rest : List Byte),
      Views s (writeVarint64ToArray value ++ rest) →
      readVarint64 s = some (value, s.seek rest)) ∧
    (∀ (value : UInt32) (s : Stream) (rest : List Byte),
      Views s (writeVarint32ToArray value ++ rest) →
      readVarint32 s = some (value, s.seek rest)) ∧
    ∀ value : UInt64, (writeVarint64ToArray value).length = varintSize64 value ∧
      ∀ s t : Stream, s.buffer ≤ s.bufferEnd → readVarint64 s = some (value, t) →
        s.buffer + varintSize64 value ≤ t.buffer ∧ t.buffer ≤ s.bufferEnd := by
  refine ⟨fun value s rest h => readVarint64_write value h,
    fun value s rest h => readVarint32_write value h, fun value => ⟨?_, ?_⟩⟩
  · rw [writeVarint64ToArray_eq, varintSize64_eq]
  · intro s t hs h
    exact le_of_readVarint64 hs h

theorem varint_read_write_300 : ∃ rest : List Byte,
    readVarint64 (ofArray (blockMemory (fun _ => 0) [0xAC, 0x02, 0x07]) 0 3) =
      some (300, (ofArray (blockMemory (fun _ => 0) [0xAC, 0x02, 0x07]) 0 3).seek rest) :=
  ⟨[0x07], varint_read_write.1 300 _ [0x07] ⟨holds_blockMemory _ _, rfl⟩⟩

end Numbers

end BlackCat.WireFormat
