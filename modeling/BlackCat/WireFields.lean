import BlackCat.Varints

/-!
Sequences of tagged fields as they stand on the wire. A tag is a number and a
wire type; the type says how the value is laid out, so that a reader can pass
over fields it does not know. A group holds fields of its own between a start
tag and the end tag of the same number, nested up to a limit.

The grammar is given by a relation and read by a function. What the writer
produces is in it, two sequences of fields may be joined, and a field that
was read is never longer when it is written again.
-/
namespace BlackCat.WireFields

open ByteMemory Varints

inductive Scalar
  | varint (value : UInt64)
  | fixed64 (value : UInt64)
  | lengthDelimited (data : List Byte)
  | fixed32 (value : UInt32)
  deriving DecidableEq, Repr

/-- Fields in order. A group holds the fields between its two tags. -/
inductive Fields
  | nil
  | scalar (number : ℕ) (value : Scalar) (rest : Fields)
  | group (number : ℕ) (inner rest : Fields)
  deriving DecidableEq, Repr

def Scalar.wireType : Scalar → ℕ
  | .varint _ => 0
  | .fixed64 _ => 1
  | .lengthDelimited _ => 2
  | .fixed32 _ => 5

def makeTag (number type : ℕ) : ℕ := number * 8 + type

def Fields.append : Fields → Fields → Fields
  | .nil, more => more
  | .scalar number value rest, more => .scalar number value (rest.append more)
  | .group number inner rest, more => .group number inner (rest.append more)

theorem Fields.append_nil (fields : Fields) : fields.append .nil = fields := by
  induction fields with
  | nil => rfl
  | scalar number value rest ih => rw [Fields.append, ih]
  | group number inner rest _ ih => rw [Fields.append, ih]

theorem Fields.append_assoc (a b c : Fields) :
    (a.append b).append c = a.append (b.append c) := by
  induction a with
  | nil => rfl
  | scalar number value rest ih => simp only [Fields.append, ih]
  | group number inner rest _ ih => simp only [Fields.append, ih]

section Writer

def tagBytes (number type : ℕ) : List Byte := encode 4 (makeTag number type)

def Scalar.bytes : Scalar → List Byte
  | .varint value => encode 9 value.toNat
  | .fixed64 value => valueBytes 8 value.toNat
  | .lengthDelimited data => encode 4 data.length ++ data
  | .fixed32 value => valueBytes 4 value.toNat

def Fields.bytes : Fields → List Byte
  | .nil => []
  | .scalar number value rest => tagBytes number value.wireType ++ value.bytes ++ rest.bytes
  | .group number inner rest =>
    tagBytes number 3 ++ inner.bytes ++ tagBytes number 4 ++ rest.bytes

theorem Fields.bytes_append (a b : Fields) : (a.append b).bytes = a.bytes ++ b.bytes := by
  induction a with
  | nil => rfl
  | scalar number value rest ih => simp only [Fields.append, Fields.bytes, ih, List.append_assoc]
  | group number inner rest _ ih =>
    simp only [Fields.append, Fields.bytes, ih, List.append_assoc]

end Writer

section Reader

/-- A variable-length number cut to 32 bits, as tags and lengths are. -/
def readVarint32 (bytes : List Byte) : Option (ℕ × List Byte) :=
  (decode 10 bytes).map fun read => (read.1 % 4294967296, read.2)

def readBytes (n : ℕ) (bytes : List Byte) : Option (List Byte × List Byte) :=
  if n ≤ bytes.length then some (bytes.take n, bytes.drop n) else none

/-- A length of at most 31 bits and as many bytes. -/
def readLengthDelimited (bytes : List Byte) : Option (List Byte × List Byte) :=
  (readVarint32 bytes).bind fun read =>
    if read.1 < 2147483648 then readBytes read.1 read.2 else none

def readScalar (type : ℕ) (bytes : List Byte) : Option (Scalar × List Byte) :=
  match type with
  | 0 => (decode 10 bytes).map fun read => (.varint (UInt64.ofNat read.1), read.2)
  | 1 => (readBytes 8 bytes).map fun read => (.fixed64 (UInt64.ofNat (bytesValue read.1)), read.2)
  | 2 => (readLengthDelimited bytes).map fun read => (.lengthDelimited read.1, read.2)
  | 5 => (readBytes 4 bytes).map fun read => (.fixed32 (UInt32.ofNat (bytesValue read.1)), read.2)
  | _ => none

/-- Fields up to the end of the bytes or up to an end tag: the fields, the tag
(zero at the end of the bytes) and what follows it. Groups may be nested as
deep as the second argument says; the first bounds the recursion. -/
def readFields : ℕ → ℕ → List Byte → Option (Fields × ℕ × List Byte)
  | 0, _, _ => none
  | _ + 1, _, [] => some (.nil, 0, [])
  | n + 1, depth, b :: bytes =>
    (readVarint32 (b :: bytes)).bind fun read =>
      if read.1 = 0 then none
      else if read.1 % 8 = 4 then some (.nil, read.1, read.2)
      else if read.1 % 8 = 3 then
        if depth = 0 then none
        else (readFields n (depth - 1) read.2).bind fun inner =>
          if inner.2.1 = read.1 + 1 then
            (readFields n depth inner.2.2).map fun more =>
              (.group (read.1 / 8) inner.1 more.1, more.2)
          else none
      else (readScalar (read.1 % 8) read.2).bind fun value =>
        (readFields n depth value.2).map fun more =>
          (.scalar (read.1 / 8) value.1 more.1, more.2)

end Reader

/-- The grammar: the bytes begin with the fields, which end with the given tag
(zero at the end of the bytes), and the rest follows. -/
inductive Reads : ℕ → List Byte → Fields → ℕ → List Byte → Prop
  | atEnd (depth : ℕ) : Reads depth [] .nil 0 []
  | endGroup {depth : ℕ} {bytes rest : List Byte} {tag : ℕ} :
      readVarint32 bytes = some (tag, rest) → tag % 8 = 4 → Reads depth bytes .nil tag rest
  | group {depth : ℕ} {bytes after middle rest : List Byte} {tag last : ℕ}
      {inner more : Fields} :
      readVarint32 bytes = some (tag, after) → tag % 8 = 3 →
      Reads depth after inner (tag + 1) middle → Reads (depth + 1) middle more last rest →
      Reads (depth + 1) bytes (.group (tag / 8) inner more) last rest
  | scalar {depth : ℕ} {bytes after middle rest : List Byte} {tag last : ℕ} {value : Scalar}
      {more : Fields} :
      readVarint32 bytes = some (tag, after) → tag ≠ 0 →
      readScalar (tag % 8) after = some (value, middle) → Reads depth middle more last rest →
      Reads depth bytes (.scalar (tag / 8) value more) last rest

section Readers

theorem length_lt_of_readVarint32 {bytes rest : List Byte} {n : ℕ}
    (h : readVarint32 bytes = some (n, rest)) : rest.length < bytes.length := by
  obtain ⟨read, hread, heq⟩ := Option.map_eq_some_iff.mp h
  cases heq
  exact length_lt_of_decode hread

theorem readVarint32_lt {bytes rest : List Byte} {n : ℕ}
    (h : readVarint32 bytes = some (n, rest)) : n < 4294967296 := by
  obtain ⟨read, -, heq⟩ := Option.map_eq_some_iff.mp h
  cases heq
  exact Nat.mod_lt _ (by omega)

theorem readVarint32_eq_append {bytes rest : List Byte} {n : ℕ}
    (h : readVarint32 bytes = some (n, rest)) : ∃ front, bytes = front ++ rest := by
  obtain ⟨read, hread, heq⟩ := Option.map_eq_some_iff.mp h
  cases heq
  obtain ⟨front, hfront, -⟩ := exists_of_decode hread
  exact ⟨front, hfront⟩

theorem readVarint32_append {bytes rest : List Byte} {n : ℕ}
    (h : readVarint32 bytes = some (n, rest)) (more : List Byte) :
    readVarint32 (bytes ++ more) = some (n, rest ++ more) := by
  obtain ⟨read, hread, heq⟩ := Option.map_eq_some_iff.mp h
  cases heq
  rw [readVarint32, decode_append hread more, Option.map_some]

theorem readVarint32_encode (n : ℕ) (rest : List Byte) (hn : n < 4294967296) :
    readVarint32 (encode 4 n ++ rest) = some (n, rest) := by
  rw [readVarint32, decode_encode 4 10 n rest (by omega) (by omega), Option.map_some,
    Nat.mod_eq_of_lt hn]

theorem readBytes_eq_some {n : ℕ} {bytes data rest : List Byte}
    (h : readBytes n bytes = some (data, rest)) : bytes = data ++ rest ∧ data.length = n := by
  unfold readBytes at h
  by_cases hn : n ≤ bytes.length
  · rw [if_pos hn] at h
    cases h
    exact ⟨(List.take_append_drop n bytes).symm, by rw [List.length_take]; omega⟩
  · rw [if_neg hn] at h
    cases h

theorem readBytes_left (data rest : List Byte) :
    readBytes data.length (data ++ rest) = some (data, rest) := by
  rw [readBytes, if_pos (by rw [List.length_append]; omega), List.take_left, List.drop_left]

theorem readBytes_append {n : ℕ} {bytes data rest : List Byte}
    (h : readBytes n bytes = some (data, rest)) (more : List Byte) :
    readBytes n (bytes ++ more) = some (data, rest ++ more) := by
  obtain ⟨rfl, rfl⟩ := readBytes_eq_some h
  rw [List.append_assoc, readBytes_left]

theorem readLengthDelimited_eq_some {bytes data rest : List Byte}
    (h : readLengthDelimited bytes = some (data, rest)) :
    data.length < 2147483648 ∧ readVarint32 bytes = some (data.length, data ++ rest) := by
  obtain ⟨⟨len, after⟩, hread, hdata⟩ := Option.bind_eq_some_iff.mp h
  by_cases hlen : len < 2147483648
  · rw [if_pos hlen] at hdata
    obtain ⟨rfl, rfl⟩ := readBytes_eq_some hdata
    exact ⟨hlen, hread⟩
  · rw [if_neg hlen] at hdata
    cases hdata

theorem readLengthDelimited_of_length {bytes data rest : List Byte}
    (hlen : data.length < 2147483648)
    (h : readVarint32 bytes = some (data.length, data ++ rest)) :
    readLengthDelimited bytes = some (data, rest) := by
  rw [readLengthDelimited, h, Option.bind_some, if_pos hlen, readBytes_left]

theorem readScalar_cases {type : ℕ} {bytes rest : List Byte} {value : Scalar}
    (h : readScalar type bytes = some (value, rest)) :
    (∃ n, type = 0 ∧ value = .varint (UInt64.ofNat n) ∧ decode 10 bytes = some (n, rest)) ∨
    (∃ data, type = 1 ∧ value = .fixed64 (UInt64.ofNat (bytesValue data)) ∧
      readBytes 8 bytes = some (data, rest)) ∨
    (∃ data, type = 2 ∧ value = .lengthDelimited data ∧ data.length < 2147483648 ∧
      readVarint32 bytes = some (data.length, data ++ rest)) ∨
    (∃ data, type = 5 ∧ value = .fixed32 (UInt32.ofNat (bytesValue data)) ∧
      readBytes 4 bytes = some (data, rest)) := by
  unfold readScalar at h
  split at h
  · obtain ⟨read, hread, heq⟩ := Option.map_eq_some_iff.mp h
    cases heq
    exact Or.inl ⟨read.1, rfl, rfl, hread⟩
  · obtain ⟨read, hread, heq⟩ := Option.map_eq_some_iff.mp h
    cases heq
    exact Or.inr (Or.inl ⟨read.1, rfl, rfl, hread⟩)
  · obtain ⟨read, hread, heq⟩ := Option.map_eq_some_iff.mp h
    cases heq
    obtain ⟨hlen, hread⟩ := readLengthDelimited_eq_some hread
    exact Or.inr (Or.inr (Or.inl ⟨read.1, rfl, rfl, hlen, hread⟩))
  · obtain ⟨read, hread, heq⟩ := Option.map_eq_some_iff.mp h
    cases heq
    exact Or.inr (Or.inr (Or.inr ⟨read.1, rfl, rfl, hread⟩))
  · cases h

theorem readScalar_eq_append {type : ℕ} {bytes rest : List Byte} {value : Scalar}
    (h : readScalar type bytes = some (value, rest)) : ∃ front, bytes = front ++ rest := by
  rcases readScalar_cases h with ⟨n, -, -, hread⟩ | ⟨data, -, -, hread⟩ |
    ⟨data, -, -, -, hread⟩ | ⟨data, -, -, hread⟩
  · obtain ⟨front, hfront, -⟩ := exists_of_decode hread
    exact ⟨front, hfront⟩
  · exact ⟨data, (readBytes_eq_some hread).1⟩
  · obtain ⟨front, hfront⟩ := readVarint32_eq_append hread
    exact ⟨front ++ data, by rw [hfront, List.append_assoc]⟩
  · exact ⟨data, (readBytes_eq_some hread).1⟩

theorem readScalar_append {type : ℕ} {bytes rest : List Byte} {value : Scalar}
    (h : readScalar type bytes = some (value, rest)) (more : List Byte) :
    readScalar type (bytes ++ more) = some (value, rest ++ more) := by
  rcases readScalar_cases h with ⟨n, rfl, rfl, hread⟩ | ⟨data, rfl, rfl, hread⟩ |
    ⟨data, rfl, rfl, hlen, hread⟩ | ⟨data, rfl, rfl, hread⟩
  · simp only [readScalar, decode_append hread more, Option.map_some]
  · simp only [readScalar, readBytes_append hread more, Option.map_some]
  · have happend := readVarint32_append hread more
    rw [List.append_assoc] at happend
    simp only [readScalar, readLengthDelimited_of_length hlen happend, Option.map_some]
  · simp only [readScalar, readBytes_append hread more, Option.map_some]

end Readers

/-- A value whose length, if it has one, is a positive 32-bit word or zero. -/
def Scalar.Fits : Scalar → Prop
  | .lengthDelimited data => data.length < 2147483648
  | _ => True

instance (value : Scalar) : Decidable value.Fits := by
  cases value <;> unfold Scalar.Fits <;> infer_instance

/-- Fields that can be written and read back: numbers and lengths are within
their bounds, no tag is zero, and groups are nested at most as deep as given. -/
def Fields.Fits : ℕ → Fields → Prop
  | _, .nil => True
  | depth, .scalar number value rest =>
    0 < makeTag number value.wireType ∧ number < 536870912 ∧ value.Fits ∧ rest.Fits depth
  | depth, .group number inner rest =>
    number < 536870912 ∧ 0 < depth ∧ inner.Fits (depth - 1) ∧ rest.Fits depth

theorem Fields.Fits.append {depth : ℕ} {a b : Fields} (ha : a.Fits depth) (hb : b.Fits depth) :
    (a.append b).Fits depth := by
  induction a with
  | nil => exact hb
  | scalar number value rest ih => exact ⟨ha.1, ha.2.1, ha.2.2.1, ih ha.2.2.2⟩
  | group number inner rest _ ih => exact ⟨ha.1, ha.2.1, ha.2.2.1, ih ha.2.2.2⟩

section Scalars

theorem readScalar_bytes (value : Scalar) (h : value.Fits) (rest : List Byte) :
    readScalar value.wireType (value.bytes ++ rest) = some (value, rest) := by
  cases value with
  | varint value =>
    have hv := value.toNat_lt
    simp only [Scalar.wireType, Scalar.bytes, readScalar,
      decode_encode 9 10 value.toNat rest (by omega) (by omega), Option.map_some,
      UInt64.ofNat_toNat]
  | fixed64 value =>
    have hv := value.toNat_lt
    have hread := readBytes_left (valueBytes 8 value.toNat) rest
    rw [valueBytes_length] at hread
    simp only [Scalar.wireType, Scalar.bytes, readScalar, hread, Option.map_some,
      bytesValue_valueBytes, Nat.mod_eq_of_lt (show value.toNat < 256 ^ 8 by omega),
      UInt64.ofNat_toNat]
  | lengthDelimited data =>
    unfold Scalar.Fits at h
    have hread := readVarint32_encode data.length (data ++ rest) (by omega)
    rw [← List.append_assoc] at hread
    simp only [Scalar.wireType, Scalar.bytes, readScalar,
      readLengthDelimited_of_length h hread, Option.map_some]
  | fixed32 value =>
    have hv := value.toNat_lt
    have hread := readBytes_left (valueBytes 4 value.toNat) rest
    rw [valueBytes_length] at hread
    simp only [Scalar.wireType, Scalar.bytes, readScalar, hread, Option.map_some,
      bytesValue_valueBytes, Nat.mod_eq_of_lt (show value.toNat < 256 ^ 4 by omega),
      UInt32.ofNat_toNat]

theorem wireType_of_readScalar {type : ℕ} {bytes rest : List Byte} {value : Scalar}
    (h : readScalar type bytes = some (value, rest)) : value.wireType = type ∧ value.Fits := by
  rcases readScalar_cases h with ⟨n, rfl, rfl, -⟩ | ⟨data, rfl, rfl, -⟩ |
    ⟨data, rfl, rfl, hlen, -⟩ | ⟨data, rfl, rfl, -⟩
  · exact ⟨rfl, trivial⟩
  · exact ⟨rfl, trivial⟩
  · exact ⟨rfl, hlen⟩
  · exact ⟨rfl, trivial⟩

theorem length_encode_of_readVarint32 {bytes rest : List Byte} {n : ℕ}
    (h : readVarint32 bytes = some (n, rest)) :
    (encode 4 n).length + rest.length ≤ bytes.length := by
  obtain ⟨read, hread, heq⟩ := Option.map_eq_some_iff.mp h
  cases heq
  obtain ⟨front, rfl, -, -, -, hlen⟩ := exists_of_decode hread
  have hmono := length_encode_mono 4 (Nat.mod_le read.1 4294967296)
  have hfront := hlen 4
  rw [List.length_append]
  omega

theorem length_bytes_of_readScalar {type : ℕ} {bytes rest : List Byte} {value : Scalar}
    (h : readScalar type bytes = some (value, rest)) :
    value.bytes.length + rest.length ≤ bytes.length := by
  rcases readScalar_cases h with ⟨n, rfl, rfl, hread⟩ | ⟨data, rfl, rfl, hread⟩ |
    ⟨data, rfl, rfl, hlen, hread⟩ | ⟨data, rfl, rfl, hread⟩
  · obtain ⟨front, rfl, -, -, -, hlen⟩ := exists_of_decode hread
    have hmono := length_encode_mono 9 (Nat.mod_le n (2 ^ 64))
    have hfront := hlen 9
    simp only [Scalar.bytes, UInt64.toNat_ofNat', List.length_append]
    omega
  · obtain ⟨rfl, hdata⟩ := readBytes_eq_some hread
    simp only [Scalar.bytes, valueBytes_length, List.length_append]
    omega
  · have hlength := length_encode_of_readVarint32 hread
    simp only [Scalar.bytes, List.length_append] at hlength ⊢
    omega
  · obtain ⟨rfl, hdata⟩ := readBytes_eq_some hread
    simp only [Scalar.bytes, valueBytes_length, List.length_append]
    omega

end Scalars

section Grammar

variable {depth last : ℕ} {bytes rest : List Byte} {fields : Fields}

theorem Reads.rest_of_last_eq_zero (h : Reads depth bytes fields last rest) (hlast : last = 0) :
    rest = [] := by
  induction h with
  | atEnd depth => rfl
  | endGroup htag htype => omega
  | group htag htype hinner hmore _ ih => exact ih hlast
  | scalar htag hne hvalue hmore ih => exact ih hlast

theorem Reads.last_lt (h : Reads depth bytes fields last rest) : last < 4294967296 := by
  induction h with
  | atEnd depth => omega
  | endGroup htag htype => exact readVarint32_lt htag
  | group htag htype hinner hmore _ ih => exact ih
  | scalar htag hne hvalue hmore ih => exact ih

theorem Reads.exists_append (h : Reads depth bytes fields last rest) :
    ∃ front, bytes = front ++ rest := by
  induction h with
  | atEnd depth => exact ⟨[], rfl⟩
  | endGroup htag htype => exact readVarint32_eq_append htag
  | group htag htype hinner hmore ihinner ihmore =>
    obtain ⟨a, rfl⟩ := readVarint32_eq_append htag
    obtain ⟨b, rfl⟩ := ihinner
    obtain ⟨c, rfl⟩ := ihmore
    exact ⟨a ++ (b ++ c), by simp only [List.append_assoc]⟩
  | scalar htag hne hvalue hmore ih =>
    obtain ⟨a, rfl⟩ := readVarint32_eq_append htag
    obtain ⟨b, rfl⟩ := readScalar_eq_append hvalue
    obtain ⟨c, rfl⟩ := ih
    exact ⟨a ++ (b ++ c), by simp only [List.append_assoc]⟩

theorem Reads.fits (h : Reads depth bytes fields last rest) : fields.Fits depth := by
  have hbound : ∀ {bytes after : List Byte} {tag : ℕ},
      readVarint32 bytes = some (tag, after) → tag / 8 < 536870912 := by
    intro bytes after tag htag
    obtain ⟨read, -, heq⟩ := Option.map_eq_some_iff.mp htag
    cases heq
    omega
  induction h with
  | atEnd depth => trivial
  | endGroup htag htype => trivial
  | group htag htype hinner hmore ihinner ihmore =>
    exact ⟨hbound htag, Nat.succ_pos _, ihinner, ihmore⟩
  | scalar htag hne hvalue hmore ih =>
    obtain ⟨htype, hfits⟩ := wireType_of_readScalar hvalue
    refine ⟨?_, hbound htag, hfits, ih⟩
    rw [htype, makeTag]
    omega

/-- The room that the tag at the end takes. -/
def lastLength (last : ℕ) : ℕ := if last = 0 then 0 else (encode 4 last).length

theorem Reads.length_bytes_le (h : Reads depth bytes fields last rest) :
    fields.bytes.length + lastLength last + rest.length ≤ bytes.length := by
  induction h with
  | atEnd depth => simp [Fields.bytes, lastLength]
  | endGroup htag htype =>
    have hlen := length_encode_of_readVarint32 htag
    rw [lastLength, if_neg (by omega), Fields.bytes, List.length_nil]
    omega
  | group htag htype hinner hmore ihinner ihmore =>
    rename_i _ _ _ _ _ tag _ _ _
    have hlen := length_encode_of_readVarint32 htag
    have hstart : makeTag (tag / 8) 3 = tag := by unfold makeTag; omega
    have hend : makeTag (tag / 8) 4 = tag + 1 := by unfold makeTag; omega
    rw [lastLength, if_neg (by omega)] at ihinner
    simp only [Fields.bytes, tagBytes, hstart, hend, List.length_append]
    omega
  | scalar htag hne hvalue hmore ih =>
    rename_i _ _ _ _ _ tag _ value _
    have hlen := length_encode_of_readVarint32 htag
    have hroom := length_bytes_of_readScalar hvalue
    have hstart : makeTag (tag / 8) value.wireType = tag := by
      rw [(wireType_of_readScalar hvalue).1]
      unfold makeTag
      omega
    simp only [Fields.bytes, tagBytes, hstart, List.length_append]
    omega

theorem Reads.append_of_ne_zero (h : Reads depth bytes fields last rest) (hlast : last ≠ 0)
    (more : List Byte) : Reads depth (bytes ++ more) fields last (rest ++ more) := by
  induction h with
  | atEnd depth => exact absurd rfl hlast
  | endGroup htag htype => exact .endGroup (readVarint32_append htag more) htype
  | group htag htype hinner hmore ihinner ihmore =>
    exact .group (readVarint32_append htag more) htype (ihinner (by omega)) (ihmore hlast)
  | scalar htag hne hvalue hmore ih =>
    exact .scalar (readVarint32_append htag more) hne (readScalar_append hvalue more)
      (ih hlast)

theorem Reads.append (h : Reads depth bytes fields last rest) (hlast : last = 0)
    {bytes' rest' : List Byte} {fields' : Fields} {last' : ℕ}
    (h' : Reads depth bytes' fields' last' rest') :
    Reads depth (bytes ++ bytes') (fields.append fields') last' rest' := by
  induction h with
  | atEnd depth => exact h'
  | endGroup htag htype => omega
  | group htag htype hinner hmore _ ihmore =>
    exact .group (readVarint32_append htag bytes') htype
      (hinner.append_of_ne_zero (by omega) bytes') (ihmore hlast h')
  | scalar htag hne hvalue hmore ih =>
    exact .scalar (readVarint32_append htag bytes') hne (readScalar_append hvalue bytes')
      (ih hlast h')

theorem readVarint32_tagBytes (number type : ℕ) (rest : List Byte) (hnumber : number < 536870912)
    (htype : type < 8) :
    readVarint32 (tagBytes number type ++ rest) = some (makeTag number type, rest) :=
  readVarint32_encode _ rest (by unfold makeTag; omega)

theorem reads_bytes_append (hfits : fields.Fits depth) {tail rest : List Byte} {more : Fields}
    (h : Reads depth tail more last rest) :
    Reads depth (fields.bytes ++ tail) (fields.append more) last rest := by
  induction fields generalizing depth tail more last rest with
  | nil => exact h
  | scalar number value fields ih =>
    obtain ⟨hpos, hnumber, hvalue, hfits⟩ := hfits
    have htype : value.wireType < 8 := by cases value <;> simp [Scalar.wireType]
    have hmod : makeTag number value.wireType % 8 = value.wireType := by unfold makeTag; omega
    have hdiv : makeTag number value.wireType / 8 = number := by unfold makeTag; omega
    simp only [Fields.bytes, Fields.append, List.append_assoc]
    have hread := readVarint32_tagBytes number value.wireType
      (value.bytes ++ (fields.bytes ++ tail)) hnumber htype
    have hscalar := Reads.scalar hread (by omega)
      (hmod.symm ▸ readScalar_bytes value hvalue _) (ih hfits h)
    rwa [hdiv] at hscalar
  | group number inner fields ihinner ih =>
    obtain ⟨hnumber, hdepth, hinner, hfits⟩ := hfits
    obtain ⟨depth, rfl⟩ : ∃ d, depth = d + 1 := ⟨depth - 1, by omega⟩
    have hmod : makeTag number 3 % 8 = 3 := by unfold makeTag; omega
    have hdiv : makeTag number 3 / 8 = number := by unfold makeTag; omega
    have hnext : makeTag number 4 = makeTag number 3 + 1 := rfl
    simp only [Fields.bytes, Fields.append, List.append_assoc]
    have hstart := readVarint32_tagBytes number 3
      (inner.bytes ++ (tagBytes number 4 ++ (fields.bytes ++ tail))) hnumber (by omega)
    have hend := readVarint32_tagBytes number 4 (fields.bytes ++ tail) hnumber (by omega)
    have hbody := ihinner hinner (Reads.endGroup hend (by unfold makeTag; omega))
    rw [Fields.append_nil, hnext] at hbody
    have hgroup := Reads.group hstart hmod hbody (ih hfits h)
    rwa [hdiv] at hgroup

theorem reads_bytes (hfits : fields.Fits depth) : Reads depth fields.bytes fields 0 [] := by
  have h := reads_bytes_append hfits (Reads.atEnd depth)
  rwa [List.append_nil, Fields.append_nil] at h

end Grammar

section Decoder

theorem readFields_nil (n depth : ℕ) : readFields (n + 1) depth [] = some (.nil, 0, []) := rfl

theorem reads_of_readFields {n depth last : ℕ} {bytes rest : List Byte} {fields : Fields}
    (h : readFields n depth bytes = some (fields, last, rest)) :
    Reads depth bytes fields last rest := by
  induction n generalizing depth bytes fields last rest with
  | zero => cases h
  | succ n ih =>
    cases bytes with
    | nil =>
      cases h
      exact .atEnd depth
    | cons b bytes =>
      rw [readFields] at h
      obtain ⟨⟨tag, after⟩, htag, h⟩ := Option.bind_eq_some_iff.mp h
      simp only at h
      split at h
      · cases h
      · rename_i hne
        split at h
        · rename_i htype
          cases h
          exact .endGroup htag htype
        · split at h
          · rename_i htype
            split at h
            · cases h
            · rename_i hdepth
              obtain ⟨depth, rfl⟩ : ∃ d, depth = d + 1 := ⟨depth - 1, by omega⟩
              obtain ⟨⟨inner, tag', middle⟩, hinner, h⟩ := Option.bind_eq_some_iff.mp h
              simp only at h
              split at h
              · rename_i hmatch
                obtain ⟨⟨more, last', rest'⟩, hmore, heq⟩ := Option.map_eq_some_iff.mp h
                cases heq
                subst hmatch
                exact .group htag htype (ih hinner) (ih hmore)
              · cases h
          · obtain ⟨⟨value, middle⟩, hvalue, h⟩ := Option.bind_eq_some_iff.mp h
            obtain ⟨⟨more, last', rest'⟩, hmore, heq⟩ := Option.map_eq_some_iff.mp h
            cases heq
            exact .scalar htag hne hvalue (ih hmore)

theorem Reads.length_le {depth last : ℕ} {bytes rest : List Byte} {fields : Fields}
    (h : Reads depth bytes fields last rest) : rest.length ≤ bytes.length := by
  have hlen := h.length_bytes_le
  omega

/-- The reader finds what the grammar allows, given a round for each byte. -/
theorem Reads.readFields_eq {n depth last : ℕ} {bytes rest : List Byte} {fields : Fields}
    (h : Reads depth bytes fields last rest) (hn : bytes.length < n) :
    readFields n depth bytes = some (fields, last, rest) := by
  induction h generalizing n with
  | atEnd depth =>
    obtain ⟨n, rfl⟩ : ∃ k, n = k + 1 := ⟨n - 1, by omega⟩
    rfl
  | endGroup htag htype =>
    rename_i _ bytes _ _
    obtain ⟨n, rfl⟩ : ∃ k, n = k + 1 := ⟨n - 1, by omega⟩
    have hshort := length_lt_of_readVarint32 htag
    obtain ⟨b, bytes, rfl⟩ := List.exists_cons_of_length_pos (Nat.zero_lt_of_lt hshort)
    rw [readFields, htag, Option.bind_some]
    simp only
    rw [if_neg (by omega), if_pos htype]
  | group htag htype hinner hmore ihinner ihmore =>
    rename_i _ bytes _ _ _ _ _ _ _
    obtain ⟨n, rfl⟩ : ∃ k, n = k + 1 := ⟨n - 1, by omega⟩
    have hshort := length_lt_of_readVarint32 htag
    have hmiddle := hinner.length_le
    obtain ⟨b, bytes, rfl⟩ := List.exists_cons_of_length_pos (Nat.zero_lt_of_lt hshort)
    rw [readFields, htag, Option.bind_some]
    simp only
    rw [if_neg (by omega), if_neg (by omega), if_pos htype, if_neg (by omega),
      Nat.add_sub_cancel, ihinner (by omega), Option.bind_some]
    simp only [↓reduceIte]
    rw [ihmore (by omega), Option.map_some]
  | scalar htag hne hvalue hmore ih =>
    rename_i _ bytes _ _ _ _ _ _ _
    obtain ⟨n, rfl⟩ : ∃ k, n = k + 1 := ⟨n - 1, by omega⟩
    have hshort := length_lt_of_readVarint32 htag
    have hroom := length_bytes_of_readScalar hvalue
    obtain ⟨b, bytes, rfl⟩ := List.exists_cons_of_length_pos (Nat.zero_lt_of_lt hshort)
    rcases readScalar_cases hvalue with ⟨_, htype, -⟩ | ⟨_, htype, -⟩ | ⟨_, htype, -⟩ |
      ⟨_, htype, -⟩ <;>
    · rw [readFields, htag, Option.bind_some]
      simp only
      rw [if_neg hne, if_neg (by omega), if_neg (by omega), hvalue, Option.bind_some,
        ih (by omega), Option.map_some]

/-- The fields of a sequence of bytes that holds nothing else. -/
def records (depth : ℕ) (bytes : List Byte) : Option Fields :=
  match readFields (bytes.length + 1) depth bytes with
  | some (fields, 0, _) => some fields
  | _ => none

theorem records_eq_some_iff (depth : ℕ) (bytes : List Byte) (fields : Fields) :
    records depth bytes = some fields ↔ Reads depth bytes fields 0 [] := by
  constructor
  · intro h
    unfold records at h
    split at h
    · rename_i fields' rest hread
      cases h
      have hreads := reads_of_readFields hread
      exact hreads.rest_of_last_eq_zero rfl ▸ hreads
    · cases h
  · intro h
    rw [records, h.readFields_eq (Nat.lt_succ_self _)]
    rfl

theorem records_bytes (depth : ℕ) (fields : Fields) (h : fields.Fits depth) :
    records depth fields.bytes = some fields :=
  (records_eq_some_iff depth _ _).mpr (reads_bytes h)

theorem fits_of_records {depth : ℕ} {bytes : List Byte} {fields : Fields}
    (h : records depth bytes = some fields) : fields.Fits depth :=
  ((records_eq_some_iff depth bytes fields).mp h).fits

theorem length_bytes_le_of_records {depth : ℕ} {bytes : List Byte} {fields : Fields}
    (h : records depth bytes = some fields) : fields.bytes.length ≤ bytes.length := by
  have hlen := ((records_eq_some_iff depth bytes fields).mp h).length_bytes_le
  omega

end Decoder

end BlackCat.WireFields
