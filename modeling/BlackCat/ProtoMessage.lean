import BlackCat.WireFields
import Mathlib.Data.List.Nodup
import Mathlib.Logic.Function.Basic

/-!
Messages of a given descriptor. A slot for each field holds at most one value,
or any number for a repeated field, of the field's type, and the fields that
the descriptor does not know are kept apart. Reading a sequence of fields into
a message is a fold over them. A message is the fold of its own fields, and
folding a longer sequence is merging what its parts fold to.
-/
namespace BlackCat.ProtoMessage

open ByteMemory WireFields

section Lookups

variable {α κ : Type*}

theorem injective_key_get {key : α → κ} {l : List α} (h : (l.map key).Nodup) :
    Function.Injective fun i : Fin l.length => key (l.get i) := by
  intro i j hij
  have hi : i.val < (l.map key).length := by simp
  have hj : j.val < (l.map key).length := by simp
  have heq : (l.map key)[i.val] = (l.map key)[j.val] := by simpa using hij
  exact Fin.ext (h.getElem_inj_iff.mp heq)

theorem find?_finRange_eq_some_iff [DecidableEq κ] {n : ℕ} {f : Fin n → κ}
    (hf : Function.Injective f) (k : κ) (i : Fin n) :
    (List.finRange n).find? (fun j => f j = k) = some i ↔ f i = k := by
  constructor
  · intro h
    simpa using List.find?_some h
  · intro h
    cases hfind : (List.finRange n).find? fun j => f j = k with
    | none =>
      have hnone := List.find?_eq_none.mp hfind i (List.mem_finRange i)
      exact absurd h (by simpa using hnone)
    | some j =>
      have hj : f j = k := by simpa using List.find?_some hfind
      rw [hf (hj.trans h.symm)]

end Lookups

inductive Label
  | required
  | optional
  | repeated
  deriving DecidableEq, Repr

/-- The types of fields that occur. An enumeration has its valid values. -/
inductive FieldType
  | string
  | uint32
  | uint64
  | enum (valid : List Int32)

abbrev FieldType.Value : FieldType → Type
  | .string => List Byte
  | .uint32 => UInt32
  | .uint64 => UInt64
  | .enum valid => { value : Int32 // value ∈ valid }

def FieldType.wireType : FieldType → ℕ
  | .string => 2
  | _ => 0

structure FieldDescriptor where
  number : ℕ
  label : Label
  type : FieldType

/-- A message type: tags fit in one byte, and no two fields have the same number. -/
structure Descriptor where
  fullName : String
  fields : List FieldDescriptor
  small : ∀ f ∈ fields, 0 < f.number ∧ f.number < 16
  distinct : (fields.map FieldDescriptor.number).Nodup

abbrev Slot (α : Type) : Label → Type
  | .required => Option α
  | .optional => Option α
  | .repeated => List α

section Slots

variable {α : Type}

def Slot.empty : (label : Label) → Slot α label
  | .required => none
  | .optional => none
  | .repeated => []

/-- Setting a field, or adding to a repeated one. -/
def Slot.put : (label : Label) → Slot α label → α → Slot α label
  | .required, _, value => some value
  | .optional, _, value => some value
  | .repeated, values, value => values ++ [value]

def Slot.toList : (label : Label) → Slot α label → List α
  | .required, slot => Option.toList slot
  | .optional, slot => Option.toList slot
  | .repeated, values => values

/-- The second slot's value wins; repeated values are added. -/
def Slot.merge : (label : Label) → Slot α label → Slot α label → Slot α label
  | .required, into, slot => Option.or slot into
  | .optional, into, slot => Option.or slot into
  | .repeated, into, values => into ++ values

theorem Slot.foldl_put_toList (label : Label) (into slot : Slot α label) :
    (Slot.toList label slot).foldl (Slot.put label) into = Slot.merge label into slot := by
  have hrepeated : ∀ values into : List α,
      values.foldl (Slot.put .repeated) into = into ++ values := by
    intro values
    induction values with
    | nil => exact fun into => (List.append_nil into).symm
    | cons value values ih =>
      intro into
      rw [List.foldl_cons, ih, Slot.put, List.append_assoc, List.singleton_append]
  cases label with
  | required => cases slot <;> rfl
  | optional => cases slot <;> rfl
  | repeated => exact hrepeated slot into

theorem Slot.merge_empty (label : Label) (slot : Slot α label) :
    Slot.merge label (Slot.empty label) slot = slot := by
  cases label with
  | required => cases slot <;> rfl
  | optional => cases slot <;> rfl
  | repeated => rfl

end Slots

section Values

/-- A 32-bit number as it is stored in 64 bits, with its sign. -/
def signExtend (value : Int32) : UInt64 := value.toInt64.toUInt64

/-- The value as a field on the wire. -/
def FieldType.toScalar : (type : FieldType) → type.Value → Scalar
  | .string, data => .lengthDelimited data
  | .uint32, value => .varint value.toUInt64
  | .uint64, value => .varint value
  | .enum _, value => .varint (signExtend value.1)

/-- What a field's type makes of a value on the wire: a value of the type, or a
number that is none of the enumeration, or nothing if the wire type differs. -/
def FieldType.interpret : (type : FieldType) → Scalar → Option (type.Value ⊕ UInt64)
  | .string, .lengthDelimited data => some (.inl data)
  | .uint32, .varint value => some (.inl value.toUInt32)
  | .uint64, .varint value => some (.inl value)
  | .enum valid, .varint value =>
    if h : value.toUInt32.toInt32 ∈ valid then some (.inl ⟨value.toUInt32.toInt32, h⟩)
    else some (.inr (signExtend value.toUInt32.toInt32))
  | _, _ => none

theorem toInt32_signExtend (value : Int32) : (signExtend value).toUInt32.toInt32 = value := by
  apply Int32.toBitVec_inj.mp
  apply BitVec.eq_of_getElem_eq
  intro i hi
  have hwide : i < 64 := by omega
  simp [signExtend, BitVec.getElem_setWidth, BitVec.getElem_signExtend, hi, hwide]

theorem FieldType.interpret_toScalar (type : FieldType) (value : type.Value) :
    type.interpret (type.toScalar value) = some (.inl value) := by
  cases type with
  | string => rfl
  | uint32 => simp [FieldType.interpret, FieldType.toScalar]
  | uint64 => rfl
  | enum valid =>
    have hback := toInt32_signExtend value.1
    simp only [FieldType.interpret, FieldType.toScalar, hback, value.2, dif_pos]

end Values

section Messages

abbrev Descriptor.Index (d : Descriptor) : Type := Fin d.fields.length

abbrev Descriptor.field (d : Descriptor) (i : d.Index) : FieldDescriptor := d.fields.get i

def Descriptor.findFieldByNumber (d : Descriptor) (number : ℕ) : Option d.Index :=
  (List.finRange d.fields.length).find? fun i => (d.field i).number = number

theorem Descriptor.number_injective (d : Descriptor) :
    Function.Injective fun i : d.Index => (d.field i).number :=
  injective_key_get d.distinct

theorem Descriptor.findFieldByNumber_eq_some_iff (d : Descriptor) (number : ℕ) (i : d.Index) :
    d.findFieldByNumber number = some i ↔ (d.field i).number = number :=
  find?_finRange_eq_some_iff d.number_injective number i

/-- The values of the fields, and the fields that are not known. -/
structure Message (d : Descriptor) where
  values : (i : d.Index) → Slot (d.field i).type.Value (d.field i).label
  unknown : Fields

variable {d : Descriptor}

theorem Message.ext_of {m m' : Message d} (hvalues : m.values = m'.values)
    (hunknown : m.unknown = m'.unknown) : m = m' := by
  cases m
  cases m'
  simp only at hvalues hunknown
  rw [hvalues, hunknown]

def Message.clear (d : Descriptor) : Message d := ⟨fun _ => Slot.empty _, .nil⟩

/-- A setter, or the adder of a repeated field. -/
def Message.put (m : Message d) (i : d.Index) (value : (d.field i).type.Value) : Message d :=
  { m with values := Function.update m.values i (Slot.put _ (m.values i) value) }

def Message.addUnknown (m : Message d) (fields : Fields) : Message d :=
  { m with unknown := m.unknown.append fields }

def Message.mergeFrom (m source : Message d) : Message d where
  values i := Slot.merge _ (m.values i) (source.values i)
  unknown := m.unknown.append source.unknown

def Message.isInitialized (m : Message d) : Bool :=
  (List.finRange d.fields.length).all fun i =>
    (d.field i).label ≠ .required ∨ (Slot.toList _ (m.values i)).length ≠ 0

/-- What a message makes of one field with a value. -/
def Message.absorbScalar (m : Message d) (number : ℕ) (value : Scalar) : Message d :=
  match d.findFieldByNumber number with
  | some i =>
    match (d.field i).type.interpret value with
    | some (.inl typed) => m.put i typed
    | some (.inr raw) => m.addUnknown (.scalar number (.varint raw) .nil)
    | none => m.addUnknown (.scalar number value .nil)
  | none => m.addUnknown (.scalar number value .nil)

/-- Fields read into a message, in order. Groups are never known. -/
def Message.absorb (m : Message d) : Fields → Message d
  | .nil => m
  | .scalar number value rest => (m.absorbScalar number value).absorb rest
  | .group number inner rest => (m.addUnknown (.group number inner .nil)).absorb rest

theorem Message.absorb_append (m : Message d) (a b : Fields) :
    m.absorb (a.append b) = (m.absorb a).absorb b := by
  induction a generalizing m with
  | nil => rfl
  | scalar number value rest ih => exact ih _
  | group number inner rest _ ih => exact ih _

end Messages

section Merging

variable {d : Descriptor}

theorem Message.clear_mergeFrom (m : Message d) : (Message.clear d).mergeFrom m = m := by
  apply Message.ext_of
  · funext i
    exact Slot.merge_empty _ _
  · rfl

end Merging

section Written

variable {d : Descriptor}

/-- The values of one field in front of other fields. -/
def fieldFields (f : FieldDescriptor) (values : List f.type.Value) (rest : Fields) : Fields :=
  values.foldr (fun value more => .scalar f.number (f.type.toScalar value) more) rest

/-- The fields of a message as they are written: those that are known in the order
of the descriptor, then the others. -/
def Message.toFields (m : Message d) : Fields :=
  (List.finRange d.fields.length).foldr
    (fun i more => fieldFields (d.field i) (Slot.toList _ (m.values i)) more) m.unknown

/-- Fields that a message keeps as they are, among its unknown ones. -/
def Descriptor.Ignores (d : Descriptor) : Fields → Prop
  | .nil => True
  | .scalar number value rest =>
    (∀ i, d.findFieldByNumber number = some i →
      (d.field i).type.interpret value = none ∨
        ∃ raw, value = .varint raw ∧ (d.field i).type.interpret value = some (.inr raw)) ∧
      d.Ignores rest
  | .group _ _ rest => d.Ignores rest

theorem Descriptor.Ignores.append {a b : Fields} (ha : d.Ignores a) (hb : d.Ignores b) :
    d.Ignores (a.append b) := by
  induction a with
  | nil => exact hb
  | scalar number value rest ih => exact ⟨ha.1, ih ha.2⟩
  | group number inner rest _ ih => exact ih ha

theorem Message.addUnknown_addUnknown (m : Message d) (a b : Fields) :
    (m.addUnknown a).addUnknown b = m.addUnknown (a.append b) := by
  apply Message.ext_of
  · rfl
  · exact Fields.append_assoc _ _ _

theorem Message.absorb_of_ignores (m : Message d) (fields : Fields) (h : d.Ignores fields) :
    m.absorb fields = m.addUnknown fields := by
  induction fields generalizing m with
  | nil => exact Message.ext_of rfl (Fields.append_nil _).symm
  | scalar number value rest ih =>
    have hone : m.absorbScalar number value = m.addUnknown (.scalar number value .nil) := by
      unfold Message.absorbScalar
      split
      · rename_i i hfind
        rcases h.1 i hfind with hnone | ⟨raw, rfl, hraw⟩
        · rw [hnone]
        · rw [hraw]
      · rfl
    rw [Message.absorb, hone, ih _ h.2, Message.addUnknown_addUnknown]
    rfl
  | group number inner rest _ ih =>
    rw [Message.absorb, ih _ h, Message.addUnknown_addUnknown]
    rfl

theorem Message.absorb_fieldFields (m : Message d) (i : d.Index)
    (values : List (d.field i).type.Value) (rest : Fields) :
    m.absorb (fieldFields (d.field i) values rest) = (values.foldl (fun m value =>
      Message.put m i value) m).absorb rest := by
  induction values generalizing m with
  | nil => rfl
  | cons value values ih =>
    have hfind := (d.findFieldByNumber_eq_some_iff _ i).mpr rfl
    have hone : m.absorbScalar (d.field i).number ((d.field i).type.toScalar value) =
        m.put i value := by
      simp only [Message.absorbScalar, hfind, FieldType.interpret_toScalar]
    rw [fieldFields, List.foldr_cons, Message.absorb, hone, List.foldl_cons]
    exact ih _

theorem Message.foldl_put (m : Message d) (i : d.Index) (values : List (d.field i).type.Value) :
    values.foldl (fun m value => Message.put m i value) m =
      ⟨Function.update m.values i (values.foldl (Slot.put _) (m.values i)), m.unknown⟩ := by
  induction values generalizing m with
  | nil => exact Message.ext_of (Function.update_eq_self i m.values).symm rfl
  | cons value values ih =>
    rw [List.foldl_cons, ih]
    apply Message.ext_of
    · simp only [Message.put, Function.update_self, Function.update_idem, List.foldl_cons]
    · rfl

theorem Message.absorb_toFields (into m : Message d) (h : d.Ignores m.unknown) :
    into.absorb m.toFields = into.mergeFrom m := by
  have hknown : ∀ (indices : List d.Index) (into : Message d), indices.Nodup →
      into.absorb (indices.foldr (fun i more =>
        fieldFields (d.field i) (Slot.toList _ (m.values i)) more) m.unknown) =
      ⟨fun i => if i ∈ indices then Slot.merge _ (into.values i) (m.values i)
        else into.values i, into.unknown.append m.unknown⟩ := by
    intro indices
    induction indices with
    | nil =>
      intro into _
      rw [List.foldr_nil, into.absorb_of_ignores _ h]
      apply Message.ext_of
      · funext i
        simp [Message.addUnknown]
      · rfl
    | cons i indices ih =>
      intro into hnodup
      obtain ⟨hnot, hrest⟩ := List.nodup_cons.mp hnodup
      rw [List.foldr_cons, Message.absorb_fieldFields, Message.foldl_put, ih _ hrest]
      apply Message.ext_of
      · funext j
        by_cases hj : j = i
        · subst j
          simp [hnot, Slot.foldl_put_toList]
        · simp [hj]
      · rfl
  rw [Message.toFields, hknown _ into (List.nodup_finRange _)]
  apply Message.ext_of
  · funext i
    simp [Message.mergeFrom]
  · rfl

theorem Message.absorb_clear_toFields (m : Message d) (h : d.Ignores m.unknown) :
    (Message.clear d).absorb m.toFields = m := by
  rw [Message.absorb_toFields _ m h, Message.clear_mergeFrom]

end Written

section Proper

variable {d : Descriptor}

/-- A message that can be written and read back: its unknown fields are none that
it would know, they are nested no deeper than the limit, and lengths fit. -/
structure Message.Proper (m : Message d) (depth : ℕ) : Prop where
  ignored : d.Ignores m.unknown
  unknownFits : m.unknown.Fits depth
  valuesFit : ∀ i, ∀ value ∈ Slot.toList _ (m.values i), ((d.field i).type.toScalar value).Fits

theorem Slot.toList_empty {α : Type} (label : Label) :
    Slot.toList label (Slot.empty label) = ([] : List α) := by
  cases label <;> rfl

theorem Message.toFields_clear (d : Descriptor) : (Message.clear d).toFields = .nil := by
  have hfold : ∀ indices : List d.Index, indices.foldr (fun i more =>
      fieldFields (d.field i) (Slot.toList _ ((Message.clear d).values i)) more) .nil =
        Fields.nil := by
    intro indices
    induction indices with
    | nil => rfl
    | cons i indices ih =>
      rw [List.foldr_cons, ih]
      simp only [Message.clear, Slot.toList_empty]
      rfl
  exact hfold _

theorem Message.proper_clear (d : Descriptor) (depth : ℕ) : (Message.clear d).Proper depth where
  ignored := trivial
  unknownFits := trivial
  valuesFit i value hvalue := by
    simp only [Message.clear, Slot.toList_empty, List.not_mem_nil] at hvalue

theorem Slot.mem_toList_put {α : Type} (label : Label) (slot : Slot α label) (x y : α)
    (h : y ∈ Slot.toList label (Slot.put label slot x)) : y ∈ Slot.toList label slot ∨ y = x := by
  cases label with
  | required => exact Or.inr (by simpa [Slot.put, Slot.toList] using h)
  | optional => exact Or.inr (by simpa [Slot.put, Slot.toList] using h)
  | repeated => simpa [Slot.put, Slot.toList] using h

theorem Message.Proper.put {m : Message d} {depth : ℕ} (h : m.Proper depth) (i : d.Index)
    (value : (d.field i).type.Value) (hfits : ((d.field i).type.toScalar value).Fits) :
    (m.put i value).Proper depth where
  ignored := h.ignored
  unknownFits := h.unknownFits
  valuesFit j other hother := by
    by_cases hj : j = i
    · subst j
      simp only [Message.put, Function.update_self] at hother
      rcases Slot.mem_toList_put _ _ _ _ hother with hold | rfl
      · exact h.valuesFit i other hold
      · exact hfits
    · simp only [Message.put, Function.update_of_ne hj] at hother
      exact h.valuesFit j other hother

theorem Message.Proper.addUnknown {m : Message d} {depth : ℕ} (h : m.Proper depth)
    {fields : Fields} (hignored : d.Ignores fields) (hfits : fields.Fits depth) :
    (m.addUnknown fields).Proper depth where
  ignored := h.ignored.append hignored
  unknownFits := h.unknownFits.append hfits
  valuesFit := h.valuesFit

theorem FieldType.toScalar_fits_of_interpret (type : FieldType) {value : Scalar}
    {typed : type.Value} (h : type.interpret value = some (.inl typed)) (hvalue : value.Fits) :
    (type.toScalar typed).Fits := by
  cases type with
  | string =>
    cases value with
    | lengthDelimited data =>
      cases h
      exact hvalue
    | _ => cases h
  | _ => trivial

theorem FieldType.interpret_raw (type : FieldType) {value : Scalar} {raw : UInt64}
    (h : type.interpret value = some (.inr raw)) :
    type.interpret (.varint raw) = some (.inr raw) := by
  cases type with
  | enum valid =>
    cases value with
    | varint value =>
      simp only [FieldType.interpret] at h ⊢
      split at h
      · cases h
      · rename_i hnot
        cases h
        have hback := toInt32_signExtend value.toUInt32.toInt32
        simp only [hback, hnot, dif_neg, not_false_eq_true]
    | _ => cases h
  | _ => cases value <;> cases h

theorem Message.Proper.absorbScalar {m : Message d} {depth : ℕ} (h : m.Proper depth)
    {number : ℕ} {value : Scalar}
    (hfits : (Fields.scalar number value .nil).Fits depth) :
    (m.absorbScalar number value).Proper depth := by
  obtain ⟨htag, hnumber, hvalue, -⟩ := hfits
  unfold Message.absorbScalar
  split
  · rename_i i hfind
    have hi := (d.findFieldByNumber_eq_some_iff number i).mp hfind
    have hother : ∀ j, d.findFieldByNumber number = some j → j = i := by
      intro j hj
      rw [hfind] at hj
      exact (Option.some.inj hj).symm
    split
    · rename_i typed htyped
      exact h.put i typed (FieldType.toScalar_fits_of_interpret _ htyped hvalue)
    · rename_i raw hraw
      have hsmall := d.small (d.field i) (List.get_mem d.fields i)
      apply h.addUnknown
      · refine ⟨fun j hj => Or.inr ⟨raw, rfl, ?_⟩, trivial⟩
        rw [hother j hj]
        exact FieldType.interpret_raw _ hraw
      · exact ⟨by simp only [makeTag, Scalar.wireType]; omega, hnumber, trivial, trivial⟩
    · rename_i hnone
      apply h.addUnknown
      · refine ⟨fun j hj => Or.inl ?_, trivial⟩
        rw [hother j hj]
        exact hnone
      · exact ⟨htag, hnumber, hvalue, trivial⟩
  · rename_i hfind
    apply h.addUnknown
    · refine ⟨fun j hj => ?_, trivial⟩
      rw [hfind] at hj
      cases hj
    · exact ⟨htag, hnumber, hvalue, trivial⟩

theorem Message.Proper.absorb {m : Message d} {depth : ℕ} (h : m.Proper depth) {fields : Fields}
    (hfits : fields.Fits depth) : (m.absorb fields).Proper depth := by
  induction fields generalizing m with
  | nil => exact h
  | scalar number value rest ih =>
    obtain ⟨htag, hnumber, hvalue, hrest⟩ := hfits
    exact ih (h.absorbScalar ⟨htag, hnumber, hvalue, trivial⟩) hrest
  | group number inner rest _ ih =>
    obtain ⟨hnumber, hdepth, hinner, hrest⟩ := hfits
    exact ih (h.addUnknown trivial ⟨hnumber, hdepth, hinner, trivial⟩) hrest

theorem fits_fieldFields {f : FieldDescriptor} {depth : ℕ} (hpos : 0 < f.number)
    (hsmall : f.number < 16) {values : List f.type.Value} {rest : Fields}
    (hvalues : ∀ value ∈ values, (f.type.toScalar value).Fits) (hrest : rest.Fits depth) :
    (fieldFields f values rest).Fits depth := by
  induction values with
  | nil => exact hrest
  | cons value values ih =>
    exact ⟨by simp only [makeTag]; omega, by omega, hvalues value (List.mem_cons_self ..),
      ih (fun other hother => hvalues other (List.mem_cons_of_mem _ hother))⟩

theorem Message.Proper.fits_toFields {m : Message d} {depth : ℕ} (h : m.Proper depth) :
    m.toFields.Fits depth := by
  have hfold : ∀ indices : List d.Index, (indices.foldr (fun i more =>
      fieldFields (d.field i) (Slot.toList _ (m.values i)) more) m.unknown).Fits depth := by
    intro indices
    induction indices with
    | nil => exact h.unknownFits
    | cons i indices ih =>
      have hsmall := d.small (d.field i) (List.get_mem d.fields i)
      exact fits_fieldFields hsmall.1 hsmall.2 (h.valuesFit i) ih
  exact hfold _

end Proper

section Sizes

variable {d : Descriptor}

/-- No field is of an enumeration. A number outside one is kept with its sign,
which can take more bytes than it was read from. -/
def Descriptor.Plain (d : Descriptor) : Prop :=
  ∀ i : d.Index, ∀ valid, (d.field i).type ≠ .enum valid

theorem length_bytes_append (a b : Fields) :
    (a.append b).bytes.length = a.bytes.length + b.bytes.length := by
  rw [Fields.bytes_append, List.length_append]

theorem FieldType.length_toScalar_le {type : FieldType} (hplain : ∀ valid, type ≠ .enum valid)
    {value : Scalar} {typed : type.Value} (h : type.interpret value = some (.inl typed)) :
    (type.toScalar typed).wireType = value.wireType ∧
      (type.toScalar typed).bytes.length ≤ value.bytes.length := by
  cases type with
  | string =>
    cases value with
    | lengthDelimited data =>
      cases h
      exact ⟨rfl, Nat.le_refl _⟩
    | _ => cases h
  | uint32 =>
    cases value with
    | varint value =>
      cases h
      refine ⟨rfl, Varints.length_encode_mono 9 ?_⟩
      rw [UInt32.toNat_toUInt64, UInt64.toNat_toUInt32]
      exact Nat.mod_le _ _
    | _ => cases h
  | uint64 =>
    cases value with
    | varint value =>
      cases h
      exact ⟨rfl, Nat.le_refl _⟩
    | _ => cases h
  | enum valid => exact absurd rfl (hplain valid)

theorem FieldType.interpret_ne_raw {type : FieldType} (hplain : ∀ valid, type ≠ .enum valid)
    (value : Scalar) (raw : UInt64) : type.interpret value ≠ some (.inr raw) := by
  intro h
  cases type with
  | enum valid => exact hplain valid rfl
  | _ => cases value <;> cases h

theorem bytes_fieldFields (f : FieldDescriptor) (values : List f.type.Value) (rest : Fields) :
    (fieldFields f values rest).bytes =
      (values.flatMap fun value => tagBytes f.number (f.type.toScalar value).wireType ++
        (f.type.toScalar value).bytes) ++ rest.bytes := by
  induction values with
  | nil => rfl
  | cons value values ih =>
    rw [fieldFields, List.foldr_cons, Fields.bytes, List.flatMap_cons, List.append_assoc _ _
      rest.bytes]
    exact congrArg _ ih

theorem Slot.length_flatMap_put_le {α : Type} (label : Label) (slot : Slot α label) (x : α)
    (f : α → List Byte) :
    ((Slot.toList label (Slot.put label slot x)).flatMap f).length ≤
      ((Slot.toList label slot).flatMap f).length + (f x).length := by
  cases label with
  | required => simp [Slot.put, Slot.toList]
  | optional => simp [Slot.put, Slot.toList]
  | repeated => simp [Slot.put, Slot.toList]

theorem Message.length_put_le (m : Message d) (i : d.Index) (value : (d.field i).type.Value) :
    (m.put i value).toFields.bytes.length ≤ m.toFields.bytes.length +
      (tagBytes (d.field i).number ((d.field i).type.toScalar value).wireType ++
        ((d.field i).type.toScalar value).bytes).length := by
  have hfold : ∀ indices : List d.Index, indices.Nodup →
      let written (m : Message d) := (indices.foldr (fun i more =>
        fieldFields (d.field i) (Slot.toList _ (m.values i)) more) m.unknown).bytes.length
      (i ∉ indices → written (m.put i value) = written m) ∧
      written (m.put i value) ≤ written m +
        (tagBytes (d.field i).number ((d.field i).type.toScalar value).wireType ++
          ((d.field i).type.toScalar value).bytes).length := by
    intro indices
    induction indices with
    | nil => exact fun _ => ⟨fun _ => rfl, Nat.le_add_right _ _⟩
    | cons j indices ih =>
      intro hnodup
      obtain ⟨hnot, hrest⟩ := List.nodup_cons.mp hnodup
      obtain ⟨hsame, hle⟩ := ih hrest
      simp only [List.foldr_cons, bytes_fieldFields, List.length_append] at hsame hle ⊢
      by_cases hj : j = i
      · subst j
        refine ⟨fun hout => absurd (List.mem_cons_self ..) hout, ?_⟩
        have hput := Slot.length_flatMap_put_le _ (m.values i) value
          (fun value => tagBytes (d.field i).number ((d.field i).type.toScalar value).wireType ++
            ((d.field i).type.toScalar value).bytes)
        rw [hsame hnot]
        simp only [Message.put, Function.update_self]
        rw [List.length_append] at hput
        omega
      · have hvalues : (m.put i value).values j = m.values j := by
          simp only [Message.put, Function.update_of_ne hj]
        rw [hvalues]
        refine ⟨fun hout => ?_, by omega⟩
        rw [hsame (fun hin => hout (List.mem_cons_of_mem j hin))]
  exact (hfold _ (List.nodup_finRange _)).2

theorem Message.length_addUnknown (m : Message d) (fields : Fields) :
    (m.addUnknown fields).toFields.bytes.length =
      m.toFields.bytes.length + fields.bytes.length := by
  have hfold : ∀ indices : List d.Index, (indices.foldr (fun i more =>
      fieldFields (d.field i) (Slot.toList _ (m.values i)) more)
        (m.unknown.append fields)).bytes.length =
      (indices.foldr (fun i more => fieldFields (d.field i) (Slot.toList _ (m.values i)) more)
        m.unknown).bytes.length + fields.bytes.length := by
    intro indices
    induction indices with
    | nil => exact length_bytes_append _ _
    | cons i indices ih =>
      simp only [List.foldr_cons, bytes_fieldFields, List.length_append] at ih ⊢
      omega
  exact hfold _

/-- Written again, fields that were read into a message take no more room. -/
theorem Message.length_absorb_le (hplain : d.Plain) (m : Message d) (fields : Fields) :
    (m.absorb fields).toFields.bytes.length ≤
      m.toFields.bytes.length + fields.bytes.length := by
  induction fields generalizing m with
  | nil => exact Nat.le_add_right _ _
  | scalar number value rest ih =>
    have hone : (m.absorbScalar number value).toFields.bytes.length ≤
        m.toFields.bytes.length + (tagBytes number value.wireType ++ value.bytes).length := by
      have hkeep : (m.addUnknown (.scalar number value .nil)).toFields.bytes.length =
          m.toFields.bytes.length + (tagBytes number value.wireType ++ value.bytes).length := by
        rw [Message.length_addUnknown, Fields.bytes, Fields.bytes, List.append_nil]
      unfold Message.absorbScalar
      split
      · rename_i i hfind
        have hi := (d.findFieldByNumber_eq_some_iff number i).mp hfind
        split
        · rename_i typed htyped
          obtain ⟨htype, hlen⟩ := FieldType.length_toScalar_le (hplain i) htyped
          have hput := m.length_put_le i typed
          rw [hi, htype, List.length_append] at hput
          rw [List.length_append]
          omega
        · rename_i raw hraw
          exact absurd hraw (FieldType.interpret_ne_raw (hplain i) value raw)
        · exact Nat.le_of_eq hkeep
      · exact Nat.le_of_eq hkeep
    have hrest := ih (m.absorbScalar number value)
    rw [Message.absorb, Fields.bytes, List.length_append]
    omega
  | group number inner rest _ ih =>
    have hone := m.length_addUnknown (.group number inner .nil)
    have hrest := ih (m.addUnknown (.group number inner .nil))
    simp only [Fields.bytes, List.append_nil] at hone
    rw [Message.absorb, Fields.bytes, List.length_append]
    omega

end Sizes

end BlackCat.ProtoMessage
