import Auron.Io.Bytes
import Auron.Lib.BitWords

/-!
# Arrays of the columnar format

`DataType` are the types that `io/batch_serde.rs` writes and reads, `ArrayRef` the arrays of these types as they lie in
memory: a slice of an array shares the buffers of the array, so that validity bits and Boolean values begin at an offset
into their buffer, the offsets of lists, maps and byte strings begin at any number, and the children of a list are longer
than what its offsets point at.  The type of a nested array is that of its children.

`ArrayRef.value` is the logical value of a row.  `ArrayRef.Valid` is what the constructors of the format ensure.
-/

namespace Auron.Io

open Auron.Lib List

/-! ### Types -/

inductive TimeUnit where
  | second
  | millisecond
  | microsecond
  | nanosecond
  deriving DecidableEq, Repr

inductive PrimitiveType where
  | int8
  | int16
  | int32
  | int64
  | uint8
  | uint16
  | uint32
  | uint64
  | float32
  | float64
  | date32
  | date64
  | decimal128 (precision : ℕ) (scale : ℤ)
  | timestamp (unit : TimeUnit) (timezone : Option String)
  deriving DecidableEq, Repr

def PrimitiveType.width : PrimitiveType → ℕ
  | int8 | uint8 => 1
  | int16 | uint16 => 2
  | int32 | uint32 | float32 | date32 => 4
  | int64 | uint64 | float64 | date64 | timestamp _ _ => 8
  | decimal128 _ _ => 16

/-- `ArrowPrimitiveType::DATA_TYPE` of the array type of values of a type. -/
def PrimitiveType.dataTypeConst : PrimitiveType → PrimitiveType
  | decimal128 _ _ => decimal128 38 10
  | timestamp unit _ => timestamp unit none
  | t => t

mutual
/-- `DataType`.  A field is its name, whether it is nullable, and its type; `other` are the types that are not
supported. -/
inductive DataType where
  | null
  | boolean
  | primitive (t : PrimitiveType)
  | utf8
  | binary
  | list (name : String) (nullable : Bool) (item : DataType)
  | map (name : String) (nullable : Bool) (entries : DataType) (isSorted : Bool)
  | struct (fields : Fields)
  | other (name : String)
  deriving DecidableEq, Repr
inductive Fields where
  | nil
  | cons (name : String) (nullable : Bool) (dataType : DataType) (fields : Fields)
  deriving DecidableEq, Repr
end

mutual
/-- No timestamp in the type, at any depth, has a time zone. -/
def DataType.noTimezone : DataType → Bool
  | .primitive (.timestamp _ (some _)) => false
  | .list _ _ item => item.noTimezone
  | .map _ _ entries _ => entries.noTimezone
  | .struct fields => fields.noTimezone
  | _ => true
def Fields.noTimezone : Fields → Bool
  | .nil => true
  | .cons _ _ dataType fields => dataType.noTimezone && fields.noTimezone
end

/-! ### Arrays -/

/-- Bits from an offset on: `BooleanBuffer`, and `NullBuffer`, whose bits are set for the rows that are not null. -/
structure BitBuffer where
  buffer : Bytes
  offset : ℕ
  len : ℕ
  deriving DecidableEq, Repr

def bitAt (buffer : Bytes) (i : ℕ) : Bool := getBit (buffer.map UInt8.toBitVec) i

/-- `n` bits one after the other, in as many bytes as they take. -/
def packBits (n : ℕ) (f : ℕ → Bool) : Bytes :=
  (setWhere f id (range n) (replicate ((n + 7) / 8) (0 : BitVec 8))).map UInt8.ofBitVec

lemma length_packBits (n : ℕ) (f : ℕ → Bool) : (packBits n f).length = (n + 7) / 8 := by
  rw [packBits, length_map, length_setWhere, length_replicate]

variable {i : ℕ}

lemma bitAt_packBits {n : ℕ} (f : ℕ → Bool) (hi : i < n) : bitAt (packBits n f) i = f i := by
  have hid : UInt8.toBitVec ∘ UInt8.ofBitVec = id := rfl
  have hbound : ∀ i ∈ range n, f i = true →
      id i < 8 * (replicate ((n + 7) / 8) (0 : BitVec 8)).length := by
    intro i hi _
    rw [mem_range] at hi
    rw [length_replicate, id]
    omega
  rw [bitAt, packBits, map_map, hid, map_id, getBit_setWhere (by decide) hbound,
    getBit_replicate_zero, Bool.false_or]
  cases hb : f i with
  | true =>
    rw [any_eq_true]
    exact ⟨i, mem_range.2 hi, by simp [hb]⟩
  | false =>
    rw [any_eq_false]
    intro j _ hj
    simp only [id, Bool.and_eq_true, beq_iff_eq] at hj
    rw [hj.2, hb] at hj
    cases hj.1

namespace BitBuffer

/-- `BooleanBuffer::value`. -/
def get (b : BitBuffer) (i : ℕ) : Bool := bitAt b.buffer (b.offset + i)

def slice (b : BitBuffer) (offset len : ℕ) : BitBuffer := ⟨b.buffer, b.offset + offset, len⟩

lemma get_slice (b : BitBuffer) (offset len i : ℕ) : (b.slice offset len).get i = b.get (offset + i) := by
  simp [get, slice, add_assoc]

/-- There are `n` bits, and the buffer holds them. -/
def Holds (b : BitBuffer) (n : ℕ) : Prop := b.len = n ∧ b.offset + n ≤ 8 * b.buffer.length

lemma Holds.slice {b : BitBuffer} {n offset len : ℕ} (h : b.Holds n) (hle : offset + len ≤ n) :
    (b.slice offset len).Holds len := by
  refine ⟨rfl, ?_⟩
  have := h.2
  show b.offset + offset + len ≤ 8 * b.buffer.length
  omega

end BitBuffer

mutual
inductive ArrayRef where
  /-- `NullArray`. -/
  | null (len : ℕ)
  /-- `BooleanArray`. -/
  | boolean (values : BitBuffer) (nulls : Option BitBuffer)
  /-- `PrimitiveArray`: the raw bytes of its values. -/
  | primitive (t : PrimitiveType) (values : Bytes) (len : ℕ) (nulls : Option BitBuffer)
  /-- `StringArray` and `BinaryArray`. -/
  | bytes (isUtf8 : Bool) (offsets : List ℕ) (data : Bytes) (nulls : Option BitBuffer)
  /-- `ListArray`. -/
  | list (name : String) (nullable : Bool) (offsets : List ℕ) (values : ArrayRef) (nulls : Option BitBuffer)
  /-- `MapArray`, with the columns of its entries: the keys and the values. -/
  | map (name : String) (nullable isSorted : Bool) (offsets : List ℕ) (entries : Columns) (nulls : Option BitBuffer)
  /-- `StructArray`. -/
  | struct (len : ℕ) (columns : Columns) (nulls : Option BitBuffer)
inductive Columns where
  | nil
  | cons (name : String) (nullable : Bool) (column : ArrayRef) (columns : Columns)
end

inductive Value where
  | null
  | bool (b : Bool)
  | native (bytes : Bytes)
  | bytes (bytes : Bytes)
  | list (values : List Value)
  | struct (values : List Value)

mutual
def ArrayRef.dataType : ArrayRef → DataType
  | .null _ => .null
  | .boolean _ _ => .boolean
  | .primitive t _ _ _ => .primitive t
  | .bytes isUtf8 _ _ _ => if isUtf8 then .utf8 else .binary
  | .list name nullable _ values _ => .list name nullable values.dataType
  | .map name nullable isSorted _ entries _ => .map name nullable (.struct entries.fields) isSorted
  | .struct _ columns _ => .struct columns.fields
def Columns.fields : Columns → Fields
  | .nil => .nil
  | .cons name nullable column columns => .cons name nullable column.dataType columns.fields
end

def ArrayRef.len : ArrayRef → ℕ
  | .null len => len
  | .boolean values _ => values.len
  | .primitive _ _ len _ => len
  | .bytes _ offsets _ _ => offsets.length - 1
  | .list _ _ offsets _ _ => offsets.length - 1
  | .map _ _ _ offsets _ _ => offsets.length - 1
  | .struct len _ _ => len

def ArrayRef.nulls : ArrayRef → Option BitBuffer
  | .null _ => none
  | .boolean _ nulls => nulls
  | .primitive _ _ _ nulls => nulls
  | .bytes _ _ _ nulls => nulls
  | .list _ _ _ _ nulls => nulls
  | .map _ _ _ _ _ nulls => nulls
  | .struct _ _ nulls => nulls

def nullAt (nulls : Option BitBuffer) (i : ℕ) : Bool := nulls.any fun b => !b.get i

def ArrayRef.isNull (a : ArrayRef) (i : ℕ) : Bool := nullAt a.nulls i

def unlessNull (nulls : Option BitBuffer) (i : ℕ) (v : Value) : Value := if nullAt nulls i then .null else v

/-- Offset `i`. -/
def offsetAt (offsets : List ℕ) (i : ℕ) : ℕ := offsets.getD i 0

def slot (offsets : List ℕ) (data : Bytes) (i : ℕ) : Bytes :=
  (data.drop (offsetAt offsets i)).take (offsetAt offsets (i + 1) - offsetAt offsets i)

def span (offsets : List ℕ) (i : ℕ) : List ℕ :=
  (range (offsetAt offsets (i + 1) - offsetAt offsets i)).map (offsetAt offsets i + ·)

mutual
def ArrayRef.value : ArrayRef → ℕ → Value
  | .null _, _ => .null
  | .boolean values nulls, i => unlessNull nulls i (.bool (values.get i))
  | .primitive t values _ nulls, i => unlessNull nulls i (.native ((values.drop (t.width * i)).take t.width))
  | .bytes _ offsets data nulls, i => unlessNull nulls i (.bytes (slot offsets data i))
  | .list _ _ offsets values nulls, i => unlessNull nulls i (.list ((span offsets i).map values.value))
  | .map _ _ _ offsets entries nulls, i =>
    unlessNull nulls i (.list ((span offsets i).map fun j => .struct (entries.values j)))
  | .struct _ columns nulls, i => unlessNull nulls i (.struct (columns.values i))
def Columns.values : Columns → ℕ → List Value
  | .nil, _ => []
  | .cons _ _ column columns, i => column.value i :: columns.values i
end

mutual
def ArrayRef.slice : ArrayRef → ℕ → ℕ → ArrayRef
  | .null _, _, len => .null len
  | .boolean values nulls, offset, len => .boolean (values.slice offset len) (nulls.map (·.slice offset len))
  | .primitive t values _ nulls, offset, len =>
    .primitive t ((values.drop (t.width * offset)).take (t.width * len)) len (nulls.map (·.slice offset len))
  | .bytes isUtf8 offsets data nulls, offset, len =>
    .bytes isUtf8 ((offsets.drop offset).take (len + 1)) data (nulls.map (·.slice offset len))
  | .list name nullable offsets values nulls, offset, len =>
    .list name nullable ((offsets.drop offset).take (len + 1)) values (nulls.map (·.slice offset len))
  | .map name nullable isSorted offsets entries nulls, offset, len =>
    .map name nullable isSorted ((offsets.drop offset).take (len + 1)) entries (nulls.map (·.slice offset len))
  | .struct _ columns nulls, offset, len => .struct len (columns.slice offset len) (nulls.map (·.slice offset len))
def Columns.slice : Columns → ℕ → ℕ → Columns
  | .nil, _, _ => .nil
  | .cons name nullable column columns, offset, len =>
    .cons name nullable (column.slice offset len) (columns.slice offset len)
end

/-! ### Well-formed arrays -/

/-- A null buffer, if there is one, has a bit for every row. -/
def NullsHold (nulls : Option BitBuffer) (n : ℕ) : Prop := ∀ b ∈ nulls, b.Holds n

/-- Offsets are `i32`s, do not fall and stay within what they point into. -/
structure OffsetsHold (offsets : List ℕ) (bound : ℕ) : Prop where
  nonempty : offsets ≠ []
  sorted : offsets.Pairwise (· ≤ ·)
  le : ∀ o ∈ offsets, o ≤ bound
  small : ∀ o ∈ offsets, o < 2 ^ 31

/-- `validate_decimal128_precision_and_scale`. -/
def PrimitiveType.isValid : PrimitiveType → Bool
  | decimal128 precision scale =>
    decide (0 < precision) && decide (precision ≤ 38) && decide (scale ≤ 38) && decide (scale ≤ precision)
  | _ => true

def Columns.HaveLen : Columns → ℕ → Prop
  | .nil, _ => True
  | .cons _ _ column columns, len => column.len = len ∧ columns.HaveLen len

section Valid

variable (validUtf8 : Bytes → Bool)

mutual
/-- What the constructors of arrays ensure.  A column that is not nullable has nulls only in rows that are null. -/
def ArrayRef.Valid : ArrayRef → Prop
  | .null _ => True
  | .boolean values nulls => values.Holds values.len ∧ NullsHold nulls values.len
  | .primitive t values len nulls => t.isValid = true ∧ values.length = t.width * len ∧ NullsHold nulls len
  | .bytes isUtf8 offsets data nulls =>
    OffsetsHold offsets data.length ∧ NullsHold nulls (offsets.length - 1) ∧
      (isUtf8 = true → ∀ i < offsets.length - 1, validUtf8 (slot offsets data i) = true)
  | .list _ nullable offsets values nulls =>
    OffsetsHold offsets values.len ∧ NullsHold nulls (offsets.length - 1) ∧ values.Valid ∧
      (nullable = false → ∀ i < values.len, values.isNull i = false)
  | .map _ _ _ offsets entries nulls =>
    (∃ key value nullableKey nullableValue keys values, entries = .cons key nullableKey keys
      (.cons value nullableValue values .nil) ∧ OffsetsHold offsets keys.len ∧ values.len = keys.len) ∧
      NullsHold nulls (offsets.length - 1) ∧ entries.Valid (fun _ => false)
  | .struct len columns nulls => NullsHold nulls len ∧ columns.HaveLen len ∧ columns.Valid (nullAt nulls)
def Columns.Valid : Columns → (ℕ → Bool) → Prop
  | .nil, _ => True
  | .cons _ nullable column columns, mask =>
    column.Valid ∧ (nullable = false → ∀ i < column.len, column.isNull i = true → mask i = true) ∧ columns.Valid mask
end

end Valid

/-! ### Slices -/

lemma nullAt_slice (nulls : Option BitBuffer) (offset len i : ℕ) :
    nullAt (nulls.map (·.slice offset len)) i = nullAt nulls (offset + i) := by
  cases nulls with
  | none => rfl
  | some b => simp [nullAt, BitBuffer.get_slice]

lemma unlessNull_slice (nulls : Option BitBuffer) (offset len i : ℕ) (v : Value) :
    unlessNull (nulls.map (·.slice offset len)) i v = unlessNull nulls (offset + i) v := by
  rw [unlessNull, nullAt_slice, unlessNull]

variable {offset len : ℕ}

lemma NullsHold.slice {nulls : Option BitBuffer} {n : ℕ} (h : NullsHold nulls n) (hle : offset + len ≤ n) :
    NullsHold (nulls.map (·.slice offset len)) len := by
  intro b hb
  obtain ⟨b', hb', rfl⟩ := Option.mem_map.1 hb
  exact (h b' hb').slice hle

lemma offsetAt_slice (offsets : List ℕ) (hi : i ≤ len) :
    offsetAt ((offsets.drop offset).take (len + 1)) i = offsetAt offsets (offset + i) := by
  unfold offsetAt
  rw [getD_eq_getElem?_getD, getD_eq_getElem?_getD, getElem?_take_of_lt (by omega), getElem?_drop]

lemma slot_slice (offsets : List ℕ) (data : Bytes) (hi : i < len) :
    slot ((offsets.drop offset).take (len + 1)) data i = slot offsets data (offset + i) := by
  unfold slot
  rw [offsetAt_slice _ (by omega), offsetAt_slice _ (by omega), add_assoc]

lemma span_slice (offsets : List ℕ) (hi : i < len) :
    span ((offsets.drop offset).take (len + 1)) i = span offsets (offset + i) := by
  unfold span
  rw [offsetAt_slice _ (by omega), offsetAt_slice _ (by omega), add_assoc]

variable {offsets : List ℕ}

lemma length_slice_offsets (hle : offset + len < offsets.length) :
    ((offsets.drop offset).take (len + 1)).length = len + 1 := by
  rw [length_take, length_drop]
  omega

lemma OffsetsHold.slice {bound : ℕ} (h : OffsetsHold offsets bound) (hle : offset + len < offsets.length) :
    OffsetsHold ((offsets.drop offset).take (len + 1)) bound := by
  have hsub : ((offsets.drop offset).take (len + 1)).Sublist offsets :=
    (take_sublist _ _).trans (drop_sublist _ _)
  refine ⟨ne_nil_of_length_pos (by rw [length_slice_offsets hle]; omega), h.sorted.sublist hsub, ?_, ?_⟩
  · exact fun o ho => h.le o (hsub.subset ho)
  · exact fun o ho => h.small o (hsub.subset ho)

lemma OffsetsHold.length_pos {bound : ℕ} (h : OffsetsHold offsets bound) : 0 < offsets.length :=
  length_pos_iff.2 h.nonempty

lemma OffsetsHold.lt_length {bound : ℕ} (h : OffsetsHold offsets bound) (hle : offset + len ≤ offsets.length - 1) :
    offset + len < offsets.length := by
  have := h.length_pos
  omega

mutual
@[simp] theorem ArrayRef.dataType_slice : ∀ (a : ArrayRef) (offset len : ℕ), (a.slice offset len).dataType = a.dataType
  | .null _, _, _ => rfl
  | .boolean _ _, _, _ => rfl
  | .primitive _ _ _ _, _, _ => rfl
  | .bytes _ _ _ _, _, _ => rfl
  | .list _ _ _ _ _, _, _ => rfl
  | .map _ _ _ _ _ _, _, _ => rfl
  | .struct _ columns _, offset, len => by
    rw [ArrayRef.slice, ArrayRef.dataType, ArrayRef.dataType, Columns.fields_slice columns]
@[simp] theorem Columns.fields_slice : ∀ (cs : Columns) (offset len : ℕ), (cs.slice offset len).fields = cs.fields
  | .nil, _, _ => rfl
  | .cons _ _ column columns, offset, len => by
    rw [Columns.slice, Columns.fields, Columns.fields, ArrayRef.dataType_slice column, Columns.fields_slice columns]
end

lemma ArrayRef.isNull_slice (a : ArrayRef) (offset len i : ℕ) : (a.slice offset len).isNull i = a.isNull (offset + i) := by
  cases a with
  | null _ => rfl
  | boolean _ nulls => exact nullAt_slice nulls offset len i
  | primitive _ _ _ nulls => exact nullAt_slice nulls offset len i
  | bytes _ _ _ nulls => exact nullAt_slice nulls offset len i
  | list _ _ _ _ nulls => exact nullAt_slice nulls offset len i
  | map _ _ _ _ _ nulls => exact nullAt_slice nulls offset len i
  | struct _ _ nulls => exact nullAt_slice nulls offset len i

mutual
theorem ArrayRef.value_slice : ∀ (a : ArrayRef) {offset len i : ℕ}, i < len →
    (a.slice offset len).value i = a.value (offset + i)
  | .null _, _, _, _, _ => rfl
  | .boolean values nulls, offset, len, i, _ => by
    simp only [ArrayRef.slice, ArrayRef.value, unlessNull_slice, BitBuffer.get_slice]
  | .primitive t values _ nulls, offset, len, i, hi => by
    have hle : t.width * (i + 1) ≤ t.width * len := Nat.mul_le_mul_left _ hi
    have hmin : min t.width (t.width * len - t.width * i) = t.width := by
      rw [mul_add] at hle
      omega
    simp only [ArrayRef.slice, ArrayRef.value, unlessNull_slice]
    rw [drop_take, take_take, drop_drop, hmin, mul_add]
  | .bytes _ offsets data nulls, offset, len, i, hi => by
    simp only [ArrayRef.slice, ArrayRef.value, unlessNull_slice, slot_slice _ _ hi]
  | .list _ _ offsets values nulls, offset, len, i, hi => by
    simp only [ArrayRef.slice, ArrayRef.value, unlessNull_slice, span_slice _ hi]
  | .map _ _ _ offsets entries nulls, offset, len, i, hi => by
    simp only [ArrayRef.slice, ArrayRef.value, unlessNull_slice, span_slice _ hi]
  | .struct _ columns nulls, offset, len, i, hi => by
    simp only [ArrayRef.slice, ArrayRef.value, unlessNull_slice]
    rw [Columns.values_slice columns hi]
theorem Columns.values_slice : ∀ (cs : Columns) {offset len i : ℕ}, i < len →
    (cs.slice offset len).values i = cs.values (offset + i)
  | .nil, _, _, _, _ => rfl
  | .cons _ _ column columns, offset, len, i, hi => by
    simp only [Columns.slice, Columns.values]
    rw [ArrayRef.value_slice column hi, Columns.values_slice columns hi]
end

lemma ArrayRef.len_slice {validUtf8 : Bytes → Bool} (a : ArrayRef) (h : a.Valid validUtf8)
    (hle : offset + len ≤ a.len) : (a.slice offset len).len = len := by
  have hoffsets : ∀ {offsets : List ℕ} {bound : ℕ}, OffsetsHold offsets bound → offset + len ≤ offsets.length - 1 →
      ((offsets.drop offset).take (len + 1)).length - 1 = len := by
    intro _ _ ho hle
    have := ho.length_pos
    rw [length_slice_offsets (by omega), Nat.add_sub_cancel]
  cases a with
  | null _ => rfl
  | boolean _ _ => rfl
  | primitive _ _ _ _ => rfl
  | bytes _ _ _ _ => exact hoffsets h.1 hle
  | list _ _ _ _ _ => exact hoffsets h.1 hle
  | map _ _ _ _ _ _ =>
    obtain ⟨⟨_, _, _, _, _, _, -, ho, -⟩, -⟩ := h
    exact hoffsets ho hle
  | struct _ _ _ => rfl

mutual
theorem ArrayRef.valid_slice {validUtf8 : Bytes → Bool} : ∀ (a : ArrayRef) {offset len : ℕ}, a.Valid validUtf8 →
    offset + len ≤ a.len → (a.slice offset len).Valid validUtf8
  | .null _, _, _, _, _ => trivial
  | .boolean values nulls, offset, len, h, hle => ⟨h.1.slice hle, h.2.slice hle⟩
  | .primitive t values n nulls, offset, len, h, hle => by
    refine ⟨h.1, ?_, h.2.2.slice hle⟩
    have hmul : t.width * (offset + len) ≤ t.width * n := Nat.mul_le_mul_left _ hle
    rw [length_take, length_drop, h.2.1]
    rw [mul_add] at hmul
    omega
  | .bytes isUtf8 offsets data nulls, offset, len, h, hle => by
    have hlt := h.1.lt_length hle
    have hlen := congrArg (· - 1) (length_slice_offsets hlt)
    refine ⟨h.1.slice hlt, hlen.symm ▸ h.2.1.slice hle, ?_⟩
    intro hutf8 i hi
    have hi : i < len := lt_of_lt_of_eq hi hlen
    rw [slot_slice _ _ hi]
    exact h.2.2 hutf8 (offset + i) (by omega)
  | .list _ nullable offsets values nulls, offset, len, h, hle => by
    have hlt := h.1.lt_length hle
    have hlen := congrArg (· - 1) (length_slice_offsets hlt)
    exact ⟨h.1.slice hlt, hlen.symm ▸ h.2.1.slice hle, h.2.2⟩
  | .map _ _ _ offsets entries nulls, offset, len, h, hle => by
    obtain ⟨⟨key, value, nk, nv, keys, values, hentries, ho, hlens⟩, hnulls, hvalid⟩ := h
    have hlt := ho.lt_length hle
    have hlen := congrArg (· - 1) (length_slice_offsets hlt)
    exact ⟨⟨key, value, nk, nv, keys, values, hentries, ho.slice hlt, hlens⟩, hlen.symm ▸ hnulls.slice hle, hvalid⟩
  | .struct n columns nulls, offset, len, h, hle => by
    obtain ⟨hnulls, hlens, hvalid⟩ := h
    refine ⟨hnulls.slice hle, ?_⟩
    exact Columns.valid_slice columns hlens hvalid (fun i => nullAt_slice nulls offset len i) hle
theorem Columns.valid_slice {validUtf8 : Bytes → Bool} : ∀ (cs : Columns) {offset len n : ℕ} {mask mask' : ℕ → Bool},
    cs.HaveLen n → cs.Valid validUtf8 mask → (∀ i, mask' i = mask (offset + i)) → offset + len ≤ n →
    (cs.slice offset len).HaveLen len ∧ (cs.slice offset len).Valid validUtf8 mask'
  | .nil, _, _, _, _, _, _, _, _, _ => ⟨trivial, trivial⟩
  | .cons _ nullable column columns, offset, len, n, mask, mask', hlens, hvalid, hmask, hle => by
    obtain ⟨hlen, hlens⟩ := hlens
    obtain ⟨hcol, hnonnull, hcols⟩ := hvalid
    have hlen' := column.len_slice hcol (hlen.symm ▸ hle)
    obtain ⟨h1, h2⟩ := Columns.valid_slice columns hlens hcols hmask hle
    refine ⟨⟨hlen', h1⟩, column.valid_slice hcol (hlen.symm ▸ hle), ?_, h2⟩
    intro hn i hi hnull
    rw [hlen'] at hi
    rw [ArrayRef.isNull_slice] at hnull
    rw [hmask]
    exact hnonnull hn (offset + i) (by omega) hnull
end

end Auron.Io
