import Auron.Arrow.DataType

/-!
# Arrays by their slots

An array is a slot for each row and the validity of the slots; a slot that is not valid still holds something.  The slots
of nested arrays are positions in their children: a slice of an array has the same children, with offsets that do not begin
at zero or keys that do not name all values.

`ArrayRef.value` is the logical value of a row, which what lies in slots that are not valid has no part in.
-/

namespace Auron.Arrow

open Auron.Io (Bytes offsetAt span)
open List

/-! ### Arrays -/

/-- A null buffer, if there is one: the validity of the slots. -/
abbrev Nulls := Option (List Bool)

def validAt (nulls : Nulls) (i : ℕ) : Bool := nulls.all fun valid => valid.getD i false

/-- `is_valid`; `none` if the slot is out of bounds of a null buffer. -/
def isValid (nulls : Nulls) (i : ℕ) : Option Bool :=
  match nulls with
  | none => some true
  | some valid => valid[i]?

def nullCount (nulls : Nulls) : ℕ := nulls.elim 0 fun valid => valid.count false

mutual
inductive ArrayRef where
  /-- `NullArray`. -/
  | null (len : ℕ)
  /-- `BooleanArray`. -/
  | boolean (values : List Bool) (nulls : Nulls)
  /-- `PrimitiveArray`: the bits of its values, as numbers. -/
  | primitive (t : PrimitiveType) (values : List ℕ) (nulls : Nulls)
  /-- `GenericByteArray`. -/
  | bytes (isUtf8 isLarge : Bool) (values : List Bytes) (nulls : Nulls)
  /-- `FixedSizeBinaryArray`. -/
  | fixedSizeBinary (size : ℕ) (values : List Bytes) (nulls : Nulls)
  /-- `GenericListArray`. -/
  | list (isLarge : Bool) (offsets : List ℕ) (values : ArrayRef) (nulls : Nulls)
  /-- `FixedSizeListArray`. -/
  | fixedSizeList (size len : ℕ) (values : ArrayRef) (nulls : Nulls)
  /-- `StructArray`. -/
  | struct (len : ℕ) (columns : Columns) (nulls : Nulls)
  /-- `MapArray`, with the two columns of its entries. -/
  | map (offsets : List ℕ) (keys values : ArrayRef) (nulls : Nulls)
  /-- `DictionaryArray`: the positions of the values of its rows. -/
  | dictionary (index : PrimitiveType) (keys : List ℕ) (values : ArrayRef) (nulls : Nulls)
inductive Columns where
  | nil
  | cons (column : ArrayRef) (columns : Columns)
end

mutual
def ArrayRef.dataType : ArrayRef → DataType
  | .null _ => .null
  | .boolean _ _ => .boolean
  | .primitive t _ _ => .primitive t
  | .bytes isUtf8 isLarge _ _ => .bytes isUtf8 isLarge
  | .fixedSizeBinary size _ _ => .fixedSizeBinary size
  | .list isLarge _ values _ => .list isLarge values.dataType
  | .fixedSizeList size _ values _ => .fixedSizeList values.dataType size
  | .struct _ columns _ => .struct columns.fields
  | .map _ keys values _ => .map keys.dataType values.dataType
  | .dictionary index _ values _ => .dictionary index values.dataType
def Columns.fields : Columns → Fields
  | .nil => .nil
  | .cons column columns => .cons column.dataType columns.fields
end

def ArrayRef.len : ArrayRef → ℕ
  | .null len => len
  | .boolean values _ => values.length
  | .primitive _ values _ => values.length
  | .bytes _ _ values _ => values.length
  | .fixedSizeBinary _ values _ => values.length
  | .list _ offsets _ _ => offsets.length - 1
  | .fixedSizeList _ len _ _ => len
  | .struct len _ _ => len
  | .map offsets _ _ _ => offsets.length - 1
  | .dictionary _ keys _ _ => keys.length

def ArrayRef.nulls : ArrayRef → Nulls
  | .null _ => none
  | .boolean _ nulls => nulls
  | .primitive _ _ nulls => nulls
  | .bytes _ _ _ nulls => nulls
  | .fixedSizeBinary _ _ nulls => nulls
  | .list _ _ _ nulls => nulls
  | .fixedSizeList _ _ _ nulls => nulls
  | .struct _ _ nulls => nulls
  | .map _ _ _ nulls => nulls
  | .dictionary _ _ _ nulls => nulls

/-! ### Values -/

inductive Value where
  | null
  | bool (b : Bool)
  | native (t : PrimitiveType) (bits : ℕ)
  | bytes (bytes : Bytes)
  | list (values : List Value)
  | struct (values : List Value)

def unlessNull (nulls : Nulls) (i : ℕ) (v : Value) : Value := if validAt nulls i then v else .null

mutual
def ArrayRef.value : ArrayRef → ℕ → Value
  | .null _, _ => .null
  | .boolean values nulls, i => unlessNull nulls i (.bool (values.getD i false))
  | .primitive t values nulls, i => unlessNull nulls i (.native t (values.getD i 0))
  | .bytes _ _ values nulls, i => unlessNull nulls i (.bytes (values.getD i []))
  | .fixedSizeBinary _ values nulls, i => unlessNull nulls i (.bytes (values.getD i []))
  | .list _ offsets values nulls, i => unlessNull nulls i (.list ((span offsets i).map values.value))
  | .fixedSizeList size _ values nulls, i =>
    unlessNull nulls i (.list ((range size).map fun k => values.value (i * size + k)))
  | .struct _ columns nulls, i => unlessNull nulls i (.struct (columns.values i))
  | .map offsets keys values nulls, i =>
    unlessNull nulls i (.list ((span offsets i).map fun j => .struct [keys.value j, values.value j]))
  | .dictionary _ keys values nulls, i => unlessNull nulls i (values.value (keys.getD i 0))
def Columns.values : Columns → ℕ → List Value
  | .nil, _ => []
  | .cons column columns, i => column.value i :: columns.values i
end

/-- The positions of the slot of a list; `none` if the row is out of bounds. -/
def slotSpan (offsets : List ℕ) (i : ℕ) : Option (List ℕ) :=
  if i < offsets.length - 1 then some (span offsets i) else none

lemma slotSpan_eq {offsets : List ℕ} {i : ℕ} (hi : i < offsets.length - 1) :
    slotSpan offsets i = some (span offsets i) := if_pos hi

/-! ### Well-formed arrays -/

/-- A null buffer, if there is one, has a bit for every slot. -/
def NullsHold (nulls : Nulls) (n : ℕ) : Prop := ∀ valid ∈ nulls, valid.length = n

structure OffsetsHold (offsets : List ℕ) (bound : ℕ) : Prop where
  sorted : offsets.Pairwise (· ≤ ·)
  le : ∀ o ∈ offsets, o ≤ bound

mutual
/-- What the constructors of arrays ensure.  The key of a slot that is null may name no value. -/
def ArrayRef.Valid : ArrayRef → Prop
  | .null _ => True
  | .boolean values nulls => NullsHold nulls values.length
  | .primitive t values nulls => NullsHold nulls values.length ∧ ∀ x ∈ values, x < 2 ^ (8 * t.width)
  | .bytes _ _ values nulls => NullsHold nulls values.length
  | .fixedSizeBinary size values nulls => NullsHold nulls values.length ∧ ∀ bs ∈ values, bs.length = size
  | .list _ offsets values nulls =>
    NullsHold nulls (offsets.length - 1) ∧ OffsetsHold offsets values.len ∧ values.Valid
  | .fixedSizeList size len values nulls => NullsHold nulls len ∧ values.len = len * size ∧ values.Valid
  | .struct len columns nulls => NullsHold nulls len ∧ columns.Valid len
  | .map offsets keys values nulls =>
    NullsHold nulls (offsets.length - 1) ∧ OffsetsHold offsets keys.len ∧ values.len = keys.len ∧ keys.Valid ∧ values.Valid
  | .dictionary _ keys values nulls =>
    NullsHold nulls keys.length ∧ (∀ i < keys.length, validAt nulls i = true → keys.getD i 0 < values.len) ∧ values.Valid
def Columns.Valid : Columns → ℕ → Prop
  | .nil, _ => True
  | .cons column columns, len => column.len = len ∧ column.Valid ∧ columns.Valid len
end

lemma isValid_eq {nulls : Nulls} {n i : ℕ} (h : NullsHold nulls n) (hi : i < n) :
    isValid nulls i = some (validAt nulls i) := by
  cases nulls with
  | none => rfl
  | some valid =>
    have hlen : i < valid.length := (h valid rfl).symm ▸ hi
    rw [isValid, validAt, Option.all_some, getElem?_eq_getElem hlen, getD_eq_getElem _ _ hlen]

lemma validAt_of_nullCount {nulls : Nulls} {n i : ℕ} (h : NullsHold nulls n) (hi : i < n) (hcount : nullCount nulls = 0) :
    validAt nulls i = true := by
  cases nulls with
  | none => rfl
  | some valid =>
    have hlen : i < valid.length := (h valid rfl).symm ▸ hi
    rw [validAt, Option.all_some, getD_eq_getElem _ _ hlen]
    exact eq_true_of_ne_false fun hb => count_eq_zero.1 hcount (hb ▸ getElem_mem hlen)

lemma offsetsHold_one : OffsetsHold [0, 1] 1 := ⟨by decide, by decide⟩

lemma OffsetsHold.lt_of_mem_span {offsets : List ℕ} {bound i j : ℕ} (h : OffsetsHold offsets bound)
    (hi : i < offsets.length - 1) (hj : j ∈ span offsets i) : j < bound := by
  obtain ⟨k, hk, rfl⟩ := mem_map.1 hj
  rw [mem_range] at hk
  have hnext : i + 1 < offsets.length := by omega
  have hle := h.le _ (getElem_mem hnext)
  rw [offsetAt, offsetAt, getD_eq_getElem _ _ hnext] at hk
  rw [offsetAt]
  omega

end Auron.Arrow
