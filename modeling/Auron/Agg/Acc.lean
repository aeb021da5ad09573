import Auron.Agg.AggCtx
import Auron.Agg.Collect
import Auron.Lib.Slots
import Auron.SparkBloomFilter

/-!
# Accumulator columns (`agg/acc.rs`, `agg/count.rs`, `agg/avg.rs`, `agg/bloom_filter.rs`)

A column has one record for each group.  It spills a selection of its records to bytes and reads them back, and it freezes
them to arrays and takes them from arrays.  Every kind of column has its own format.

The validity bits and the values of a column have the same length after every operation; a `Slot` is one of each.  A value
of a native type is its bytes, of which there are as many as the type is wide.
-/

namespace Auron.Agg

open Auron.Io Auron.Io.BatchSerde Auron.Lib

/-! ### Arrays -/

/-- The arrays that columns are frozen to; a primitive array has the width of its type. -/
inductive AccArray where
  | boolean (values : BitBuffer) (nulls : Option BitBuffer)
  | primitive (width : ℕ) (values : Bytes) (len : ℕ) (nulls : Option BitBuffer)
  | bytes (offsets : List ℕ) (data : Bytes) (nulls : Option BitBuffer)

namespace AccArray

def len : AccArray → ℕ
  | boolean values _ => values.len
  | primitive _ _ len _ => len
  | bytes offsets _ _ => offsets.length - 1

def slice : AccArray → ℕ → ℕ → AccArray
  | boolean values nulls, offset, len => boolean (values.slice offset len) (nulls.map (·.slice offset len))
  | primitive width values _ nulls, offset, len =>
    primitive width ((values.drop (width * offset)).take (width * len)) len (nulls.map (·.slice offset len))
  | bytes offsets data nulls, offset, len =>
    bytes ((offsets.drop offset).take (len + 1)) data (nulls.map (·.slice offset len))

/-- The null buffer of an array that is built: there is none without a null. -/
def builtNulls (valids : List Bool) : Option BitBuffer :=
  if valids.all id then none else some ⟨packBits valids.length (valids.getD · false), 0, valids.length⟩

/-- `BooleanArray::from_iter`. -/
def fromBools (xs : List (Option Bool)) : AccArray :=
  boolean ⟨packBits xs.length fun i => (xs.getD i none).getD false, 0, xs.length⟩ (builtNulls (xs.map Option.isSome))

/-- `PrimitiveArray::from_iter`: zeros where there is a null. -/
def fromNatives (width : ℕ) (xs : List (Option Bytes)) : AccArray :=
  primitive width (xs.flatMap fun x => x.getD (List.replicate width 0)) xs.length (builtNulls (xs.map Option.isSome))

/-- `BinaryArray::from_iter` and `from_iter_values`, which panic when an offset is too large for an `i32`. -/
def fromBytes (xs : List (Option Bytes)) : Option AccArray :=
  let slots := xs.map (·.getD [])
  if slots.flatten.length < 2 ^ 31 then
    some (bytes (offsetsOf slots) slots.flatten (builtNulls (xs.map Option.isSome)))
  else none

end AccArray

/-! ### Selections -/

/-- The items of a selection, in its order; `none` if an index is out of bounds. -/
def IdxSelection.select {α : Type} (sel : IdxSelection) (items : List α) : Option (List α) :=
  sel.toList.mapM fun i => items[i]?

def resized {α : Type} (xs : List α) (len : ℕ) (fill : α) : List α := xs.take len ++ List.replicate (len - xs.length) fill

/-- The validity bits of an array: all set if it has no null buffer. -/
def arrayValids (nulls : Option BitBuffer) (len : ℕ) : List Bool :=
  resized (nulls.elim [] fun nb => (List.range nb.len).map nb.get) len true

/-! ### Booleans -/

structure Slot (α : Type) where
  valid : Bool
  value : α

def Slot.get {α : Type} (s : Slot α) : Option α := if s.valid then some s.value else none

structure AccBooleanColumn where
  slots : List (Slot Bool)

namespace AccBooleanColumn

section Column

variable (col : AccBooleanColumn)

def resize (len : ℕ) : AccBooleanColumn := ⟨resized col.slots len ⟨false, false⟩⟩

def spillSlot (s : Slot Bool) : UInt8 := if s.valid then 1 + s.value.toUInt8 else 0

def spill (sel : IdxSelection) : Option Bytes := (sel.select col.slots).map (·.map spillSlot)

def unspillSlot (s : Slot Bool) (v : UInt8) : Slot Bool := if v = 0 then { s with valid := false } else ⟨true, v - 1 != 0⟩

def unspill (numRows : ℕ) : ReadBytes AccBooleanColumn := do
  let buf ← Reads.exact numRows
  pure ⟨List.zipWith unspillSlot (col.resize numRows).slots buf⟩

def freezeToArrays (sel : IdxSelection) : Option (List AccArray) :=
  (sel.select col.slots).map fun slots => [.fromBools (slots.map Slot.get)]

end Column

def unfreezeFromArrays : List AccArray → Option AccBooleanColumn
  | .boolean values nulls :: _ =>
    some ⟨List.zipWith Slot.mk (arrayValids nulls values.len) ((List.range values.len).map values.get)⟩
  | _ => none

end AccBooleanColumn

/-! ### Native values -/

abbrev Native (width : ℕ) := { bytes : Bytes // bytes.length = width }

def Native.default (width : ℕ) : Native width := ⟨List.replicate width 0, List.length_replicate⟩

def natives (width : ℕ) : ℕ → Bytes → Option (List (Native width))
  | 0, _ => some []
  | n + 1, raw =>
    if h : width ≤ raw.length then
      (natives width n (raw.drop width)).map (⟨raw.take width, List.length_take_of_le h⟩ :: ·)
    else none

structure AccPrimColumn (width : ℕ) where
  slots : List (Slot (Native width))

namespace AccPrimColumn

variable {width : ℕ}

section Column

variable (col : AccPrimColumn width)

def resize (len : ℕ) : AccPrimColumn width := ⟨resized col.slots len ⟨false, .default width⟩⟩

def validValues (slots : List (Slot (Native width))) : List (Native width) := slots.filterMap Slot.get

/-- `spill`: the number of valid records, the validity bits, and the values of the valid records only. -/
def spill (sel : IdxSelection) : Option Bytes :=
  (sel.select col.slots).map fun slots =>
    writeLen (slots.countP Slot.valid) ++ (packBits slots.length (fun i => (slots.map Slot.valid).getD i false)
      ++ (validValues slots).flatMap Subtype.val)

/-- The loop of `unspill`: each set bit takes the next value; `none` if there are fewer values. -/
def fillValids : List Bool → List (Slot (Native width)) → List (Native width) → Option (List (Slot (Native width)))
  | true :: bits, _ :: slots, value :: values => (fillValids bits slots values).map (⟨true, value⟩ :: ·)
  | true :: _, _ :: _, [] => none
  | false :: bits, slot :: slots, values => (fillValids bits slots values).map (⟨false, slot.value⟩ :: ·)
  | _, _, _ => some []

def unspill (numRows : ℕ) : ReadBytes (AccPrimColumn width) := do
  let numValids ← BatchSerde.readLen
  let bits ← Reads.exact ((numRows + 7) / 8)
  let raw ← Reads.exact (numValids * width)
  let values ← orFail (natives width numValids raw)
  let slots ← orFail (fillValids ((List.range numRows).map (bitAt bits)) (col.resize numRows).slots values)
  pure ⟨slots⟩

def freezeToArrays (sel : IdxSelection) : Option (List AccArray) :=
  (sel.select col.slots).map fun slots => [.fromNatives width (slots.map fun s => s.get.map Subtype.val)]

end Column

/-- `unfreeze_from_arrays`: a buffer of another type is refused. -/
def unfreezeFromArrays : List AccArray → Option (AccPrimColumn width)
  | .primitive arrayWidth values len nulls :: _ =>
    if arrayWidth = width then
      (natives width len values).map fun values => ⟨List.zipWith Slot.mk (arrayValids nulls len) values⟩
    else none
  | _ => none

end AccPrimColumn

/-! ### Byte strings -/

/-- `AccBytes`: `heap` is the capacity when the bytes are not inline. -/
structure AccBytes where
  bytes : Bytes
  heap : Option ℕ

/-- `from_slice` and `uninitialized_init`: 24 bytes are inline. -/
def AccBytes.fromSlice (bytes : Bytes) : AccBytes := ⟨bytes, if bytes.length ≤ 24 then none else some bytes.length⟩

structure AccBytesColumn where
  items : List (Option AccBytes)
  heapMemUsed : Counter

namespace AccBytesColumn

def new (numRecords : ℕ) : AccBytesColumn := ⟨List.replicate numRecords none, .zero⟩

def itemHeapMemUsed (item : Option AccBytes) : ℕ := (item.bind AccBytes.heap).getD 0

section Column

variable (col : AccBytesColumn)

def takeValue (idx : ℕ) : Option (Option AccBytes × AccBytesColumn) :=
  col.items[idx]?.map fun item =>
    (item, ⟨col.items.set idx none, col.heapMemUsed.sub (itemHeapMemUsed item)⟩)

def setValue (idx : ℕ) (value : Option AccBytes) : Option AccBytesColumn :=
  col.items[idx]?.map fun item =>
    ⟨col.items.set idx value, (col.heapMemUsed.sub (itemHeapMemUsed item)).add (itemHeapMemUsed value)⟩

def refreshHeapMemUsed (items : List (Option AccBytes)) : AccBytesColumn :=
  ⟨items, items.foldl (fun used item => used.add (itemHeapMemUsed item)) .zero⟩

def resize (len : ℕ) : AccBytesColumn :=
  if col.items.length < len then { col with items := col.items ++ List.replicate (len - col.items.length) none }
  else ⟨col.items.take len,
    (col.items.drop len).foldl (fun used item => used.sub (itemHeapMemUsed item)) col.heapMemUsed⟩

def saveValue : Option AccBytes → Bytes
  | some v => writeLen (1 + v.bytes.length) ++ v.bytes
  | none => [0]

def loadValue : ReadBytes (Option AccBytes) := do
  let readLen ← BatchSerde.readLen
  if readLen = 0 then pure none
  else do
    let bytes ← Reads.exact (readLen - 1)
    pure (some (AccBytes.fromSlice bytes))

def spill (sel : IdxSelection) : Option Bytes :=
  (sel.select col.items).map fun items => items.flatMap saveValue

def unspill (numRows : ℕ) : ReadBytes AccBytesColumn := do
  let items ← loadValue.times numRows
  pure (refreshHeapMemUsed (col.items ++ items))

end Column

/-- `freeze_to_arrays`: the bytes of a string array have to be valid. -/
def freezeToArrays (validUtf8 : Bytes → Bool) (isUtf8 : Bool) (col : AccBytesColumn) (sel : IdxSelection) :
    Option (List AccArray) :=
  (sel.select col.items).bind fun items =>
    if isUtf8 && !items.all (fun item => item.all fun v => validUtf8 v.bytes) then none
    else (AccArray.fromBytes (items.map fun item => item.map AccBytes.bytes)).map ([·])

def unfreezeFromArrays : List AccArray → Option AccBytesColumn
  | .bytes offsets data nulls :: _ =>
    some (refreshHeapMemUsed ((List.range (offsets.length - 1)).map fun i =>
      if nullAt nulls i then none else some (AccBytes.fromSlice (slot offsets data i))))
  | _ => none

end AccBytesColumn

/-! ### Counts -/

def i64Bytes (v : BitVec 64) : Native 8 := ⟨(beBytes 8 v.toNat).reverse, by rw [List.length_reverse, length_beBytes]⟩

def i64OfBytes (bytes : Bytes) : BitVec 64 := BitVec.ofNat 64 (ofBe bytes.reverse)

structure AccCountColumn where
  values : List (BitVec 64)

namespace AccCountColumn

section Column

variable (col : AccCountColumn)

def resize (len : ℕ) : AccCountColumn := ⟨resized col.values len 0⟩

def spill (sel : IdxSelection) : Option Bytes :=
  (sel.select col.values).map fun values => values.flatMap fun v => writeLen v.toNat

/-- `unspill`: only into an empty column. -/
def unspill (numRows : ℕ) : ReadBytes AccCountColumn :=
  if col.values = [] then do
    let lens ← BatchSerde.readLen.times numRows
    pure ⟨lens.map (BitVec.ofNat 64)⟩
  else .fail .other

def freezeToArrays (sel : IdxSelection) : Option (List AccArray) :=
  (sel.select col.values).map fun values => [.fromNatives 8 (values.map fun v => some (i64Bytes v).1)]

end Column

/-- `unfreeze_from_arrays`: a null is zero. -/
def unfreezeFromArrays : List AccArray → Option AccCountColumn
  | .primitive width values len nulls :: _ =>
    if width = 8 then some ⟨(List.range len).map fun i =>
      if nullAt nulls i then 0 else i64OfBytes ((values.drop (8 * i)).take 8)⟩
    else none
  | _ => none

end AccCountColumn

/-! ### Averages -/

structure AccAvgColumn (width : ℕ) where
  sum : AccPrimColumn width
  count : AccCountColumn

namespace AccAvgColumn

variable {width : ℕ}

section Column

variable (col : AccAvgColumn width)

def spill (sel : IdxSelection) : Option Bytes := do
  let sum ← col.sum.spill sel
  let count ← col.count.spill sel
  pure (sum ++ count)

def unspill (numRows : ℕ) : ReadBytes (AccAvgColumn width) := do
  let sum ← col.sum.unspill numRows
  let count ← col.count.unspill numRows
  pure ⟨sum, count⟩

/-- `freeze_to_arrays`: one array of each. -/
def freezeToArrays (sel : IdxSelection) : Option (List AccArray) := do
  let sum ← col.sum.freezeToArrays sel
  let count ← col.count.freezeToArrays sel
  let sumArray ← sum[0]?
  let countArray ← count[0]?
  pure [sumArray, countArray]

end Column

def unfreezeFromArrays (arrays : List AccArray) : Option (AccAvgColumn width) := do
  let sum ← AccPrimColumn.unfreezeFromArrays (arrays.take 1)
  let count ← AccCountColumn.unfreezeFromArrays ((arrays.drop 1).take 1)
  pure ⟨sum, count⟩

end AccAvgColumn

/-! ### Bloom filters -/

structure AccBloomFilterColumn where
  bloomFilters : List (Option SparkBloomFilter)

namespace AccBloomFilterColumn

def spillFilter : Option SparkBloomFilter → Bytes
  | some f => 1 :: f.writeTo
  | none => [0]

def unspillFilter : ReadBytes (Option SparkBloomFilter) := do
  let tag ← BatchSerde.readU8
  if tag = 1 then do
    let f ← SparkBloomFilter.readFrom
    pure (some f)
  else pure none

variable (col : AccBloomFilterColumn)

def spill (sel : IdxSelection) : Option Bytes :=
  (sel.select col.bloomFilters).map fun filters => filters.flatMap spillFilter

/-- `unspill`: only into an empty column. -/
def unspill (numRows : ℕ) : ReadBytes AccBloomFilterColumn :=
  if col.bloomFilters = [] then do
    let filters ← unspillFilter.times numRows
    pure ⟨filters⟩
  else .fail .other

def freezeToArrays (sel : IdxSelection) : Option (List AccArray) :=
  (sel.select col.bloomFilters).bind fun filters =>
    (AccArray.fromBytes (filters.map fun f => f.map SparkBloomFilter.writeTo)).map ([·])

/-- A record of an array: a filter is read from its bytes, whatever is behind it. -/
def unfreezeFilter (value : Option Bytes) : Option (Option SparkBloomFilter) :=
  match value with
  | none => some none
  | some bytes =>
    match SparkBloomFilter.readFrom.run (Source.list .unexpectedEof) bytes with
    | .ok (f, _) => some (some f)
    | .error _ => none

/-- `unfreeze_from_arrays`: behind the records that are there. -/
def unfreezeFromArrays : List AccArray → Option AccBloomFilterColumn
  | .bytes offsets data nulls :: _ =>
    ((List.range (offsets.length - 1)).mapM fun i =>
      unfreezeFilter (if nullAt nulls i then none else some (slot offsets data i))).map fun filters =>
        ⟨col.bloomFilters ++ filters⟩
  | _ => none

end AccBloomFilterColumn

section Collections

variable {V : Type} (E : CollectEnv) (C : ScalarCodec V)

def binaryRows : List AccArray → Option (List Bytes)
  | .bytes offsets data _ :: _ => some ((List.range (offsets.length - 1)).map (slot offsets data))
  | _ => none

def runCursor {α : Type} (p : ReadBytes α) (bytes : Bytes) : Option α :=
  match p.run (Source.list .unexpectedEof) bytes with
  | .ok (a, _) => some a
  | .error _ => none

namespace AccListColumn

variable (col : AccListColumn)

def spill (sel : IdxSelection) : Option Bytes := (sel.toList.mapM col.saveRaw).map List.flatten

/-- `unspill`: only into an empty column. -/
def unspill (numRows : ℕ) : ReadBytes AccListColumn :=
  if col.list = [] then (List.range numRows).foldlM loadRaw (col.resize numRows) else .fail .other

/-- `freeze_to_arrays`, through rows. -/
def freezeToArrays (sel : IdxSelection) : Option (List AccArray) :=
  (sel.toList.mapM col.saveRaw).bind fun rows => (AccArray.fromBytes (rows.map some)).map ([·])

/-- `unfreeze_from_arrays`, through rows: only into an empty column. -/
def unfreezeFromArrays (arrays : List AccArray) : Option AccListColumn :=
  (binaryRows arrays).bind fun rows =>
    if col.list = [] then rows.zipIdx.foldlM (fun col row => runCursor (col.loadRaw row.2) row.1) (col.resize rows.length)
    else none

end AccListColumn

namespace AccSetColumn

variable (col : AccSetColumn)

def spill (sel : IdxSelection) : Option Bytes := (sel.toList.mapM col.saveRaw).map List.flatten

/-- `unspill`: only into an empty column. -/
def unspill (numRows : ℕ) : ReadBytes AccSetColumn :=
  if col.set = [] then (List.range numRows).foldlM (loadRaw E C) (col.resize E numRows) else .fail .other

/-- `freeze_to_arrays`, through rows. -/
def freezeToArrays (sel : IdxSelection) : Option (List AccArray) :=
  (sel.toList.mapM col.saveRaw).bind fun rows => (AccArray.fromBytes (rows.map some)).map ([·])

/-- `unfreeze_from_arrays`, through rows: only into an empty column. -/
def unfreezeFromArrays (arrays : List AccArray) : Option AccSetColumn :=
  (binaryRows arrays).bind fun rows =>
    if col.set = [] then
      rows.zipIdx.foldlM (fun col row => runCursor (col.loadRaw E C row.2) row.1) (col.resize E rows.length)
    else none

end AccSetColumn

end Collections

end Auron.Agg
