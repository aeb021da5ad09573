import Auron.Arrow.Array

/-!
# The row format

How a row converter encodes the key columns of a row: one after the other, each so that its first byte tells a null from a
value.  A value of a fixed width follows a byte `1`.  A byte string that is not empty follows a byte `2`, cut into blocks
with one more byte behind each: the mark of continuation, or the length of the last block.  The first four blocks are of
eight bytes, the others of thirty-two.  A descending column inverts the bytes of its values.

The encoding of nested columns is not fixed here; a `RowConverter` has it, and decodes it.
-/

namespace Auron.Arrow

open Auron.Io (Bytes)

structure SortOptions where
  descending : Bool
  nullsFirst : Bool
  deriving DecidableEq, Repr

section Options

variable (o : SortOptions)

def SortOptions.nullByte : UInt8 := if o.nullsFirst then 0 else 0xFF

def SortOptions.byte (b : UInt8) : UInt8 := if o.descending then ~~~b else b

/-! ### Values -/

def encodeFixed (width : ℕ) : Option Bytes → Bytes
  | none => o.nullByte :: List.replicate width 0
  | some bs => 1 :: bs.map o.byte

/-- Blocks with the mark of continuation, and what is made of the bytes behind them. -/
def continuedBlocks (size : ℕ) (last : Bytes → Bytes) : ℕ → Bytes → Bytes
  | 0, bs => last bs
  | n + 1, bs => bs.take size ++ 0xFF :: continuedBlocks size last n (bs.drop size)

def lastBlock (size : ℕ) (bs : Bytes) : Bytes := bs ++ List.replicate (size - bs.length) 0 ++ [UInt8.ofNat bs.length]

def encodeBlocks (size : ℕ) (bs : Bytes) : Bytes := continuedBlocks size (lastBlock size) ((bs.length - 1) / size) bs

def encodeVariable : Option Bytes → Bytes
  | none => [o.nullByte]
  | some [] => [o.byte 1]
  | some (b :: bs) =>
    (2 :: if (b :: bs).length ≤ 32 then encodeBlocks 8 (b :: bs)
      else continuedBlocks 8 (encodeBlocks 32) 4 (b :: bs)).map o.byte

end Options

/-! ### Rows -/

/-- A value of a key column: its bytes in the order of the format, or a value of a nested type. -/
inductive KeyValue (ν : Type) where
  | fixed (bytes : Bytes)
  | variable (bytes : Bytes)
  | nested (v : ν)

/-- The value is of the type.  No value is of the null type. -/
def KeyValue.Fits {ν : Type} : DataType → KeyValue ν → Prop
  | .boolean, .fixed bs => bs.length = 1
  | .primitive t, .fixed bs => bs.length = t.width
  | .fixedSizeBinary size, .fixed bs => bs.length = size
  | .bytes _ _, .variable _ => True
  | .list _ _, .nested _ => True
  | .struct _, .nested _ => True
  | .dictionary _ _, .nested _ => True
  | _, _ => False

/-- The nullable values of a row, one for each column, are of the types of the columns. -/
def RowFits {ν : Type} (fields : List (DataType × SortOptions)) (row : List (Option (KeyValue ν))) : Prop :=
  List.Forall₂ (fun field v => ∀ x ∈ v, x.Fits field.1) fields row

def KeyValue.fixed? {ν : Type} : KeyValue ν → Option Bytes
  | .fixed bs => some bs
  | _ => none

def KeyValue.variable? {ν : Type} : KeyValue ν → Option Bytes
  | .variable bs => some bs
  | _ => none

def KeyValue.nested? {ν : Type} : KeyValue ν → Option ν
  | .nested v => some v
  | _ => none

section Encode

variable {ν : Type} (encodeNested : DataType → SortOptions → Option ν → Bytes)

def encodeColumn (field : DataType × SortOptions) (v : Option (KeyValue ν)) : Bytes :=
  match field.1 with
  | .null => []
  | .boolean => encodeFixed field.2 1 (v.bind KeyValue.fixed?)
  | .primitive t => encodeFixed field.2 t.width (v.bind KeyValue.fixed?)
  | .fixedSizeBinary size => encodeFixed field.2 size (v.bind KeyValue.fixed?)
  | .bytes _ _ => encodeVariable field.2 (v.bind KeyValue.variable?)
  | dataType => encodeNested dataType field.2 (v.bind KeyValue.nested?)

def encodeRow (fields : List (DataType × SortOptions)) (row : List (Option (KeyValue ν))) : Bytes :=
  (List.zipWith (encodeColumn encodeNested) fields row).flatten

end Encode

/-- `RowConverter` for some columns: the encoding of nested columns, and the logical nulls of the columns that
`convert_rows` decodes. -/
structure RowConverter (ν : Type) (fields : List (DataType × SortOptions)) where
  encodeNested : DataType → SortOptions → Option ν → Bytes
  convertRows : List Bytes → Option (List Nulls)
  /-- The decoded columns are null where the encoded ones were. -/
  convertRows_encode : ∀ rows : List (List (Option (KeyValue ν))), (∀ row ∈ rows, RowFits fields row) →
    ∃ columns, convertRows (rows.map (encodeRow encodeNested fields)) = some columns ∧
      columns.length = fields.length ∧ ∀ (i : ℕ) (row : List (Option (KeyValue ν))), rows[i]? = some row →
        ∀ (j : ℕ) (v : Option (KeyValue ν)) (nulls : Nulls), row[j]? = some v → columns[j]? = some nulls →
          validAt nulls i = v.isSome

end Auron.Arrow
