import Auron.Io.Arrow
import Auron.Lib.Reads
import Auron.Lib.Transpose

/-!
# Batch serialization (`io/batch_serde.rs`)

A batch is written as its number of rows and its columns, a column as what its type needs: a flag and the validity bits,
then the values; offsets are written as differences, and numbers of more than one byte with all their first bytes in
front, then all their second bytes, and so on (`TransposeOpt`).  The reader is given the types.  It builds each array with
`ArrayData::try_new`, which checks the children against the type of their parent.

`typeRoundTrips` is the round trip of one array, by induction on its type.  It needs a type without time zones: a timestamp
is read as one without a time zone, and inside of a list, a map or a struct the check then fails.  `noTimezone_of_readArray`
is the converse, and `batch_roundTrip_iff` puts the two together.
-/

namespace Auron.Io

open Auron.Lib

namespace BatchSerde

/-! ### Transposition -/

/-- `TransposeOpt`, with the size of its buffer. -/
inductive TransposeOpt where
  | disabled
  | transpose (size : ℕ)

mutual
def bytesWidth : DataType → ℕ
  | .null => 0
  | .boolean => 0
  | .primitive t => if t.width = 1 then 0 else t.width
  | .utf8 | .binary => 4
  | .list _ _ item => max (bytesWidth item) 4
  | .map _ _ entries _ => max (bytesWidth entries) 4
  | .struct fields => fieldsBytesWidth fields
  | .other _ => 0
def fieldsBytesWidth : Fields → ℕ
  | .nil => 0
  | .cons _ _ dataType fields => max (bytesWidth dataType) (fieldsBytesWidth fields)
end

def withTranspose (numRows : ℕ) (types : List DataType) : TransposeOpt :=
  .transpose (numRows * (types.map bytesWidth).foldr max 0)

/-! ### Writing -/

/-- `write_bits_buffer`: the bits moved to the front, one after the other. -/
def writeBitsBuffer (b : BitBuffer) : Bytes :=
  (setWhere b.get id (List.range b.len) (List.replicate ((b.len + 7) / 8) (0 : BitVec 8))).map UInt8.ofBitVec

def writeNulls : Option BitBuffer → Bytes
  | some b => writeLen 1 ++ writeBitsBuffer b
  | none => writeLen 0

/-- `num` values of a width as they are or transposed; the buffer has to hold them. -/
def writeRaw (opt : TransposeOpt) (width num : ℕ) (raw : Bytes) : Option Bytes :=
  match opt with
  | .disabled => some raw
  | .transpose size =>
    if 1 < width then if width * num ≤ size then some (transpose raw width num) else none else some raw

/-- The bytes of a number of four bytes, the lowest first. -/
def le32 (n : UInt32) : Bytes :=
  [UInt8.ofNat n.toNat, UInt8.ofNat (n.toNat / 256), UInt8.ofNat (n.toNat / 65536), UInt8.ofNat (n.toNat / 16777216)]

def offsetLens (offsets : List ℕ) : List UInt32 :=
  List.zipWith (fun beg fin => UInt32.ofNat (fin - beg)) offsets offsets.tail

def writeOffsets (opt : TransposeOpt) (offsets : List ℕ) : Option Bytes :=
  writeRaw opt 4 (offsetLens offsets).length ((offsetLens offsets).flatMap le32)

def offsetRange (offsets : List ℕ) : ℕ × ℕ :=
  (offsetAt offsets 0, offsetAt offsets (offsets.length - 1) - offsetAt offsets 0)

/-- `slice`, which panics behind the end. -/
def trySlice (a : ArrayRef) (range : ℕ × ℕ) : Option ArrayRef :=
  if range.1 + range.2 ≤ a.len then some (a.slice range.1 range.2) else none

def writeBytesArray (opt : TransposeOpt) (offsets : List ℕ) (data : Bytes) (nulls : Option BitBuffer) : Option Bytes := do
  let lens ← writeOffsets opt offsets
  let (first, len) := offsetRange offsets
  if first + len ≤ data.length then some (writeNulls nulls ++ lens ++ (data.drop first).take len) else none

mutual
/-- `write_array`, by the type of the array; an array of another type would panic. -/
def writeArray : DataType → TransposeOpt → ArrayRef → Option Bytes
  | .null, _, _ => some []
  | .boolean, _, .boolean values nulls => some (writeNulls nulls ++ writeBitsBuffer values)
  | .primitive _, opt, .primitive t values len nulls => do
    let raw ← writeRaw opt t.width len (values.take (t.width * len))
    some (writeNulls nulls ++ raw)
  | .utf8, opt, .bytes true offsets data nulls => writeBytesArray opt offsets data nulls
  | .binary, opt, .bytes false offsets data nulls => writeBytesArray opt offsets data nulls
  | .list _ _ item, opt, .list _ _ offsets values nulls => do
    let lens ← writeOffsets opt offsets
    let values ← trySlice values (offsetRange offsets)
    let child ← writeArray item (withTranspose (offsetRange offsets).2 [item]) values
    some (writeNulls nulls ++ lens ++ child)
  | .map name nullable (.struct (.cons kn kb keyType (.cons vn vb valueType fs))) isSorted, opt,
      .map _ _ _ offsets (.cons _ _ keys (.cons _ _ values _)) nulls => do
    let lens ← writeOffsets opt offsets
    let keys ← trySlice keys (offsetRange offsets)
    let values ← trySlice values (offsetRange offsets)
    let childOpt := withTranspose (offsetRange offsets).2
      [.map name nullable (.struct (.cons kn kb keyType (.cons vn vb valueType fs))) isSorted]
    let keyBytes ← writeArray keyType childOpt keys
    let valueBytes ← writeArray valueType childOpt values
    some (writeNulls nulls ++ lens ++ keyBytes ++ valueBytes)
  | .struct fields, opt, .struct _ columns nulls => do
    let children ← writeColumns fields opt columns
    some (writeNulls nulls ++ children)
  | _, _, _ => none
def writeColumns : Fields → TransposeOpt → Columns → Option Bytes
  | .nil, _, .nil => some []
  | .cons _ _ dataType fields, opt, .cons _ _ column columns => do
    let bytes ← writeArray dataType opt column
    let rest ← writeColumns fields opt columns
    some (bytes ++ rest)
  | _, _, _ => none
end

def writeArrays (opt : TransposeOpt) : List ArrayRef → Option Bytes
  | [] => some []
  | col :: cols => do
    let bytes ← writeArray col.dataType opt col
    let rest ← writeArrays opt cols
    some (bytes ++ rest)

def writeBatch (numRows : ℕ) (cols : List ArrayRef) : Option Bytes := do
  let bytes ← writeArrays (withTranspose numRows (cols.map ArrayRef.dataType)) cols
  some (writeLen numRows ++ bytes)

/-! ### Reading -/

abbrev ReadBytes := Reads UInt8 IoErr

def readU8 : ReadBytes UInt8 := do
  match ← Reads.exact 1 with
  | v :: _ => pure v
  | [] => .fail .other

/-- The loop of `read_len`, with a bound on the bytes it reads. -/
def readLenLoop : ℕ → ℕ → ℕ → ReadBytes ℕ
  | 0, _, _ => .fail .other
  | bytes + 1, len, factor => do
    let v ← readU8
    if v < 128 then pure (len + v.toNat * factor)
    else readLenLoop bytes (len + (v - 128).toNat * factor) (factor * 128)

/-- `read_len`.  Ten bytes are enough for every `usize`; behind them, where `write_len` never gets, the source goes on with
a factor that has overflown. -/
def readLen : ReadBytes ℕ := readLenLoop 10 0 1

def readBitsBuffer (bitsLen : ℕ) : ReadBytes Bytes := Reads.exact ((bitsLen + 7) / 8)

def readNulls (numRows : ℕ) : ReadBytes (Option BitBuffer) := do
  if (← readLen) = 1 then
    let buffer ← readBitsBuffer numRows
    pure (some ⟨buffer, 0, numRows⟩)
  else pure none

/-- `num` values of a width, transposed back; a buffer that does not hold them panics. -/
def readRaw (opt : TransposeOpt) (width num : ℕ) : ReadBytes Bytes :=
  match opt with
  | .disabled => Reads.exact (width * num)
  | .transpose size =>
    if 1 < width then
      if width * num ≤ size then do
        let bytes ← Reads.exact (width * num)
        pure (transpose bytes num width)
      else .fail .other
    else Reads.exact (width * num)

def le32s : Bytes → List UInt32
  | a :: b :: c :: d :: rest =>
    UInt32.ofNat (a.toNat + 256 * b.toNat + 65536 * c.toNat + 16777216 * d.toNat) :: le32s rest
  | _ => []

/-- The loop of `read_offsets`, in the arithmetic of `i32`. -/
def accumulate : UInt32 → List UInt32 → List UInt32
  | _, [] => []
  | curOffset, offset :: offsets => (curOffset + offset - offset) :: accumulate (curOffset + offset) offsets

def readOffsets (opt : TransposeOpt) (numRows : ℕ) : ReadBytes (List UInt32) := do
  let raw ← readRaw opt 4 numRows
  pure (accumulate 0 (le32s raw ++ [0]))

/-- The last offset as a length; a negative one asks for more memory than there is. -/
def lastOffset (offsets : List UInt32) : ReadBytes ℕ :=
  if (offsets.getLastD 0).toNat < 2 ^ 31 then pure (offsets.getLastD 0).toNat else .fail .other

/-- The check of offsets in `ArrayData::try_new`: they are not negative, do not fall and stay within the child. -/
def offsetsValid (offsets : List UInt32) (childLen : ℕ) : Bool :=
  (offsets.all fun o => o.toNat < 2 ^ 31 ∧ o.toNat ≤ childLen) && decide (offsets.Pairwise (·.toNat ≤ ·.toNat))

/-- The check of nulls in `ArrayData::try_new`: a child that is not nullable has nulls only where its parent has. -/
def nonNullable (mask : ℕ → Bool) (child : ArrayRef) : Bool :=
  (List.range child.len).all fun i => !child.isNull i || mask i

def columnsNonNullable (mask : ℕ → Bool) : Columns → Bool
  | .nil => true
  | .cons _ nullable column columns => (nullable || nonNullable mask column) && columnsNonNullable mask columns

/-- The children of a struct have the types of its fields, and nulls only where they may. -/
def structValid (fields : Fields) (columns : Columns) (nulls : Option BitBuffer) : Bool :=
  decide (columns.fields = fields) && columnsNonNullable (nullAt nulls) columns

def tryNew (ok : Bool) (a : ArrayRef) : ReadBytes ArrayRef := if ok then pure a else .fail .other

def readBooleanArray (numRows : ℕ) : ReadBytes ArrayRef := do
  let nulls ← readNulls numRows
  let data ← readBitsBuffer numRows
  pure (.boolean ⟨data, 0, numRows⟩ nulls)

/-- `read_primitive_array`, an array of the constant type. -/
def readPrimitiveArray (t : PrimitiveType) (opt : TransposeOpt) (numRows : ℕ) : ReadBytes ArrayRef := do
  let nulls ← readNulls numRows
  let values ← readRaw opt t.width numRows
  pure (.primitive t.dataTypeConst values numRows nulls)

/-- The arms of `read_array` for primitive types: only a decimal is given its own type. -/
def readPrimitive (t : PrimitiveType) (opt : TransposeOpt) (numRows : ℕ) : ReadBytes ArrayRef := do
  let array ← readPrimitiveArray t opt numRows
  match t, array with
  | .decimal128 precision scale, .primitive _ values len nulls =>
    tryNew (PrimitiveType.decimal128 precision scale).isValid (.primitive (.decimal128 precision scale) values len nulls)
  | _, array => pure array

/-- `MapArray` has entries of two columns. -/
def isPair : Columns → Bool
  | .cons _ _ _ (.cons _ _ _ .nil) => true
  | _ => false

section Read

variable (validUtf8 : Bytes → Bool)

def readBytesArray (isUtf8 : Bool) (opt : TransposeOpt) (numRows : ℕ) : ReadBytes ArrayRef := do
  let nulls ← readNulls numRows
  let offsets ← readOffsets opt numRows
  let valuesLen ← lastOffset offsets
  let data ← Reads.exact valuesLen
  tryNew (offsetsValid offsets data.length &&
      (!isUtf8 || (List.range numRows).all fun i => validUtf8 (slot (offsets.map UInt32.toNat) data i)))
    (.bytes isUtf8 (offsets.map UInt32.toNat) data nulls)

mutual
def readArray : DataType → TransposeOpt → ℕ → ReadBytes ArrayRef
  | .null, _, numRows => pure (.null numRows)
  | .boolean, _, numRows => readBooleanArray numRows
  | .primitive t, opt, numRows => readPrimitive t opt numRows
  | .utf8, opt, numRows => readBytesArray validUtf8 true opt numRows
  | .binary, opt, numRows => readBytesArray validUtf8 false opt numRows
  | .list name nullable item, opt, numRows => do
    let nulls ← readNulls numRows
    let offsets ← readOffsets opt numRows
    let valuesLen ← lastOffset offsets
    let values ← readArray item (withTranspose valuesLen [item]) valuesLen
    tryNew (offsetsValid offsets values.len && decide (values.dataType = item) &&
        (nullable || nonNullable (fun _ => false) values))
      (.list name nullable (offsets.map UInt32.toNat) values nulls)
  | .map name nullable (.struct kvFields) isSorted, opt, numRows => do
    let nulls ← readNulls numRows
    let offsets ← readOffsets opt numRows
    let entriesLen ← lastOffset offsets
    let keyValues ← readColumns kvFields (withTranspose entriesLen [.struct kvFields]) entriesLen
    tryNew (structValid kvFields keyValues none && offsetsValid offsets entriesLen && isPair keyValues)
      (.map name nullable isSorted (offsets.map UInt32.toNat) keyValues nulls)
  | .struct fields, opt, numRows => do
    let nulls ← readNulls numRows
    let childArrays ← readColumns fields opt numRows
    tryNew (structValid fields childArrays nulls) (.struct numRows childArrays nulls)
  | _, _, _ => .fail .other
def readColumns : Fields → TransposeOpt → ℕ → ReadBytes Columns
  | .nil, _, _ => pure .nil
  | .cons name nullable dataType fields, opt, numRows => do
    let column ← readArray dataType opt numRows
    let columns ← readColumns fields opt numRows
    pure (.cons name nullable column columns)
end

def readArrays (opt : TransposeOpt) (numRows : ℕ) : List DataType → ReadBytes (List ArrayRef)
  | [] => pure []
  | dataType :: types => do
    let col ← readArray validUtf8 dataType opt numRows
    let cols ← readArrays opt numRows types
    pure (col :: cols)

/-- `read_batch`, from any source: the end of the input before or within the number of rows is the end of the
batches. -/
def readBatch {σ : Type} (S : Source UInt8 IoErr σ) (schema : List DataType) (input : σ) :
    Except IoErr (Option (ℕ × List ArrayRef × σ)) :=
  match readLen.run S input with
  | .error .unexpectedEof => .ok none
  | .error e => .error e
  | .ok (numRows, input) =>
    match (readArrays validUtf8 (withTranspose numRows schema) numRows schema).run S input with
    | .error e => .error e
    | .ok (cols, input) => .ok (some (numRows, cols, input))

end Read

end BatchSerde

end Auron.Io
