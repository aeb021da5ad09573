import Auron.Io.Arrow

/-!
# Types of columns

The types that key columns and hashed columns may have: more than those `io/batch_serde.rs` writes and reads, and without
the names of their fields.
-/

namespace Auron.Arrow

open Auron.Io (TimeUnit)

/-- The types for which `is_primitive` holds. -/
inductive PrimitiveType where
  | int8
  | int16
  | int32
  | int64
  | uint8
  | uint16
  | uint32
  | uint64
  | float16
  | float32
  | float64
  | date32
  | date64
  | time32 (unit : TimeUnit)
  | time64 (unit : TimeUnit)
  | timestamp (unit : TimeUnit) (timezone : Option String)
  | duration (unit : TimeUnit)
  | intervalYearMonth
  | intervalDayTime
  | intervalMonthDayNano
  | decimal128 (precision : ℕ) (scale : ℤ)
  | decimal256 (precision : ℕ) (scale : ℤ)
  deriving DecidableEq, Repr

def PrimitiveType.width : PrimitiveType → ℕ
  | int8 | uint8 => 1
  | int16 | uint16 | float16 => 2
  | int32 | uint32 | float32 | date32 | time32 _ | intervalYearMonth => 4
  | int64 | uint64 | float64 | date64 | time64 _ | timestamp _ _ | duration _ | intervalDayTime => 8
  | intervalMonthDayNano | decimal128 _ _ => 16
  | decimal256 _ _ => 32

mutual
/-- `DataType`; `other` are the types that no modelled function takes. -/
inductive DataType where
  | null
  | boolean
  | primitive (t : PrimitiveType)
  /-- `Utf8`, `LargeUtf8`, `Binary` and `LargeBinary`. -/
  | bytes (isUtf8 isLarge : Bool)
  | fixedSizeBinary (size : ℕ)
  /-- `List` and `LargeList`. -/
  | list (isLarge : Bool) (item : DataType)
  | fixedSizeList (item : DataType) (size : ℕ)
  | struct (fields : Fields)
  | map (keys values : DataType)
  | dictionary (index : PrimitiveType) (value : DataType)
  | other (name : String)
  deriving DecidableEq, Repr
inductive Fields where
  | nil
  | cons (dataType : DataType) (fields : Fields)
  deriving DecidableEq, Repr
end

end Auron.Arrow
