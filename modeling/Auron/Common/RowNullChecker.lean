import Auron.Arrow.RowFormat
import Auron.Lib.Fallible

/-!
# The null check on encoded keys (`common/row_null_checker.rs`)

`RowNullChecker` looks for the null of a key column in the encoded row: it reads the first byte of each column and finds
the next column behind it, for a byte string by walking over its blocks.  If some key column is nested it decodes the rows
instead.

`found_encodeColumn` is what it finds at the front of an encoded column, whatever follows; the loop over the columns is
`hasNullInternal_encode`.
-/

namespace Auron.Common

open Auron.Io (Bytes)
open Auron.Arrow
open Auron.Lib List

/-! ### The checker -/

inductive DataTypeInfo where
  | null
  | primitive
  | boolean
  | variable
  | fixedSizeBinary
  | struct
  | list
  | dictionary
  deriving DecidableEq, Repr

def DataTypeInfo.needsDecodedNulls : DataTypeInfo → Bool
  | struct | list | dictionary => true
  | _ => false

structure FieldConfig where
  dataType : DataTypeInfo
  sortOptions : SortOptions
  encodedLength : ℕ

/-- The length that is taken for a dictionary, by the type of its values. -/
def dictionaryLength : DataType → ℕ
  | .primitive .int8 | .primitive .uint8 => 2
  | .primitive .int16 | .primitive .uint16 => 3
  | .primitive .int32 | .primitive .uint32 => 5
  | .primitive .int64 | .primitive .uint64 => 9
  | _ => 5

/-- `create_field_config_from_data_type`; `none` is the panic on an unsupported type. -/
def createFieldConfig (dataType : DataType) (o : SortOptions) : Option FieldConfig :=
  match dataType with
  | .null => some ⟨.null, o, 0⟩
  | .boolean => some ⟨.boolean, o, 2⟩
  | .primitive t => some ⟨.primitive, o, 1 + t.width⟩
  | .bytes _ _ => some ⟨.variable, o, 0⟩
  | .fixedSizeBinary size => some ⟨.fixedSizeBinary, o, 1 + size⟩
  | .list _ _ => some ⟨.list, o, 0⟩
  | .struct _ => some ⟨.struct, o, 32⟩
  | .dictionary _ value => some ⟨.dictionary, o, dictionaryLength value⟩
  | _ => none

structure RowNullChecker where
  fieldConfigs : List FieldConfig
  needsDecodedNulls : Bool

def RowNullChecker.new (fields : List (DataType × SortOptions)) : Option RowNullChecker :=
  (fields.mapM fun field => createFieldConfig field.1 field.2).map fun configs =>
    ⟨configs, configs.any fun config => config.dataType.needsDecodedNulls⟩

def nullSentinel (o : SortOptions) : UInt8 :=
  match o.nullsFirst with
  | true => 0
  | false => 0xFF

/-- `check_field_null`; `none` if an index is out of bounds. -/
def checkFieldNull (data : Bytes) (config : FieldConfig) : Option Bool :=
  if data.isEmpty then some true
  else match config.dataType with
    | .null => some true
    | _ => data[0]?.map (· == nullSentinel config.sortOptions)

/-- The loop over the blocks of thirty-two bytes in `decode_variable_blocks_length`. -/
def fullBlocksLength (continuation : UInt8) (data : Bytes) (idx : ℕ) : Option ℕ :=
  if data.length ≤ idx + 32 then some data.length
  else data[idx + 32]?.bind fun sentinel =>
    if sentinel ≠ continuation then some (idx + 32 + 1) else fullBlocksLength continuation data (idx + 32 + 1)
termination_by data.length - idx

/-- The loop over the blocks of eight bytes, with the number of those that may follow. -/
def miniBlocksLength (continuation : UInt8) (data : Bytes) : ℕ → ℕ → Option ℕ
  | 0, idx => fullBlocksLength continuation data idx
  | n + 1, idx =>
    if data.length ≤ idx + 8 then some data.length
    else data[idx + 8]?.bind fun sentinel =>
      if sentinel ≠ continuation then some (idx + 8 + 1) else miniBlocksLength continuation data n (idx + 8 + 1)

def decodeVariableBlocksLength (data : Bytes) (o : SortOptions) : Option ℕ :=
  let nonEmptySentinel : UInt8 := if o.descending then ~~~2 else 2
  let continuation : UInt8 := if o.descending then ~~~0xFF else 0xFF
  data[0]?.bind fun first =>
    if first ≠ nonEmptySentinel then some 1 else miniBlocksLength continuation data 4 1

def calculateVariableLength (data : Bytes) (o : SortOptions) : Option ℕ :=
  if data.isEmpty then some 0
  else
    let emptySentinel : UInt8 := if o.descending then ~~~1 else 1
    data[0]?.bind fun first =>
      if first = nullSentinel o then some 1
      else if first = emptySentinel then some 1
      else decodeVariableBlocksLength data o

def calculateFieldLength (data : Bytes) (config : FieldConfig) : Option ℕ :=
  if data.isEmpty then some 0
  else match config.dataType with
    | .null => some 0
    | .primitive => some config.encodedLength
    | .boolean => some 2
    | .variable => calculateVariableLength data config.sortOptions
    | .fixedSizeBinary => some config.encodedLength
    | .struct => some config.encodedLength
    | .list => calculateVariableLength data config.sortOptions
    | .dictionary => some config.encodedLength

/-- `has_null_internal`, from an offset on. -/
def hasNullInternal (rowData : Bytes) : ℕ → List FieldConfig → Option Bool
  | _, [] => some false
  | offset, config :: configs =>
    if rowData.length ≤ offset then some true
    else (checkFieldNull (rowData.drop offset) config).bind fun hasNull =>
      if hasNull then some true
      else (calculateFieldLength (rowData.drop offset) config).bind fun len => hasNullInternal rowData (offset + len) configs

/-- `has_nulls`: the validity of the rows.  `none` if a byte is read outside its row, or if the rows are not decoded. -/
def RowNullChecker.hasNulls {ν : Type} {fields : List (DataType × SortOptions)} (checker : RowNullChecker)
    (rows : List Bytes) (converter : RowConverter ν fields) : Option (List Bool) :=
  if !checker.needsDecodedNulls then
    rows.mapM fun row => (hasNullInternal row 0 checker.fieldConfigs).map (!·)
  else (converter.convertRows rows).map fun columns =>
    (range rows.length).map fun i => columns.all fun nulls => validAt nulls i

/-! ### First bytes -/

section Sentinels

variable (o : SortOptions)

lemma nullSentinel_eq : nullSentinel o = o.nullByte := by
  cases h : o.nullsFirst <;> simp [nullSentinel, SortOptions.nullByte, h]

lemma byte_injective : Function.Injective o.byte := by
  intro a b h
  cases hd : o.descending with
  | false => simpa [SortOptions.byte, hd] using h
  | true => simpa [SortOptions.byte, hd] using h

lemma byte_one_ne_null : o.byte 1 ≠ nullSentinel o := by
  rcases o with ⟨_ | _, _ | _⟩ <;> decide

lemma byte_two_ne_null : o.byte 2 ≠ nullSentinel o := by
  rcases o with ⟨_ | _, _ | _⟩ <;> decide

lemma one_ne_null : 1 ≠ nullSentinel o := by
  rcases o with ⟨_ | _, _ | _⟩ <;> decide

lemma byte_ofNat_ne_continuation {n : ℕ} (h : n ≤ 32) : o.byte (UInt8.ofNat n) ≠ o.byte 0xFF := by
  intro heq
  have := congrArg UInt8.toNat (byte_injective o heq)
  rw [UInt8.toNat_ofNat'] at this
  have h255 : (0xFF : UInt8).toNat = 255 := rfl
  omega

end Sentinels

section Blocks

variable {c s : UInt8} {pre body rest : Bytes}

lemma getElem?_behind {size : ℕ} (hbody : body.length = size) :
    (pre ++ (body ++ s :: rest))[pre.length + size]? = some s := by
  rw [getElem?_append_right (Nat.le_add_right _ _), Nat.add_sub_cancel_left,
    getElem?_append_right (le_of_eq hbody), hbody, Nat.sub_self, getElem?_cons_zero]

lemma length_behind {size : ℕ} (hbody : body.length = size) :
    ¬ (pre ++ (body ++ s :: rest)).length ≤ pre.length + size := by
  simp only [length_append, length_cons]
  omega

lemma fullBlocksLength_block (hbody : body.length = 32) :
    fullBlocksLength c (pre ++ (body ++ s :: rest)) pre.length =
      if s ≠ c then some (pre.length + 32 + 1)
      else fullBlocksLength c (pre ++ (body ++ s :: rest)) (pre.length + 32 + 1) := by
  rw [fullBlocksLength, if_neg (length_behind hbody), getElem?_behind hbody, Option.bind_some]

lemma miniBlocksLength_block (n : ℕ) (hbody : body.length = 8) :
    miniBlocksLength c (pre ++ (body ++ s :: rest)) (n + 1) pre.length =
      if s ≠ c then some (pre.length + 8 + 1)
      else miniBlocksLength c (pre ++ (body ++ s :: rest)) n (pre.length + 8 + 1) := by
  rw [miniBlocksLength, if_neg (length_behind hbody), getElem?_behind hbody, Option.bind_some]

end Blocks

/-- A loop over blocks of a size, at most a number of them: a block with the mark of continuation is passed, any other
ends the loop. -/
structure Walks (c : UInt8) (size : ℕ) (loop : Bytes → ℕ → ℕ → Option ℕ) : Prop where
  stop : ∀ {pre body rest : Bytes} {s : UInt8} (n : ℕ), body.length = size → s ≠ c →
    loop (pre ++ (body ++ s :: rest)) (n + 1) pre.length = some (pre.length + size + 1)
  pass : ∀ {pre body rest : Bytes} (n : ℕ), body.length = size →
    loop (pre ++ (body ++ c :: rest)) (n + 1) pre.length = loop (pre ++ (body ++ c :: rest)) n (pre.length + size + 1)

lemma walks_full (c : UInt8) : Walks c 32 fun data _ idx => fullBlocksLength c data idx where
  stop _ hbody hs := by rw [fullBlocksLength_block hbody, if_pos hs]
  pass _ hbody := by rw [fullBlocksLength_block hbody, if_neg (not_not.2 rfl)]

lemma walks_mini (c : UInt8) : Walks c 8 (miniBlocksLength c) where
  stop n hbody hs := by rw [miniBlocksLength_block n hbody, if_pos hs]
  pass n hbody := by rw [miniBlocksLength_block n hbody, if_neg (not_not.2 rfl)]

section Walks

variable {o : SortOptions} {size : ℕ} {loop : Bytes → ℕ → ℕ → Option ℕ}

/-- **A walk passes the blocks with the mark of continuation**, and stands in front of what is behind them. -/
theorem Walks.continued (h : Walks (o.byte 0xFF) size loop) (last : Bytes → Bytes) (n : ℕ) :
    ∀ bs : Bytes, size * n ≤ bs.length → ∃ passed : Bytes,
      (continuedBlocks size last n bs).map o.byte = passed ++ (last (bs.drop (size * n))).map o.byte ∧
      ∀ pre rest k, loop (pre ++ (passed ++ rest)) (n + k) pre.length =
        loop (pre ++ (passed ++ rest)) k (pre ++ passed).length := by
  induction n with
  | zero =>
    intro bs _
    exact ⟨[], by simp [continuedBlocks], fun pre rest k => by simp⟩
  | succ n ih =>
    intro bs hlen
    have hbody : ((bs.take size).map o.byte).length = size := by
      rw [length_map, length_take]
      exact min_eq_left (le_trans (Nat.le_mul_of_pos_right size n.succ_pos) hlen)
    obtain ⟨passed, hpassed, hloop⟩ := ih (bs.drop size) (by rw [length_drop, Nat.mul_succ] at *; omega)
    refine ⟨(bs.take size).map o.byte ++ o.byte 0xFF :: passed, ?_, fun pre rest k => ?_⟩
    · rw [continuedBlocks, map_append, map_cons, hpassed, drop_drop, Nat.mul_succ, add_comm size,
        append_assoc, cons_append]
    · have hpre : pre.length + size + 1 = (pre ++ ((bs.take size).map o.byte ++ [o.byte 0xFF])).length := by
        simp only [length_append, length_singleton]
        omega
      have hrest := hloop (pre ++ ((bs.take size).map o.byte ++ [o.byte 0xFF])) rest k
      rw [add_right_comm, append_assoc, cons_append, h.pass _ hbody, hpre]
      simpa using hrest

/-- **A walk over an encoded byte string ends behind it.** -/
theorem Walks.encodeBlocks (h : Walks (o.byte 0xFF) size loop) (hsize : 0 < size) (hle : size ≤ 32) {bs : Bytes}
    (hbs : bs ≠ []) {m : ℕ} (hm : (bs.length - 1) / size < m) (pre rest : Bytes) :
    loop (pre ++ ((Arrow.encodeBlocks size bs).map o.byte ++ rest)) m pre.length =
      some (pre.length + (Arrow.encodeBlocks size bs).length) := by
  have hpos : 0 < bs.length := length_pos_of_ne_nil hbs
  have hdiv := Nat.div_add_mod (bs.length - 1) size
  have hmod := Nat.mod_lt (bs.length - 1) hsize
  obtain ⟨passed, hpassed, hloop⟩ := h.continued (lastBlock size) ((bs.length - 1) / size) bs (by omega)
  -- what is left for the last block
  obtain ⟨tail, htail⟩ : ∃ tail, tail = bs.drop (size * ((bs.length - 1) / size)) := ⟨_, rfl⟩
  have hlen : tail.length ≤ size := by
    rw [htail, length_drop]
    omega
  have hbody : ((tail ++ replicate (size - tail.length) 0).map o.byte).length = size := by
    rw [length_map, length_append, length_replicate]
    omega
  have hencoded : (Arrow.encodeBlocks size bs).map o.byte = passed ++
      ((tail ++ replicate (size - tail.length) 0).map o.byte ++ [o.byte (UInt8.ofNat tail.length)]) := by
    rw [Arrow.encodeBlocks, hpassed, ← htail, lastBlock, map_append, map_singleton]
  have hlength : (Arrow.encodeBlocks size bs).length = passed.length + (size + 1) := by
    rw [← length_map o.byte, hencoded, length_append, length_append, hbody, length_singleton]
  obtain ⟨k, rfl⟩ := Nat.exists_eq_add_of_lt hm
  rw [hencoded, hlength, add_assoc _ k 1, append_assoc, hloop, ← append_assoc, append_assoc _ _ rest,
    singleton_append, h.stop k hbody (byte_ofNat_ne_continuation o (hlen.trans hle)), length_append,
    add_assoc, add_assoc]

end Walks

/-! ### Columns -/

/-- **The walk over a byte string that is not empty** ends behind it. -/
theorem decodeVariableBlocksLength_encode (o : SortOptions) (b : UInt8) (bs rest : Bytes) :
    decodeVariableBlocksLength (encodeVariable o (some (b :: bs)) ++ rest) o =
      some (encodeVariable o (some (b :: bs))).length := by
  have hfirst : (encodeVariable o (some (b :: bs)) ++ rest)[0]? = some (o.byte 2) := rfl
  have htwo : o.byte 2 = if o.descending then ~~~2 else 2 := rfl
  have hmark : o.byte 0xFF = if o.descending then ~~~0xFF else 0xFF := rfl
  have hne : b :: bs ≠ [] := cons_ne_nil b bs
  rw [decodeVariableBlocksLength, hfirst, Option.bind_some, ← htwo, if_neg (not_not.2 rfl), encodeVariable]
  by_cases hlen : (b :: bs).length ≤ 32
  · rw [if_pos hlen]
    have := (walks_mini (o.byte 0xFF)).encodeBlocks (by decide) (by decide) hne (show _ < 4 by omega) [o.byte 2] rest
    rw [map_cons, length_cons, length_map, add_comm _ 1]
    exact this
  · rw [if_neg hlen]
    obtain ⟨passed, hpassed, hloop⟩ :=
      (walks_mini (o.byte 0xFF)).continued (Arrow.encodeBlocks 32) 4 (b :: bs) (by omega)
    have htail : (b :: bs).drop (8 * 4) ≠ [] := fun h => hlen (drop_eq_nil_iff.1 h)
    have hencoded : (2 :: continuedBlocks 8 (Arrow.encodeBlocks 32) 4 (b :: bs)).map o.byte =
        o.byte 2 :: passed ++ (Arrow.encodeBlocks 32 ((b :: bs).drop (8 * 4))).map o.byte := by
      rw [map_cons, hpassed, cons_append]
    -- the four blocks of eight bytes are passed, and the rest is cut into blocks of thirty-two
    have hmini := hloop [o.byte 2] ((Arrow.encodeBlocks 32 ((b :: bs).drop (8 * 4))).map o.byte ++ rest) 0
    have hfull := (walks_full (o.byte 0xFF)).encodeBlocks (by decide) (by decide) htail (Nat.lt_succ_self _)
      (o.byte 2 :: passed) rest
    rw [hencoded, append_assoc, length_append, length_map]
    exact hmini.trans hfull

section Columns

variable {ν : Type} {encodeNested : DataType → SortOptions → Option ν → Bytes} {dataType : DataType} {o : SortOptions}
  {config : FieldConfig} {width : ℕ}

lemma checkFieldNull_cons (hnull : config.dataType ≠ .null) (b : UInt8) (data : Bytes) :
    checkFieldNull (b :: data) config = some (b == nullSentinel config.sortOptions) := by
  rcases config with ⟨_ | _ | _ | _ | _ | _ | _ | _, _, _⟩
  case null => exact absurd rfl hnull
  all_goals rfl

/-- What the checker finds at the front of an encoded column: a null, or a value and its length. -/
structure Found (config : FieldConfig) (encoded : Bytes) (isNull : Bool) : Prop where
  check : ∀ rest, checkFieldNull (encoded ++ rest) config = some isNull
  nonempty : isNull = false → encoded ≠ []
  length : isNull = false → ∀ rest, calculateFieldLength (encoded ++ rest) config = some encoded.length

lemma Found.of_cons (hnull : config.dataType ≠ .null) {b : UInt8} {tail : Bytes} {isNull : Bool}
    (hb : (b == nullSentinel config.sortOptions) = isNull)
    (hlength : isNull = false → ∀ rest, calculateFieldLength (b :: tail ++ rest) config = some (tail.length + 1)) :
    Found config (b :: tail) isNull where
  check rest := by rw [cons_append, checkFieldNull_cons hnull, hb]
  nonempty _ := cons_ne_nil _ _
  length := hlength

lemma nullByte_beq (o : SortOptions) : (o.nullByte == nullSentinel o) = true := by rw [nullSentinel_eq, BEq.rfl]

/-- **A column of a fixed width.** -/
theorem found_fixed (hnull : config.dataType ≠ .null)
    (hlength : ∀ data, data ≠ [] → calculateFieldLength data config = some (1 + width)) {v : Option Bytes}
    (hv : ∀ bs ∈ v, bs.length = width) : Found config (encodeFixed config.sortOptions width v) v.isNone := by
  cases v with
  | none => exact .of_cons hnull (nullByte_beq _) nofun
  | some bs =>
    refine .of_cons hnull (beq_eq_false_iff_ne.2 (one_ne_null _)) fun _ rest => ?_
    rw [cons_append, hlength _ (cons_ne_nil _ _), length_map, hv bs rfl, add_comm]

/-- **A column of byte strings.** -/
theorem found_variable (o : SortOptions) (len : ℕ) (v : Option Bytes) :
    Found ⟨.variable, o, len⟩ (encodeVariable o v) v.isNone := by
  have hnull : (⟨.variable, o, len⟩ : FieldConfig).dataType ≠ .null := nofun
  match v with
  | none => exact .of_cons hnull (nullByte_beq o) nofun
  | some [] =>
    refine .of_cons hnull (beq_eq_false_iff_ne.2 (byte_one_ne_null o)) fun _ rest => ?_
    exact (if_neg (byte_one_ne_null o)).trans (if_pos rfl)
  | some (b :: bs) =>
    refine .of_cons hnull (beq_eq_false_iff_ne.2 (byte_two_ne_null o)) fun _ rest => ?_
    have hempty : o.byte 2 ≠ o.byte 1 := fun h => absurd (byte_injective o h) (by decide)
    have hstep : calculateVariableLength (encodeVariable o (some (b :: bs)) ++ rest) o =
        decodeVariableBlocksLength (encodeVariable o (some (b :: bs)) ++ rest) o :=
      (if_neg (byte_two_ne_null o)).trans (if_neg hempty)
    exact hstep.trans (decodeVariableBlocksLength_encode o b bs rest)

lemma found_null (o : SortOptions) (len : ℕ) : Found ⟨.null, o, len⟩ [] true where
  check rest := by cases rest <;> rfl
  nonempty := nofun
  length := nofun

/-- The width of the values of a type, if it is fixed. -/
def fixedWidth : DataType → Option ℕ
  | .boolean => some 1
  | .primitive t => some t.width
  | .fixedSizeBinary size => some size
  | _ => none

section Fixed

variable (hwidth : fixedWidth dataType = some width)

include hwidth

lemma exists_fixed_of_fits {x : KeyValue ν} (hx : x.Fits dataType) : ∃ bs, x = .fixed bs ∧ bs.length = width := by
  cases dataType <;> cases hwidth <;> cases x
  all_goals first
    | exact ⟨_, rfl, hx⟩
    | exact hx.elim

lemma createFieldConfig_fixed (hconfig : createFieldConfig dataType o = some config) :
    config.sortOptions = o ∧ config.dataType ≠ .null ∧
      ∀ data, data ≠ [] → calculateFieldLength data config = some (1 + width) := by
  cases dataType <;> cases hwidth <;> cases hconfig <;> refine ⟨rfl, nofun, fun data hdata => ?_⟩
  all_goals
    obtain ⟨b, _, rfl⟩ := exists_cons_of_ne_nil hdata
    rfl

lemma encodeColumn_fixed (v : Option (KeyValue ν)) :
    encodeColumn encodeNested (dataType, o) v = encodeFixed o width (v.bind KeyValue.fixed?) := by
  cases dataType <;> cases hwidth <;> rfl

end Fixed

/-- **Every column whose nulls are looked for in the encoded rows.** -/
theorem found_encodeColumn (hconfig : createFieldConfig dataType o = some config)
    (hflat : config.dataType.needsDecodedNulls = false) {v : Option (KeyValue ν)} (hv : ∀ x ∈ v, x.Fits dataType) :
    Found config (encodeColumn encodeNested (dataType, o) v) v.isNone := by
  have hfixed : ∀ width, fixedWidth dataType = some width →
      Found config (encodeColumn encodeNested (dataType, o) v) v.isNone := by
    intro _ hwidth
    obtain ⟨rfl, hnull, hlength⟩ := createFieldConfig_fixed hwidth hconfig
    rw [encodeColumn_fixed hwidth]
    cases v with
    | none => exact found_fixed hnull hlength nofun
    | some x =>
      obtain ⟨bs, rfl, hbs⟩ := exists_fixed_of_fits hwidth (hv x rfl)
      exact found_fixed (v := some bs) hnull hlength fun bs' hbs' => Option.some.inj hbs' ▸ hbs
  cases dataType with
  | boolean => exact hfixed _ rfl
  | primitive t => exact hfixed _ rfl
  | fixedSizeBinary size => exact hfixed _ rfl
  | null =>
    cases hconfig
    cases v with
    | none => exact found_null o 0
    | some x => exact (hv x rfl).elim
  | bytes isUtf8 isLarge =>
    cases hconfig
    match v, hv with
    | none, _ => exact found_variable o 0 none
    | some (.variable bs), _ => exact found_variable o 0 (some bs)
    | some (.fixed bs), hv => exact (hv _ rfl).elim
    | some (.nested x), hv => exact (hv _ rfl).elim
  | list => cases hconfig; cases hflat
  | struct => cases hconfig; cases hflat
  | dictionary => cases hconfig; cases hflat
  | fixedSizeList => cases hconfig
  | map => cases hconfig
  | other => cases hconfig

end Columns

section Rows

variable {ν : Type} {fields : List (DataType × SortOptions)} {row : List (Option (KeyValue ν))}

section Loop

variable (encodeNested : DataType → SortOptions → Option ν → Bytes)

/-- **The loop over the columns**, from any offset on: it finds a null if there is one, and does not leave the row. -/
theorem hasNullInternal_encode (hrow : RowFits fields row) :
    ∀ {configs : List FieldConfig}, (fields.mapM fun field => createFieldConfig field.1 field.2) = some configs →
      (∀ config ∈ configs, config.dataType.needsDecodedNulls = false) → ∀ pre : Bytes,
      hasNullInternal (pre ++ encodeRow encodeNested fields row) pre.length configs = some (row.any Option.isNone) := by
  induction hrow with
  | nil =>
    intro configs hconfigs _ pre
    cases hconfigs
    rfl
  | @cons field v fields row hv hrow ih =>
    intro configs hconfigs hflat pre
    rw [mapM_cons] at hconfigs
    obtain ⟨config, hconfig, hconfigs⟩ := Option.bind_eq_some_iff.1 hconfigs
    obtain ⟨_, hrest, hconfigs⟩ := Option.bind_eq_some_iff.1 hconfigs
    cases hconfigs
    have hfound : Found config (encodeColumn encodeNested field v) v.isNone :=
      found_encodeColumn hconfig (hflat config mem_cons_self) hv
    have hencoded : encodeRow encodeNested (field :: fields) (v :: row) =
        encodeColumn encodeNested field v ++ encodeRow encodeNested fields row := rfl
    rw [hencoded, hasNullInternal, drop_left, hfound.check, Option.bind_some, any_cons]
    cases hnull : v.isNone with
    | true =>
      rw [if_pos rfl, Bool.true_or, ite_self]
    | false =>
      have hpos := length_pos_of_ne_nil (hfound.nonempty hnull)
      have hin : ¬ (pre ++ (encodeColumn encodeNested field v ++ encodeRow encodeNested fields row)).length ≤
          pre.length := by
        simp only [length_append]
        omega
      rw [if_neg hin, hfound.length hnull, Option.bind_some,
        ← append_assoc, ← length_append]
      exact ih hrest (fun config hc => hflat config (mem_cons_of_mem _ hc)) _

/-- The types that `RowNullChecker` supports. -/
def supported : DataType → Bool
  | .fixedSizeList _ _ | .map _ _ | .other _ => false
  | _ => true

lemma createFieldConfig_isSome {dataType : DataType} (h : supported dataType = true) (o : SortOptions) :
    ∃ config, createFieldConfig dataType o = some config := by
  cases dataType
  all_goals first
    | exact ⟨_, rfl⟩
    | cases h

lemma mapM_hasNullInternal {configs : List FieldConfig}
    (hconfigs : (fields.mapM fun field => createFieldConfig field.1 field.2) = some configs)
    (hflat : ∀ config ∈ configs, config.dataType.needsDecodedNulls = false) {rows : List (List (Option (KeyValue ν)))}
    (hrows : ∀ row ∈ rows, RowFits fields row) :
    ((rows.map (encodeRow encodeNested fields)).mapM fun row => (hasNullInternal row 0 configs).map (!·)) =
      some (rows.map fun row => !row.any Option.isNone) := by
  rw [mapM_eq_some_iff, map_map, map_map]
  refine map_congr_left fun row hrow => ?_
  have hnull := hasNullInternal_encode encodeNested (hrows row hrow) hconfigs hflat []
  rw [nil_append, length_nil] at hnull
  rw [Function.comp_apply, Function.comp_apply, hnull, Option.map_some]

end Loop

lemma all_validAt_eq (hrow : RowFits fields row) {columns : List Nulls} {i : ℕ}
    (hlen : columns.length = fields.length)
    (hvalid : ∀ (j : ℕ) (v : Option (KeyValue ν)) (nulls : Nulls), row[j]? = some v → columns[j]? = some nulls →
      validAt nulls i = v.isSome) : (columns.all fun nulls => validAt nulls i) = !row.any Option.isNone := by
  have hmap : (columns.map fun nulls => validAt nulls i) = row.map Option.isSome := by
    refine ext_getElem ?_ fun j _ _ => ?_
    · rw [length_map, length_map, hlen, hrow.length_eq]
    · rw [getElem_map, getElem_map]
      exact hvalid j _ _ (getElem?_eq_getElem _) (getElem?_eq_getElem _)
  have hall := congrArg (all · id) hmap
  rw [all_map, all_map] at hall
  rw [not_any_eq_all_not]
  simpa [Function.comp_def] using hall

/-- **The null check of encoded rows**: those without nulls are valid. -/
theorem RowNullChecker.hasNulls_encode {checker : RowNullChecker} (hnew : new fields = some checker)
    (converter : RowConverter ν fields) {rows : List (List (Option (KeyValue ν)))}
    (hrows : ∀ row ∈ rows, RowFits fields row) :
    checker.hasNulls (rows.map (encodeRow converter.encodeNested fields)) converter =
      some (rows.map fun row => !row.any Option.isNone) := by
  obtain ⟨configs, hconfigs, rfl⟩ := Option.map_eq_some_iff.1 hnew
  cases hneeds : configs.any fun config => config.dataType.needsDecodedNulls with
  | false =>
    have hflat : ∀ config ∈ configs, config.dataType.needsDecodedNulls = false := by simpa using hneeds
    exact mapM_hasNullInternal converter.encodeNested hconfigs hflat hrows
  | true =>
    obtain ⟨_, hcolumns, hlen, hvalid⟩ := converter.convertRows_encode rows hrows
    rw [hasNulls, hcolumns,
      length_map]
    refine congrArg some (ext_getElem (by simp) fun i hi _ => ?_)
    rw [length_map, length_range] at hi
    rw [getElem_map, getElem_range, getElem_map]
    exact all_validAt_eq (hrows _ (getElem_mem hi)) hlen (hvalid i _ (getElem?_eq_getElem hi))

/-- **The null check is exact.**  For key columns of supported types with any sort options, the rows that `has_nulls` marks
as null are those with a null key column, and no byte is read outside a row. -/
theorem hasNulls_iff_null_column (hsupported : ∀ field ∈ fields, supported field.1 = true)
    (converter : RowConverter ν fields) {rows : List (List (Option (KeyValue ν)))}
    (hrows : ∀ row ∈ rows, RowFits fields row) :
    ∃ checker, RowNullChecker.new fields = some checker ∧
      checker.hasNulls (rows.map (encodeRow converter.encodeNested fields)) converter =
        some (rows.map fun row => !row.any Option.isNone) := by
  obtain ⟨configs, hconfigs⟩ := exists_mapM fun field hf => createFieldConfig_isSome (hsupported field hf) field.2
  have hnew : RowNullChecker.new fields =
      some ⟨configs, configs.any fun config => config.dataType.needsDecodedNulls⟩ := by
    rw [RowNullChecker.new, hconfigs, Option.map_some]
  exact ⟨_, hnew, RowNullChecker.hasNulls_encode hnew converter hrows⟩

end Rows

/-- A converter of one column, which is null if its first byte says so. -/
def singleColumn {ν : Type} (field : DataType × SortOptions) (encodeNested : DataType → SortOptions → Option ν → Bytes)
    (h : ∀ v : Option (KeyValue ν), (∀ x ∈ v, x.Fits field.1) →
      ((encodeColumn encodeNested field v).head? == some field.2.nullByte) = v.isNone) : RowConverter ν [field] where
  encodeNested := encodeNested
  convertRows rows := some [some (rows.map fun row => !(row.head? == some field.2.nullByte))]
  convertRows_encode rows hrows := by
    refine ⟨_, rfl, rfl, fun i row hrow j v nulls hv hnulls => ?_⟩
    obtain ⟨u, us, hfit, hus, rfl⟩ := forall₂_cons_left_iff.1 (hrows row (mem_of_getElem? hrow))
    cases hus
    cases j with
    | succ j => cases hv
    | zero =>
      cases hv
      cases hnulls
      have hencoded : encodeRow encodeNested [field] [v] = encodeColumn encodeNested field v := append_nil _
      simp [validAt, getElem?_map, hrow, hencoded, h v hfit]

/-- A column of strings in descending order, with a long string, a null and an empty string; and a column of lists with a
null. -/
theorem hasNulls_iff_null_column_single :
    (∃ (converter : RowConverter Unit [(.bytes true false, ⟨true, false⟩)]) (checker : RowNullChecker),
      RowNullChecker.new [(.bytes true false, ⟨true, false⟩)] = some checker ∧
      checker.hasNulls ([[some (.variable (replicate 70 97))], [none], [some (.variable [])]].map
        (encodeRow converter.encodeNested [(.bytes true false, ⟨true, false⟩)])) converter =
          some [true, false, true]) ∧
    ∃ (converter : RowConverter Unit [(.list false .boolean, ⟨false, true⟩)]) (checker : RowNullChecker),
      RowNullChecker.new [(.list false .boolean, ⟨false, true⟩)] = some checker ∧
      checker.hasNulls ([[some (.nested ())], [none]].map
        (encodeRow converter.encodeNested [(.list false .boolean, ⟨false, true⟩)])) converter = some [true, false] := by
  refine ⟨⟨singleColumn _ (fun _ _ _ => []) fun v hv => ?_, hasNulls_iff_null_column (by decide) _ ?_⟩,
    ⟨singleColumn _ (fun _ _ v => if v.isNone then [0] else [1]) fun v hv => ?_, hasNulls_iff_null_column (by decide) _ ?_⟩⟩
  · match v, hv with
    | none, _ => rfl
    | some (.variable []), _ => rfl
    | some (.variable (_ :: _)), _ => rfl
    | some (.fixed _), hv => exact (hv _ rfl).elim
    | some (.nested _), hv => exact (hv _ rfl).elim
  · simp [RowFits, KeyValue.Fits]
  · match v, hv with
    | none, _ => rfl
    | some (.nested ()), _ => rfl
    | some (.fixed _), hv => exact (hv _ rfl).elim
    | some (.variable _), hv => exact (hv _ rfl).elim
  · simp [RowFits, KeyValue.Fits]

end Auron.Common
