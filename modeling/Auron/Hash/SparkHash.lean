import Auron.Arrow.Array
import Auron.Lib.Fallible

/-!
# Hashes of columns (`spark_hash.rs`)

`hashArray` updates the hashes of all rows of a column, `hashOne` that of one row; each has its own list of types.  A
column of a nested type is hashed row by row, and a dictionary by the value of each row.

`Value.hash` is what both are for: a hash that depends on the logical value only.  `hashOne_eq` and `hashArray_eq` are
their agreement with it, on the types that they cover; on the others `sample` has an array on which they panic.
-/

namespace Auron.Hash

open Auron.Io (Bytes TimeUnit span)
open Auron.Arrow
open Auron.Lib List
open Option (bind_none bind_some)
open Bool (and_eq_true_iff)

/-! ### Bytes of scalars -/

inductive NativeType where
  | i32
  | i64
  | f32
  | f64
  | i128

def NativeType.size : NativeType → ℕ
  | i32 | f32 => 4
  | i64 | f64 => 8
  | i128 => 16

def toLeBytes (size bits : ℕ) : Bytes := (range size).map fun k => UInt8.ofNat (bits / 256 ^ k)

def signExtend (size size' bits : ℕ) : ℕ :=
  if bits < 2 ^ (8 * size - 1) then bits else bits + (2 ^ (8 * size') - 2 ^ (8 * size))

/-- `(value as $ty).to_le_bytes()`.  A type that is cast to a larger one is a signed integer. -/
def castBytes (t : PrimitiveType) (ty : NativeType) (bits : ℕ) : Bytes := toLeBytes ty.size (signExtend t.width ty.size bits)

/-- `(if value { 1u32 } else { 0u32 }).to_le_bytes()`. -/
def boolBytes (b : Bool) : Bytes := toLeBytes 4 (if b then 1 else 0)

/-- The types of scalars in the match of `hash_array`, with the types they are cast to. -/
def arrayArm : PrimitiveType → Option NativeType
  | .int8 => some .i32
  | .int16 => some .i32
  | .int32 => some .i32
  | .int64 => some .i64
  | .float32 => some .f32
  | .float64 => some .f64
  | .timestamp .second _ => some .i64
  | .timestamp .millisecond _ => some .i64
  | .timestamp .microsecond _ => some .i64
  | .timestamp .nanosecond _ => some .i64
  | .date32 => some .i32
  | .date64 => some .i64
  | .decimal128 _ _ => some .i128
  | _ => none

/-- The types of scalars in the match of `hash_one`. -/
def oneArm : PrimitiveType → Option NativeType
  | .int8 => some .i32
  | .int16 => some .i32
  | .int32 => some .i32
  | .int64 => some .i64
  | .float32 => some .f32
  | .float64 => some .f64
  | .timestamp .second none => some .i64
  | .timestamp .millisecond none => some .i64
  | .timestamp .microsecond none => some .i64
  | .timestamp .nanosecond _ => some .i64
  | .date32 => some .i32
  | .date64 => some .i64
  | .decimal128 _ _ => some .i128
  | _ => none

section Hash

variable {T : Type} (h : Bytes → T → T)

def whenValid (nulls : Nulls) (idx : ℕ) (hash : T) (next : Option T) : Option T :=
  (isValid nulls idx).bind fun valid => if valid then next else some hash

mutual
/-- `hash_one`; `none` is the panic on an unsupported type, or on a row that is out of bounds. -/
def hashOne : ArrayRef → ℕ → T → Option T
  | .null _, _, hash => some hash
  | .boolean values nulls, idx, hash => whenValid nulls idx hash (values[idx]?.map fun b => h (boolBytes b) hash)
  | .primitive t values nulls, idx, hash =>
    whenValid nulls idx hash ((oneArm t).bind fun ty => values[idx]?.map fun x => h (castBytes t ty x) hash)
  | .bytes _ _ values nulls, idx, hash => whenValid nulls idx hash (values[idx]?.map fun bs => h bs hash)
  | .list false offsets values nulls, idx, hash =>
    whenValid nulls idx hash
      ((slotSpan offsets idx).bind fun js => js.foldlM (fun hash j => hashOne values j hash) hash)
  | .map offsets keys values nulls, idx, hash =>
    whenValid nulls idx hash ((slotSpan offsets idx).bind fun js =>
      js.foldlM (fun hash j => (hashOne keys j hash).bind fun hash => hashOne values j hash) hash)
  | .struct _ columns nulls, idx, hash => whenValid nulls idx hash (hashColumns columns idx hash)
  | .list true _ _ nulls, idx, hash => whenValid nulls idx hash none
  | .fixedSizeBinary _ _ nulls, idx, hash => whenValid nulls idx hash none
  | .fixedSizeList _ _ _ nulls, idx, hash => whenValid nulls idx hash none
  | .dictionary _ _ _ nulls, idx, hash => whenValid nulls idx hash none
/-- The loop of `hash_one` over the columns of a struct. -/
def hashColumns : Columns → ℕ → T → Option T
  | .nil, _, hash => some hash
  | .cons column columns, idx, hash => (hashOne column idx hash).bind fun hash => hashColumns columns idx hash
end

/-- The loops of `hash_array` over the slots of an array, without null checks if there is no null. -/
def hashSlots (nulls : Nulls) (slots : List Bytes) (hashes : List T) : List T :=
  if nullCount nulls = 0 then zipWith (fun hash bs => h bs hash) hashes slots
  else (zip hashes slots).mapIdx fun i x => if validAt nulls i then h x.2 x.1 else x.1

def createHashesDictionary (keys : List ℕ) (values : ArrayRef) (nulls : Nulls) (hashes : List T) : Option (List T) :=
  (zip hashes keys).zipIdx.mapM fun x => if validAt nulls x.2 then hashOne h values x.1.2 x.1.1 else some x.1.1

/-- The loop of `hash_array` over the rows of an array of another type. -/
def hashRows (a : ArrayRef) (hashes : List T) : Option (List T) := hashes.zipIdx.mapM fun x => hashOne h a x.2 x.1

/-- The types of the keys of a dictionary in the match of `hash_array`. -/
def indexArm : PrimitiveType → Bool
  | .int8 | .int16 | .int32 | .int64 => true
  | _ => false

/-- `hash_array`; `none` is a panic. -/
def hashArray (a : ArrayRef) (hashes : List T) : Option (List T) :=
  if a.len ≠ hashes.length then none
  else match a with
    | .null _ => some hashes
    | .boolean values nulls => some (hashSlots h nulls (values.map boolBytes) hashes)
    | .primitive t values nulls =>
      match arrayArm t with
      | some ty => some (hashSlots h nulls (values.map (castBytes t ty)) hashes)
      | none => hashRows h (.primitive t values nulls) hashes
    | .bytes _ _ values nulls => some (hashSlots h nulls values hashes)
    | .dictionary index keys values nulls =>
      if indexArm index then createHashesDictionary h keys values nulls hashes else none
    | a => hashRows h a hashes

def createHashes (len : ℕ) (arrays : List ArrayRef) (seed : T) : Option (List T) :=
  arrays.foldlM (fun hashes a => hashArray h a hashes) (replicate len seed)

/-! ### The hash of a value -/

mutual
/-- The hash of a logical value: a null leaves it as it is, a value that has others is hashed through them. -/
def hashValue : Value → T → T
  | .null, hash => hash
  | .bool b, hash => h (boolBytes b) hash
  | .native t x, hash => h ((arrayArm t).elim [] fun ty => castBytes t ty x) hash
  | .bytes bs, hash => h bs hash
  | .list vs, hash => hashValues vs hash
  | .struct vs, hash => hashValues vs hash
def hashValues : List Value → T → T
  | [], hash => hash
  | v :: vs, hash => hashValues vs (hashValue v hash)
end

lemma hashValues_eq (vs : List Value) (hash : T) :
    hashValues h vs hash = vs.foldl (fun hash v => hashValue h v hash) hash := by
  induction vs generalizing hash with
  | nil => rfl
  | cons v vs ih => exact ih _

end Hash

/-! ### Types -/

mutual
/-- The types that `hash_array` takes, nested in each other at will. -/
def accepted : DataType → Bool
  | .null | .boolean | .bytes _ _ => true
  | .primitive t => (arrayArm t).isSome
  | .list isLarge item => !isLarge && accepted item
  | .map keys values => accepted keys && accepted values
  | .struct fields => acceptedFields fields
  | .dictionary index value => indexArm index && accepted value
  | _ => false
def acceptedFields : Fields → Bool
  | .nil => true
  | .cons dataType fields => accepted dataType && acceptedFields fields
end

mutual
/-- The types that `hash_one` takes: no dictionary, and no timestamp with a time zone but in nanoseconds. -/
def coveredByOne : DataType → Bool
  | .null | .boolean | .bytes _ _ => true
  | .primitive t => (oneArm t).isSome
  | .list isLarge item => !isLarge && coveredByOne item
  | .map keys values => coveredByOne keys && coveredByOne values
  | .struct fields => coveredFields fields
  | _ => false
def coveredFields : Fields → Bool
  | .nil => true
  | .cons dataType fields => coveredByOne dataType && coveredFields fields
end

/-- The types that `hash_array` takes as they are: `hash_one` takes what they are nested of. -/
def coveredByArray : DataType → Bool
  | .primitive t => (arrayArm t).isSome
  | .dictionary index value => indexArm index && coveredByOne value
  | dataType => coveredByOne dataType

lemma arrayArm_of_oneArm {t : PrimitiveType} {ty : NativeType} (hty : oneArm t = some ty) : arrayArm t = some ty := by
  unfold oneArm at hty
  split at hty
  all_goals first
    | exact hty
    | cases hty

section Agreement

variable {T : Type} {h : Bytes → T → T}

lemma whenValid_unlessNull {nulls : Nulls} {n i : ℕ} (hnulls : NullsHold nulls n) (hi : i < n) {v : Value} {hash : T}
    {next : Option T} (hnext : validAt nulls i = true → next = some (hashValue h v hash)) :
    whenValid nulls i hash next = some (hashValue h (unlessNull nulls i v) hash) := by
  rw [whenValid, isValid_eq hnulls hi, unlessNull]
  cases hvalid : validAt nulls i with
  | true => exact hnext hvalid
  | false => rfl

mutual
/-- **`hash_one` hashes the value of a row**, if it takes the type. -/
theorem hashOne_eq : ∀ (a : ArrayRef) (i : ℕ) (hash : T), a.Valid → coveredByOne a.dataType = true → i < a.len →
    hashOne h a i hash = some (hashValue h (a.value i) hash)
  | .null _, _, _, _, _, _ => rfl
  | .boolean values nulls, i, hash, hv, _, hi =>
    whenValid_unlessNull hv hi fun _ => by
      rw [getElem?_eq_getElem hi, getD_eq_getElem _ _ hi]
      rfl
  | .primitive t values nulls, i, hash, hv, hc, hi =>
    whenValid_unlessNull hv.1 hi fun _ => by
      obtain ⟨_, hty⟩ := Option.isSome_iff_exists.1 hc
      rw [hty, getElem?_eq_getElem hi, getD_eq_getElem _ _ hi, hashValue, arrayArm_of_oneArm hty]
      rfl
  | .bytes _ _ values nulls, i, hash, hv, _, hi =>
    whenValid_unlessNull hv hi fun _ => by
      rw [getElem?_eq_getElem hi, getD_eq_getElem _ _ hi]
      rfl
  | .list false offsets values nulls, i, hash, hv, hc, hi =>
    whenValid_unlessNull hv.1 hi fun _ => by
      have hstep : ∀ j ∈ span offsets i, ∀ hash, hashOne h values j hash = some (hashValue h (values.value j) hash) :=
        fun j hj hash => hashOne_eq values j hash hv.2.2 hc (hv.2.1.lt_of_mem_span hi hj)
      rw [slotSpan_eq hi, bind_some, foldlM_eq_some_foldl hstep, hashValue, hashValues_eq, foldl_map]
  | .map offsets keys values nulls, i, hash, hv, hc, hi =>
    whenValid_unlessNull hv.1 hi fun _ => by
      obtain ⟨-, hoffsets, hlen, hkeys, hvalues⟩ := hv
      obtain ⟨hck, hcv⟩ := and_eq_true_iff.1 hc
      have hstep : ∀ j ∈ span offsets i, ∀ hash, ((hashOne h keys j hash).bind fun hash => hashOne h values j hash) =
          some (hashValue h (.struct [keys.value j, values.value j]) hash) := by
        intro j hj hash
        have hlt := hoffsets.lt_of_mem_span hi hj
        rw [hashOne_eq keys j hash hkeys hck hlt, bind_some, hashOne_eq values j _ hvalues hcv (hlen.symm ▸ hlt)]
        rfl
      rw [slotSpan_eq hi, bind_some, foldlM_eq_some_foldl hstep, hashValue, hashValues_eq, foldl_map]
  | .struct len columns nulls, i, hash, hv, hc, hi =>
    whenValid_unlessNull hv.1 hi fun _ => hashColumns_eq columns i hash hv.2 hc hi
  | .list true _ _ _, _, _, _, hc, _ => by cases hc
  | .fixedSizeBinary _ _ _, _, _, _, hc, _ => by cases hc
  | .fixedSizeList _ _ _ _, _, _, _, hc, _ => by cases hc
  | .dictionary _ _ _ _, _, _, _, hc, _ => by cases hc
theorem hashColumns_eq : ∀ (columns : Columns) (i : ℕ) (hash : T) {len : ℕ}, columns.Valid len →
    coveredFields columns.fields = true → i < len →
    hashColumns h columns i hash = some (hashValues h (columns.values i) hash)
  | .nil, _, _, _, _, _, _ => rfl
  | .cons column columns, i, hash, len, hv, hc, hi => by
    obtain ⟨rfl, hcolumn, hcolumns⟩ := hv
    obtain ⟨hc, hcs⟩ := and_eq_true_iff.1 hc
    rw [hashColumns, hashOne_eq column i hash hcolumn hc hi, bind_some, hashColumns_eq columns i _ hcolumns hcs hi]
    rfl
end

def hashAll (h : Bytes → T → T) (a : ArrayRef) (hashes : List T) : List T :=
  hashes.mapIdx fun i hash => hashValue h (a.value i) hash

variable {nulls : Nulls} {hashes : List T}

/-- **The loops over slots.** -/
theorem hashSlots_eq {slots : List Bytes} (hnulls : NullsHold nulls slots.length)
    (hlen : slots.length = hashes.length) : hashSlots h nulls slots hashes =
      hashes.mapIdx fun i hash => if validAt nulls i then h (slots.getD i []) hash else hash := by
  refine ext_getElem ?_ fun i hi hi' => ?_
  · unfold hashSlots
    split <;> simp [hlen]
  · rw [length_mapIdx] at hi'
    have hslot : i < slots.length := hlen.symm ▸ hi'
    rw [getElem_mapIdx, getD_eq_getElem _ _ hslot]
    by_cases hcount : nullCount nulls = 0
    · simp only [hashSlots, if_pos hcount, getElem_zipWith, validAt_of_nullCount hnulls hslot hcount, if_true]
    · simp only [hashSlots, if_neg hcount, getElem_mapIdx, getElem_zip]

variable {a : ArrayRef}

lemma hashSlots_eq_hashAll {slots : List Bytes} (hnulls : NullsHold nulls slots.length)
    (hlen : slots.length = hashes.length) {v : ℕ → Value} (hvalue : ∀ i, a.value i = unlessNull nulls i (v i))
    (hv : ∀ i hi hash, hashValue h (v i) hash = h slots[i] hash) :
    hashSlots h nulls slots hashes = hashAll h a hashes := by
  rw [hashSlots_eq hnulls hlen, hashAll]
  refine ext_getElem (by simp) fun i hi _ => ?_
  rw [length_mapIdx] at hi
  have hslot : i < slots.length := hlen.symm ▸ hi
  rw [getElem_mapIdx, getElem_mapIdx, hvalue, unlessNull, getD_eq_getElem _ _ hslot]
  cases validAt nulls i with
  | true => exact (hv i hslot _).symm
  | false => rfl

/-- **The loop over rows.** -/
theorem hashRows_eq (hv : a.Valid) (hc : coveredByOne a.dataType = true) (hlen : a.len = hashes.length) :
    hashRows h a hashes = some (hashAll h a hashes) := by
  rw [hashRows, mapM_eq_some_iff]
  refine ext_getElem (by simp [hashAll]) fun i hi _ => ?_
  rw [length_map, length_zipIdx] at hi
  simp only [hashAll, getElem_map, getElem_zipIdx, zero_add, getElem_mapIdx]
  exact hashOne_eq a i _ hv hc (hlen.symm ▸ hi)

/-- **The loop over the keys of a dictionary.** -/
theorem createHashesDictionary_eq {index : PrimitiveType} {keys : List ℕ} {values : ArrayRef}
    (hv : (ArrayRef.dictionary index keys values nulls).Valid) (hc : coveredByOne values.dataType = true)
    (hlen : keys.length = hashes.length) :
    createHashesDictionary h keys values nulls hashes = some (hashAll h (.dictionary index keys values nulls) hashes) := by
  obtain ⟨-, hkeys, hvalues⟩ := hv
  rw [createHashesDictionary, mapM_eq_some_iff]
  refine ext_getElem (by simp [hashAll, hlen]) fun i hi _ => ?_
  have hkey : i < keys.length := by simpa [hlen] using hi
  simp only [hashAll, getElem_map, getElem_zipIdx, zero_add, getElem_mapIdx, getElem_zip,
    ArrayRef.value, unlessNull]
  cases hvalid : validAt nulls i with
  | true =>
    have hlt := hkeys i hkey hvalid
    rw [getD_eq_getElem _ _ hkey] at hlt ⊢
    exact hashOne_eq values _ _ hvalues hc hlt
  | false => rfl

/-- **`hash_array` hashes the values of all rows**, if it takes the type. -/
theorem hashArray_eq (hv : a.Valid) (hc : coveredByArray a.dataType = true) (hlen : a.len = hashes.length) :
    hashArray h a hashes = some (hashAll h a hashes) := by
  unfold hashArray
  rw [if_neg (not_not.2 hlen)]
  cases a with
  | null len =>
    refine congrArg some (ext_getElem (by simp [hashAll]) fun i _ _ => ?_)
    simp [hashAll, ArrayRef.value, hashValue]
  | boolean values nulls =>
    refine congrArg some (hashSlots_eq_hashAll (a := .boolean values nulls) ((length_map _).symm ▸ hv)
      ((length_map _).trans hlen) (fun i => rfl) fun i hi hash => ?_)
    rw [length_map] at hi
    rw [getElem_map, getD_eq_getElem _ _ hi, hashValue]
  | primitive t values nulls =>
    obtain ⟨_, hty⟩ := Option.isSome_iff_exists.1 hc
    simp only [hty]
    refine congrArg some (hashSlots_eq_hashAll (a := .primitive t values nulls) ((length_map _).symm ▸ hv.1)
      ((length_map _).trans hlen) (fun i => rfl) fun i hi hash => ?_)
    rw [length_map] at hi
    rw [getElem_map, getD_eq_getElem _ _ hi, hashValue, hty, Option.elim_some]
  | bytes isUtf8 isLarge values nulls =>
    refine congrArg some (hashSlots_eq_hashAll (a := .bytes isUtf8 isLarge values nulls) hv hlen (fun i => rfl)
      fun i hi hash => ?_)
    rw [getD_eq_getElem _ _ hi, hashValue]
  | dictionary index keys values nulls =>
    obtain ⟨hindex, hc⟩ := and_eq_true_iff.1 hc
    exact (if_pos hindex).trans (createHashesDictionary_eq hv hc hlen)
  | fixedSizeBinary | list | fixedSizeList | struct | map => exact hashRows_eq hv hc hlen

end Agreement

/-! ### Arrays that are not hashed -/

mutual
/-- An array of one row of a type, with a value at every depth. -/
def sample : DataType → ArrayRef
  | .null => .null 1
  | .boolean => .boolean [false] none
  | .primitive t => .primitive t [0] none
  | .bytes isUtf8 isLarge => .bytes isUtf8 isLarge [[]] none
  | .fixedSizeBinary size => .fixedSizeBinary size [replicate size 0] none
  | .list isLarge item => .list isLarge [0, 1] (sample item) none
  | .fixedSizeList item size => .fixedSizeList size 0 (sample item) none
  | .struct fields => .struct 1 (sampleColumns fields) none
  | .map keys values => .map [0, 1] (sample keys) (sample values) none
  | .dictionary index value => .dictionary index [0] (sample value) none
  | .other _ => .null 1
def sampleColumns : Fields → Columns
  | .nil => .nil
  | .cons dataType fields => .cons (sample dataType) (sampleColumns fields)
end

mutual
theorem sample_spec : ∀ t : DataType, accepted t = true → (sample t).Valid ∧ (sample t).dataType = t ∧ (sample t).len = 1
  | .null, _ => ⟨trivial, rfl, rfl⟩
  | .boolean, _ => ⟨nofun, rfl, rfl⟩
  | .primitive t, _ => ⟨⟨nofun, by simp⟩, rfl, rfl⟩
  | .bytes _ _, _ => ⟨nofun, rfl, rfl⟩
  | .list isLarge item, h => by
    obtain ⟨hv, ht, hl⟩ := sample_spec item (and_eq_true_iff.1 h).2
    exact ⟨⟨nofun, hl.symm ▸ offsetsHold_one, hv⟩, congrArg (DataType.list isLarge) ht, rfl⟩
  | .map keys values, h => by
    obtain ⟨hk, hv⟩ := and_eq_true_iff.1 h
    obtain ⟨hvk, htk, hlk⟩ := sample_spec keys hk
    obtain ⟨hvv, htv, hlv⟩ := sample_spec values hv
    exact ⟨⟨nofun, hlk.symm ▸ offsetsHold_one, hlv.trans hlk.symm, hvk, hvv⟩, congrArg₂ DataType.map htk htv, rfl⟩
  | .struct fields, h => by
    obtain ⟨hv, ht⟩ := sampleColumns_spec fields h
    exact ⟨⟨nofun, hv⟩, congrArg DataType.struct ht, rfl⟩
  | .dictionary index value, h => by
    obtain ⟨hv, ht, hl⟩ := sample_spec value (and_eq_true_iff.1 h).2
    refine ⟨⟨nofun, fun i hi _ => ?_, hv⟩, congrArg (DataType.dictionary index) ht, rfl⟩
    obtain rfl : i = 0 := by simpa using hi
    exact hl.symm ▸ one_pos
  | .fixedSizeBinary _, h => by cases h
  | .fixedSizeList _ _, h => by cases h
  | .other _, h => by cases h
theorem sampleColumns_spec : ∀ fields : Fields, acceptedFields fields = true →
    (sampleColumns fields).Valid 1 ∧ (sampleColumns fields).fields = fields
  | .nil, _ => ⟨trivial, rfl⟩
  | .cons dataType fields, h => by
    obtain ⟨hd, hf⟩ := and_eq_true_iff.1 h
    obtain ⟨hv, ht, hl⟩ := sample_spec dataType hd
    obtain ⟨hvs, hts⟩ := sampleColumns_spec fields hf
    exact ⟨⟨hl, hv, hvs⟩, congrArg₂ Fields.cons ht hts⟩
end

section Panics

variable {T : Type} {h : Bytes → T → T}

mutual
/-- **`hash_one` panics on a value of a type that it does not take**, at any depth. -/
theorem hashOne_sample : ∀ t : DataType, accepted t = true → coveredByOne t = false → ∀ hash : T,
    hashOne h (sample t) 0 hash = none
  | .primitive t, _, hc, hash => by
    have hty : oneArm t = none := Option.isSome_eq_false_iff.1 hc |> Option.isNone_iff_eq_none.1
    simp [sample, hashOne, whenValid, isValid, hty]
  | .list isLarge item, ha, hc, hash => by
    obtain ⟨hlarge, ha⟩ := and_eq_true_iff.1 ha
    obtain rfl : isLarge = false := by simpa using hlarge
    show (hashOne h (sample item) 0 hash).bind _ = none
    rw [hashOne_sample item ha hc, bind_none]
  | .map keys values, ha, hc, hash => by
    obtain ⟨hak, hav⟩ := and_eq_true_iff.1 ha
    show ((hashOne h (sample keys) 0 hash).bind fun hash => hashOne h (sample values) 0 hash).bind _ = none
    rcases Bool.and_eq_false_iff.1 hc with hck | hcv
    · rw [hashOne_sample keys hak hck, bind_none, bind_none]
    · simp only [hashOne_sample values hav hcv, Option.bind_fun_none, bind_none]
  | .struct fields, ha, hc, hash => hashColumns_sample fields ha hc hash
  | .dictionary _ _, _, _, _ => rfl
  | .null, _, hc, _ => by cases hc
  | .boolean, _, hc, _ => by cases hc
  | .bytes _ _, _, hc, _ => by cases hc
  | .fixedSizeBinary _, ha, _, _ => by cases ha
  | .fixedSizeList _ _, ha, _, _ => by cases ha
  | .other _, ha, _, _ => by cases ha
theorem hashColumns_sample : ∀ fields : Fields, acceptedFields fields = true → coveredFields fields = false → ∀ hash : T,
    hashColumns h (sampleColumns fields) 0 hash = none
  | .nil, _, hc, _ => by cases hc
  | .cons dataType fields, ha, hc, hash => by
    obtain ⟨had, haf⟩ := and_eq_true_iff.1 ha
    rw [sampleColumns, hashColumns]
    rcases Bool.and_eq_false_iff.1 hc with hcd | hcf
    · rw [hashOne_sample dataType had hcd, bind_none]
    · simp only [hashColumns_sample fields haf hcf, Option.bind_fun_none]
end

lemma hashArray_sample {t : DataType} (ha : accepted t = true) (hc : coveredByArray t = false) (hash : T) :
    hashArray h (sample t) [hash] = none := by
  have hrows : ∀ a : ArrayRef, hashOne h a 0 hash = none → hashRows h a [hash] = none := by
    intro a hnone
    simp [hashRows, hnone]
  cases t with
  | null | boolean | bytes => cases hc
  | fixedSizeBinary | fixedSizeList | other => cases ha
  | primitive t => exact absurd (ha.symm.trans hc) Bool.noConfusion
  | list | map | struct => exact hrows _ (hashOne_sample _ ha hc hash)
  | dictionary index value =>
    obtain ⟨hindex, ha⟩ := and_eq_true_iff.1 ha
    have hc : coveredByOne value = false := by simpa [coveredByArray, hindex] using hc
    have hkey : createHashesDictionary h [0] (sample value) none [hash] = none := by
      simp [createHashesDictionary, validAt, hashOne_sample value ha hc]
    exact (if_pos hindex).trans hkey

end Panics

/-- **Column hashing agrees with scalar hashing on the types that both lists have.**  Of the types that `hash_array`
takes, nested in each other at will, it hashes the rows of every array by their values, without a panic, exactly if
`hash_one` takes the types inside its lists, maps, structs and dictionaries; and `hash_one` hashes every row by its value
exactly if the type has no dictionary and no timestamp with a time zone but in nanoseconds. -/
theorem hashArray_agrees_iff {T : Type} [Inhabited T] (h : Bytes → T → T) {t : DataType} (ht : accepted t = true) :
    ((∀ a : ArrayRef, a.Valid → a.dataType = t → ∀ hashes : List T, a.len = hashes.length →
        hashArray h a hashes = some (hashAll h a hashes)) ↔ coveredByArray t = true) ∧
    ((∀ a : ArrayRef, a.Valid → a.dataType = t → ∀ i < a.len, ∀ hash : T,
        hashOne h a i hash = some (hashValue h (a.value i) hash)) ↔ coveredByOne t = true) := by
  obtain ⟨hvalid, htype, hlen⟩ := sample_spec t ht
  refine ⟨⟨fun hagree => ?_, ?_⟩, ⟨fun hagree => ?_, ?_⟩⟩
  · by_contra hc
    have hpanic := hashArray_sample (h := h) ht (Bool.eq_false_iff.2 hc) default
    rw [hagree _ hvalid htype [default] hlen] at hpanic
    cases hpanic
  · rintro hc a hv rfl _ hlen
    exact hashArray_eq hv hc hlen
  · by_contra hc
    have hpanic := hashOne_sample (h := h) t ht (Bool.eq_false_iff.2 hc) default
    rw [hagree _ hvalid htype 0 (hlen.symm ▸ one_pos)] at hpanic
    cases hpanic
  · rintro hc a hv rfl i hi hash
    exact hashOne_eq a i hash hv hc hi

/-- A list of a dictionary is not hashed; a dictionary of strings is. -/
theorem hashArray_agrees_iff_dictionary :
    (¬ ∀ a : ArrayRef, a.Valid → a.dataType = .list false (.dictionary .int32 (.bytes true false)) →
      ∀ hashes : List ℕ, a.len = hashes.length → hashArray (fun bs x => x + bs.length) a hashes =
        some (hashAll (fun bs x => x + bs.length) a hashes)) ∧
    ∀ a : ArrayRef, a.Valid → a.dataType = .dictionary .int32 (.bytes true false) →
      ∀ hashes : List ℕ, a.len = hashes.length → hashArray (fun bs x => x + bs.length) a hashes =
        some (hashAll (fun bs x => x + bs.length) a hashes) :=
  ⟨fun hagree => absurd ((hashArray_agrees_iff _ rfl).1.1 hagree) (by decide), (hashArray_agrees_iff _ rfl).1.2 rfl⟩

/-- A list of one timestamp with a time zone makes `hash_array` panic; as a column of its own the timestamp is hashed. -/
theorem hashArray_panics_on_nested_timestamp :
    accepted (.list false (.primitive (.timestamp .microsecond (some "UTC")))) = true ∧
    (ArrayRef.list false [0, 1] (.primitive (.timestamp .microsecond (some "UTC")) [7] none) none).Valid ∧
    hashArray (fun bs x => x + bs.length)
      (.list false [0, 1] (.primitive (.timestamp .microsecond (some "UTC")) [7] none) none) [42] = none ∧
    hashArray (fun bs x => x + bs.length) (.primitive (.timestamp .microsecond (some "UTC")) [7] none) [42] = some [50] :=
  ⟨rfl, ⟨nofun, offsetsHold_one, nofun, by decide⟩, rfl, rfl⟩

end Auron.Hash
