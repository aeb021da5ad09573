import Mathlib.Data.List.GetD
import Auron.Io.Bytes
import Auron.Lib.Slots

/-!
# Array builders of the Flink deserializers (`flink/serde/shared_*_array_builder.rs`)

The values of a column are appended to a tree of builders: a list of values for a scalar, the validity of the rows and one
builder per field for a struct, the offsets of the slots and a builder of the items for a list or a map.  Nothing ties the
lengths of the builders of a tree together.  `ensure` (`ensure_output_array_builders_size`) appends one value to every
builder that is shorter than a size; closing a slot of a list or a map (`SharedListArrayBuilder::append`) first lets the
items catch up (`adaptive_append_children`).

`finish` gives the values of the rows, or fails where the constructors of the arrays panic: on lengths that do not fit, and
on a null where the type has none.  `Holds` says which values a tree of builders has when all lengths fit; then `finish`
gives them exactly if the type admits them (`finish_of_holds`).  A batch is also refused if the arrays are not of the
declared types: the builders know nothing of time zones, and give the entries of every map the same fields.
-/

namespace Auron.Flink

open Lib Io List

/-! ### Types and values -/

inductive ScalarType where
  | boolean
  | int32
  | int64
  | uint32
  | uint64
  | float32
  | float64
  | utf8
  | binary
  | timestampMillisecond (zone : Option String)
  deriving DecidableEq

/-- The fields of the entries of a map, and whether its keys are sorted. -/
structure MapFields where
  entries : String
  entriesNullable : Bool
  key : String
  keyNullable : Bool
  value : String
  valueNullable : Bool
  sorted : Bool
  deriving DecidableEq

/-- `MapFieldNames::default` and `finish_helper`. -/
def MapFields.built : MapFields := ⟨"entries", false, "key", true, "value", true, false⟩

mutual

/-- `DataType`; the keys of a map are scalars, and the items of a list can be declared without nulls. -/
inductive DataType where
  | scalar (t : ScalarType)
  | struct (fields : Fields)
  | list (nullable : Bool) (item : DataType)
  | map (entry : MapFields) (key : ScalarType) (value : DataType)

inductive Fields where
  | nil
  | cons (name : String) (type : DataType) (nullable : Bool) (fields : Fields)

end

def Fields.names : Fields → List String
  | .nil => []
  | .cons name _ _ fields => name :: fields.names

def ScalarType.builds : ScalarType → Bool
  | timestampMillisecond zone => zone.isNone
  | _ => true

mutual

/-- The builders of a type make arrays of this type. -/
def DataType.builds : DataType → Bool
  | .scalar t => t.builds
  | .struct fields => fields.builds
  | .list _ item => item.builds
  | .map entry key value => decide (entry = .built) && key.builds && value.builds

def Fields.builds : Fields → Bool
  | .nil => true
  | .cons _ type _ fields => type.builds && fields.builds

end

/-- The scalar values; `F` are the floating point numbers. -/
inductive Scalar (F : Type) where
  | bool (b : Bool)
  | int (n : ℤ)
  | float (x : F)
  | utf8 (s : String)
  | binary (bytes : Bytes)
  deriving DecidableEq

/-- The value of a row of an array; `none` are nulls. -/
inductive Value (F : Type) where
  | scalar (v : Option (Scalar F))
  | struct (fields : Option (List (Value F)))
  | list (items : Option (List (Value F)))
  | map (entries : Option (List (Option (Scalar F) × Value F)))

variable {F : Type}

def Value.isNull : Value F → Bool
  | .scalar none | .struct none | .list none | .map none => true
  | _ => false

/-- No field that is not nullable is null. -/
def Fields.nonNull : Fields → List (Value F) → Bool
  | .cons _ _ nullable fields, v :: vs => (nullable || !v.isNull) && fields.nonNull vs
  | _, _ => true

mutual

/-- Nothing within a value is null where its type has no nulls; the keys and values of a map can be null. -/
def DataType.admits : DataType → Value F → Bool
  | .struct fields, .struct (some vs) => fields.nonNull vs && fields.fits vs
  | .list nullable item, .list (some items) => items.all fun v => (nullable || !v.isNull) && item.admits v
  | .map _ _ value, .map (some entries) => entries.all fun entry => value.admits entry.2
  | _, _ => true

def Fields.fits : Fields → List (Value F) → Bool
  | .cons _ type _ fields, v :: vs => type.admits v && fields.fits vs
  | _, _ => true

end

/-! ### Builders -/

mutual

inductive Builder (F : Type) : DataType → Type where
  | scalar {t : ScalarType} (values : List (Option (Scalar F))) : Builder F (.scalar t)
  | struct {fields : Fields} (fieldBuilders : Builders F fields) (nulls : List Bool) : Builder F (.struct fields)
  | list {nullable : Bool} {item : DataType} (values : Builder F item) (offsets : List ℕ) (nulls : List Bool)
      (currentOffset : ℕ) : Builder F (.list nullable item)
  | map {entry : MapFields} {key : ScalarType} {value : DataType} (keys : List (Option (Scalar F)))
      (values : Builder F value) (offsets : List ℕ) (nulls : List Bool) (currentOffset : ℕ) :
      Builder F (.map entry key value)

inductive Builders (F : Type) : Fields → Type where
  | nil : Builders F .nil
  | cons {name : String} {type : DataType} {nullable : Bool} {fields : Fields} (b : Builder F type)
      (bs : Builders F fields) : Builders F (.cons name type nullable fields)

end

mutual

def Builder.new (F : Type) : (type : DataType) → Builder F type
  | .scalar _ => .scalar []
  | .struct fields => .struct (Builders.new F fields) []
  | .list _ item => .list (Builder.new F item) [0] [] 0
  | .map _ _ value => .map [] (Builder.new F value) [0] [] 0

def Builders.new (F : Type) : (fields : Fields) → Builders F fields
  | .nil => .nil
  | .cons _ type _ fields => .cons (Builder.new F type) (Builders.new F fields)

end

def Builder.len : {type : DataType} → Builder F type → ℕ
  | _, .scalar values => values.length
  | _, .struct _ nulls => nulls.length
  | _, .list _ _ nulls _ => nulls.length
  | _, .map _ _ _ nulls _ => nulls.length

/-- What `ensure_output_array_builders_size` appends to a builder of scalars. -/
def padding [Zero F] : ScalarType → Option (Scalar F)
  | .boolean => some (.bool false)
  | .int32 | .int64 | .uint32 | .uint64 => some (.int 0)
  | .float32 | .float64 => some (.float 0)
  | .utf8 => some (.utf8 "")
  | .binary => some (.binary [])
  | .timestampMillisecond _ => none

mutual

/-- `adaptive_append_children` of the builder of the items: the fields of a struct are brought to a size, and a list or a map
with new items gets a slot for them (`adaptive_append`). -/
def Builder.adaptive [Zero F] (size : ℕ) : {type : DataType} → Builder F type → Builder F type
  | _, .scalar values => .scalar values
  | _, .struct fieldBuilders nulls => .struct (fieldBuilders.ensure size) nulls
  | _, .list values offsets nulls currentOffset =>
    if currentOffset < values.len then
      .list (values.adaptive values.len) (offsets ++ [(values.adaptive values.len).len]) (nulls ++ [true]) values.len
    else .list values offsets nulls currentOffset
  | _, .map keys values offsets nulls currentOffset =>
    if currentOffset < keys.length then
      .map keys (values.adaptive keys.length) (offsets ++ [keys.length]) (nulls ++ [true]) keys.length
    else .map keys values offsets nulls currentOffset

/-- `ensure_output_array_builders_size`: a builder that is too short gets one more value. -/
def Builder.ensure [Zero F] (size : ℕ) : {type : DataType} → Builder F type → Builder F type
  | .scalar t, .scalar values => .scalar (if values.length < size then values ++ [padding t] else values)
  | _, .struct fieldBuilders nulls =>
    .struct (fieldBuilders.ensure size) (if nulls.length < size then nulls ++ [false] else nulls)
  | _, .list values offsets nulls currentOffset =>
    if nulls.length < size then
      .list (values.adaptive values.len) (offsets ++ [(values.adaptive values.len).len]) (nulls ++ [true]) currentOffset
    else .list values offsets nulls currentOffset
  | _, .map keys values offsets nulls currentOffset =>
    if nulls.length < size then
      .map keys (values.adaptive keys.length) (offsets ++ [keys.length]) (nulls ++ [true]) currentOffset
    else .map keys values offsets nulls currentOffset

def Builders.ensure [Zero F] (size : ℕ) : {fields : Fields} → Builders F fields → Builders F fields
  | _, .nil => .nil
  | _, .cons b bs => .cons (b.ensure size) (bs.ensure size)

end

def rowAt (cols : List (List (Value F))) (i : ℕ) : List (Value F) := cols.map fun col => col.getD i (.scalar none)

/-- The rows of a struct, from the columns of its fields. -/
def structRows (nulls : List Bool) (cols : List (List (Value F))) : List (Value F) :=
  nulls.mapIdx fun i valid => .struct (if valid then some (rowAt cols i) else none)

/-- The fields of a struct are null only where they are nullable or the struct is null. -/
def Fields.unmasked (fields : Fields) (nulls : List Bool) (cols : List (List (Value F))) : Bool :=
  (nulls.mapIdx fun i valid => !valid || fields.nonNull (rowAt cols i)).all id

def slotRows {α : Type} (wrap : Option (List α) → Value F) (offsets : List ℕ) (nulls : List Bool) (items : List α) :
    List (Value F) :=
  zipWith (fun valid slot => wrap (if valid then some slot else none)) nulls (slots offsets items)

mutual

/-- `finish`: the values of the rows; `none` where `StructArray::new` or `GenericListArray::new` panics. -/
def Builder.finish : {type : DataType} → Builder F type → Option (List (Value F))
  | _, .scalar values => some (values.map .scalar)
  | .struct fields, .struct fieldBuilders nulls =>
    fieldBuilders.finish.bind fun cols =>
      if (cols.all fun col => col.length == nulls.length) && fields.unmasked nulls cols then some (structRows nulls cols)
      else none
  | .list nullable _, .list values offsets nulls _ =>
    values.finish.bind fun items =>
      if offsets.getLastD 0 ≤ items.length ∧ (nullable || items.all fun v => !v.isNull) then
        some (slotRows .list offsets nulls items)
      else none
  | _, .map keys values offsets nulls _ =>
    values.finish.bind fun items =>
      if keys.length = items.length then some (slotRows .map offsets nulls (keys.zip items)) else none

def Builders.finish : {fields : Fields} → Builders F fields → Option (List (List (Value F)))
  | _, .nil => some []
  | _, .cons b bs => b.finish.bind fun col => bs.finish.map (col :: ·)

end

/-- The columns of a batch of `n` rows, each looked up by its name; `none` where an array or the batch cannot be built.
An array of another type than the declared one is refused by the constructor of the array around it or, as a column, by
`RecordBatch::try_new_with_options`, which also refuses nulls in a column without nulls. -/
def Builders.finishBatch {fields : Fields} (bs : Builders F fields) (n : ℕ) : Option (List (List (Value F))) :=
  bs.finish.bind fun cols =>
    if fields.builds && (cols.all fun col => col.length == n) && fields.unmasked (replicate n true) cols then
      some (fields.names.map fun name => cols.getD (fields.names.idxOf name) [])
    else none

/-! ### What a tree of builders holds -/

/-- Lists and maps; a list or a map has no way to hold one that is not empty as an item. -/
def DataType.isNested : DataType → Bool
  | .list .. | .map .. => true
  | _ => false

def Value.IsEmpty : Value F → Prop
  | .list items => items = some []
  | .map entries => entries = some []
  | _ => True

mutual

/-- The values of the rows of a builder whose lengths fit: the fields of a struct have as many values as the struct, and the
last slot of a list or a map ends with its items.  Whatever is behind a null of a struct fits the types of the fields. -/
def Builder.Holds : {type : DataType} → Builder F type → List (Value F) → Prop
  | _, .scalar values, rows => rows = values.map .scalar
  | .struct fields, .struct fieldBuilders nulls, rows =>
    ∃ cols, fieldBuilders.Holds cols ∧ (∀ col ∈ cols, col.length = nulls.length) ∧
      (∀ i, nulls[i]? = some false → fields.fits (rowAt cols i) = true) ∧ rows = structRows nulls cols
  | .list _ item, .list values offsets nulls _, rows =>
    ∃ items, values.Holds items.flatten ∧ (item.isNested = true → ∀ v ∈ items.flatten, v.IsEmpty) ∧
      offsets = offsetsOf items ∧ nulls = replicate items.length true ∧ rows = items.map fun slot => .list (some slot)
  | .map _ _ value, .map keys values offsets nulls _, rows =>
    ∃ items : List (List (Option (Scalar F) × Value F)), keys = items.flatten.map Prod.fst ∧
      values.Holds (items.flatten.map Prod.snd) ∧ (value.isNested = true → ∀ entry ∈ items.flatten, entry.2.IsEmpty) ∧
      offsets = offsetsOf items ∧ nulls = replicate items.length true ∧
      rows = items.map fun slot => .map (some slot)

def Builders.Holds : {fields : Fields} → Builders F fields → List (List (Value F)) → Prop
  | _, .nil, cols => cols = []
  | _, .cons b bs, cols => ∃ col rest, b.Holds col ∧ bs.Holds rest ∧ cols = col :: rest

end

lemma length_structRows (nulls : List Bool) (cols : List (List (Value F))) :
    (structRows nulls cols).length = nulls.length := length_mapIdx

variable {type : DataType} {b : Builder F type} {rows : List (Value F)}

lemma Builder.Holds.len_eq (h : b.Holds rows) : b.len = rows.length := by
  cases b with
  | scalar values =>
    obtain rfl : rows = values.map .scalar := h
    exact (length_map _).symm
  | struct fieldBuilders nulls =>
    obtain ⟨cols, -, -, -, rfl⟩ := h
    exact (length_structRows nulls cols).symm
  | list values offsets nulls currentOffset =>
    obtain ⟨items, -, -, -, rfl, rfl⟩ := h
    simp [Builder.len]
  | map keys values offsets nulls currentOffset =>
    obtain ⟨_, -, -, -, -, rfl, rfl⟩ := h
    simp [Builder.len]

lemma slotRows_offsetsOf {α : Type} (wrap : Option (List α) → Value F) (items : List (List α)) :
    slotRows wrap (offsetsOf items) (replicate items.length true) items.flatten =
      items.map fun slot => wrap (some slot) := by
  have hslots := slots_offsetsOf items []
  rw [append_nil] at hslots
  rw [slotRows, hslots]
  apply ext_getElem (by simp)
  intro i _ _
  simp

section Finishing

variable {fields : Fields} {nulls : List Bool} {cols : List (List (Value F))} {n : ℕ}

lemma all_mapIdx {α β : Type} {f : ℕ → α → β} {p : β → Bool} {l : List α} :
    (l.mapIdx f).all p = true ↔ ∀ i a, l[i]? = some a → p (f i a) = true := by
  rw [all_eq_true]
  constructor
  · intro h i _ ha
    obtain ⟨hi, rfl⟩ := List.getElem?_eq_some_iff.1 ha
    exact h _ (mem_mapIdx.2 ⟨i, hi, rfl⟩)
  · intro h _ hb
    obtain ⟨i, hi, rfl⟩ := mem_mapIdx.1 hb
    exact h i _ (getElem?_eq_getElem hi)

lemma unmasked_iff : fields.unmasked nulls cols = true ↔
    ∀ i, nulls[i]? = some true → fields.nonNull (rowAt cols i) = true := by
  rw [Fields.unmasked, all_mapIdx]
  refine forall_congr' fun i => ⟨fun h => h true, fun h valid hvalid => ?_⟩
  cases valid with
  | false => rfl
  | true => exact h hvalid

lemma all_admits_structRows : ((structRows nulls cols).all (DataType.struct fields).admits = true) ↔
    ∀ i, nulls[i]? = some true → (fields.nonNull (rowAt cols i) && fields.fits (rowAt cols i)) = true := by
  rw [structRows, all_mapIdx]
  refine forall_congr' fun i => ⟨fun h hvalid => ?_, fun h valid hvalid => ?_⟩
  · have hrow := h true hvalid
    rwa [if_pos rfl, DataType.admits] at hrow
  · cases valid with
    | false => rfl
    | true =>
      rw [if_pos rfl, DataType.admits]
      exact h hvalid

/-- **The check of `StructArray::new`** is that of its rows, once the fields are checked. -/
theorem all_admits_struct (hmasked : ∀ i, nulls[i]? = some false → fields.fits (rowAt cols i) = true)
    (hlen : nulls.length = n) :
    ((structRows nulls cols).all (DataType.struct fields).admits) =
      (((range n).all fun i => fields.fits (rowAt cols i)) && fields.unmasked nulls cols) := by
  rw [Bool.eq_iff_iff, all_admits_structRows, Bool.and_eq_true, unmasked_iff, all_eq_true]
  constructor
  · intro h
    refine ⟨fun i hi => ?_, fun i hi => (Bool.and_eq_true_iff.1 (h i hi)).1⟩
    have hlt : i < nulls.length := by rwa [hlen, ← mem_range]
    cases hvalid : nulls[i] with
    | false => exact hmasked i (by rw [getElem?_eq_getElem hlt, hvalid])
    | true => exact (Bool.and_eq_true_iff.1 (h i (by rw [getElem?_eq_getElem hlt, hvalid]))).2
  · rintro ⟨hfits, hnonNull⟩ i hi
    obtain ⟨hlt, -⟩ := List.getElem?_eq_some_iff.1 hi
    rw [hnonNull i hi, hfits i (mem_range.2 (hlen ▸ hlt))]
    rfl

lemma all_and {α : Type} (p q : α → Bool) (l : List α) : (l.all fun a => p a && q a) = (l.all p && l.all q) := by
  induction l with
  | nil => rfl
  | cons a l ih => rw [all_cons, all_cons, all_cons, ih, Bool.and_assoc, Bool.and_assoc, Bool.and_left_comm (q a)]

lemma all_fits_cons {col : List (Value F)} {name : String} {nullable : Bool} (hcol : col.length = n) :
    ((range n).all fun i => (Fields.cons name type nullable fields).fits (rowAt (col :: cols) i)) =
      (col.all type.admits && (range n).all fun i => fields.fits (rowAt cols i)) := by
  have hcolumn : col.all type.admits = (range n).all fun i => type.admits (col.getD i (.scalar none)) := by
    rw [Bool.eq_iff_iff, all_eq_true, all_eq_true]
    constructor
    · intro h i hi
      rw [mem_range, ← hcol] at hi
      rw [getD_eq_getElem _ _ hi]
      exact h _ (getElem_mem hi)
    · intro h v hv
      obtain ⟨i, hi, rfl⟩ := mem_iff_getElem.1 hv
      have hat := h i (mem_range.2 (hcol ▸ hi))
      rwa [getD_eq_getElem _ _ hi] at hat
  rw [hcolumn, ← all_and]
  rfl

lemma bind_ite_some {α β : Type} {p q : Bool} {a : α} {f : α → Option β} {c : β}
    (h : f a = if q then some c else none) : (if p then some a else none).bind f = if p && q then some c else none := by
  cases p with
  | false => rfl
  | true => exact h

end Finishing

mutual

/-- **A tree of builders whose lengths fit can be finished** exactly if its type admits the values it holds, and gives
these. -/
theorem finish_of_holds : {type : DataType} → (b : Builder F type) → {rows : List (Value F)} → b.Holds rows →
    b.finish = if rows.all type.admits then some rows else none
  | .scalar t, .scalar values, rows, h => by
    obtain rfl : rows = values.map .scalar := h
    have hall : (values.map Value.scalar).all (DataType.scalar t).admits = true := by
      rw [all_map, all_eq_true]
      exact fun _ _ => rfl
    rw [hall]
    rfl
  | .struct fields, .struct fieldBuilders nulls, rows, h => by
    obtain ⟨cols, hcols, hlen, hmasked, rfl⟩ := h
    have hlen' : (cols.all fun col => col.length == nulls.length) = true := by simpa using hlen
    rw [all_admits_struct hmasked rfl, Builder.finish, finishAll_of_holds fieldBuilders hcols hlen]
    exact bind_ite_some (by rw [hlen', Bool.true_and])
  | .list nullable item, .list values offsets nulls _, rows, h => by
    obtain ⟨items, hvalues, -, rfl, rfl, rfl⟩ := h
    have hlast : (offsetsOf items).getLastD 0 ≤ items.flatten.length := by
      rw [getLastD_eq_getLast?, getLast?_offsetsOf]
      exact le_refl _
    have hall : ((items.map fun slot => Value.list (some slot)).all (DataType.list nullable item).admits) =
        (items.flatten.all item.admits && (nullable || items.flatten.all fun v => !v.isNull)) := by
      have hflat : ((items.map fun slot => Value.list (some slot)).all (DataType.list nullable item).admits) =
          items.flatten.all fun v => (nullable || !v.isNull) && item.admits v := by
        simp [all_map, Function.comp_def, DataType.admits]
      rw [hflat, all_and, Bool.and_comm]
      cases nullable <;> simp
    rw [hall, Builder.finish, finish_of_holds values hvalues]
    refine bind_ite_some ?_
    rw [slotRows_offsetsOf]
    simp only [hlast, true_and]
  | .map entry key value, .map keys values offsets nulls _, rows, h => by
    obtain ⟨items, rfl, hvalues, -, rfl, rfl, rfl⟩ := h
    have hzip : (items.flatten.map Prod.fst).zip (items.flatten.map Prod.snd) = items.flatten :=
      (zip_of_prod rfl rfl).symm
    have hall : ((items.map fun slot => Value.map (some slot)).all (DataType.map entry key value).admits) =
        (items.flatten.map Prod.snd).all value.admits := by
      simp [all_map, Function.comp_def, DataType.admits]
    rw [hall, Builder.finish, finish_of_holds values hvalues]
    refine (bind_ite_some (q := true) ?_).trans (by rw [Bool.and_true])
    rw [if_pos (by rw [length_map, length_map]), hzip, slotRows_offsetsOf, if_pos rfl]

theorem finishAll_of_holds {n : ℕ} : {fields : Fields} → (bs : Builders F fields) → {cols : List (List (Value F))} →
    bs.Holds cols → (∀ col ∈ cols, col.length = n) →
      bs.finish = if (range n).all fun i => fields.fits (rowAt cols i) then some cols else none
  | .nil, .nil, cols, h, _ => by
    obtain rfl : cols = [] := h
    have hall : ((range n).all fun i => Fields.nil.fits (rowAt ([] : List (List (Value F))) i)) = true := by
      rw [all_eq_true]
      exact fun _ _ => rfl
    rw [hall]
    rfl
  | .cons name type nullable fields, .cons b bs, cols, h, hlen => by
    obtain ⟨col, rest, hcol, hrest, rfl⟩ := h
    obtain ⟨hlen₀, hlen⟩ := forall_mem_cons.1 hlen
    rw [all_fits_cons hlen₀, Builders.finish, finish_of_holds b hcol]
    refine bind_ite_some ?_
    rw [finishAll_of_holds bs hrest hlen]
    cases (range n).all fun i => fields.fits (rowAt rest i) <;> rfl

end

lemma length_of_holdsAll {α : Type} (row : Fields → List α) (hnil : (row .nil).length = 0)
    (hcons : ∀ name type nullable fields, (row (.cons name type nullable fields)).length = (row fields).length + 1) :
    {fields : Fields} → {bs : Builders F fields} → {cols : List (List (Value F))} → bs.Holds cols →
      (row fields).length = cols.length
  | _, .nil, cols, h => by
    obtain rfl : cols = [] := h
    exact hnil
  | .cons name type nullable fields, .cons _ bs, cols, h => by
    obtain ⟨_, _, -, hrest, rfl⟩ := h
    rw [hcons name type nullable fields, length_of_holdsAll row hnil hcons hrest, length_cons]

variable {cols : List (List (Value F))}

lemma map_getD_idxOf {names : List String} (hnames : names.Nodup) (hlen : names.length = cols.length) :
    (names.map fun name => cols.getD (names.idxOf name) []) = cols := by
  apply ext_getElem (by simp [hlen])
  intro i h1 h2
  have hi : i < names.length := by simpa using h1
  rw [getElem_map, hnames.idxOf_getElem i hi, getD_eq_getElem _ _ h2]

variable {n : ℕ}

/-- **The batch of builders whose lengths fit**: it is made exactly if the types can be built and every row is admitted. -/
theorem finishBatch_of_holds {fields : Fields} (hnames : fields.names.Nodup) {bs : Builders F fields}
    (h : bs.Holds cols) (hlen : ∀ col ∈ cols, col.length = n) :
    bs.finishBatch n = if fields.builds && (range n).all fun i =>
      fields.nonNull (rowAt cols i) && fields.fits (rowAt cols i) then some cols else none := by
  have hwidth : fields.names.length = cols.length := length_of_holdsAll Fields.names rfl (fun _ _ _ _ => rfl) h
  have hlen' : (cols.all fun col => col.length == n) = true := by simpa using hlen
  have hunmasked : fields.unmasked (replicate n true) cols = (range n).all fun i => fields.nonNull (rowAt cols i) := by
    rw [Bool.eq_iff_iff, unmasked_iff, all_eq_true]
    simp [getElem?_replicate]
  have hcond : (fields.builds && (range n).all fun i => fields.nonNull (rowAt cols i) && fields.fits (rowAt cols i)) =
      (((range n).all fun i => fields.fits (rowAt cols i)) &&
        (fields.builds && fields.unmasked (replicate n true) cols)) := by
    rw [hunmasked, all_and]
    cases fields.builds <;> simp [Bool.and_comm]
  rw [hcond, Builders.finishBatch, finishAll_of_holds bs h hlen]
  refine bind_ite_some ?_
  rw [hlen', Bool.and_true, map_getD_idxOf hnames hwidth]

mutual

theorem holds_new : (type : DataType) → (Builder.new F type).Holds []
  | .scalar _ => rfl
  | .struct fields => ⟨_, holds_newFields fields, by simp, nofun, rfl⟩
  | .list _ item => ⟨[], holds_new item, nofun, rfl, rfl, rfl⟩
  | .map _ _ value => ⟨[], rfl, holds_new value, nofun, rfl, rfl, rfl⟩

theorem holds_newFields : (fields : Fields) → (Builders.new F fields).Holds (fields.names.map fun _ => [])
  | .nil => rfl
  | .cons _ type _ fields => ⟨_, _, holds_new type, holds_newFields fields, rfl⟩

end

lemma holds_scalar_append {t : ScalarType} {values : List (Option (Scalar F))}
    (h : (Builder.scalar values : Builder F (.scalar t)).Holds rows) (v : Option (Scalar F)) :
    (Builder.scalar (values ++ [v]) : Builder F (.scalar t)).Holds (rows ++ [.scalar v]) := by
  obtain rfl : rows = values.map .scalar := h
  rw [Builder.Holds, map_append]
  rfl

section Padding

variable [Zero F]

mutual

theorem ensure_of_holds {size : ℕ} : {type : DataType} → (b : Builder F type) → {rows : List (Value F)} → b.Holds rows →
    rows.length = size → b.ensure size = b
  | _, .scalar values, rows, h, hlen => by
    obtain rfl : rows = values.map .scalar := h
    rw [length_map] at hlen
    rw [Builder.ensure, if_neg (by omega)]
  | _, .struct fieldBuilders nulls, rows, h, hlen => by
    obtain ⟨_, hcols, hcollen, -, rfl⟩ := h
    rw [length_structRows] at hlen
    rw [Builder.ensure, ensureAll_of_holds fieldBuilders hcols fun col hcol => (hcollen col hcol).trans hlen,
      if_neg (by omega)]
  | _, .list values offsets nulls _, rows, h, hlen => by
    have hnulls : nulls.length = rows.length := h.len_eq
    rw [Builder.ensure, if_neg (by omega)]
  | _, .map keys values offsets nulls _, rows, h, hlen => by
    have hnulls : nulls.length = rows.length := h.len_eq
    rw [Builder.ensure, if_neg (by omega)]

theorem ensureAll_of_holds {size : ℕ} : {fields : Fields} → (bs : Builders F fields) → {cols : List (List (Value F))} →
    bs.Holds cols → (∀ col ∈ cols, col.length = size) → bs.ensure size = bs
  | _, .nil, _, _, _ => rfl
  | _, .cons b bs, cols, h, hlen => by
    obtain ⟨_, _, hcol, hrest, rfl⟩ := h
    obtain ⟨hlen₀, hlen⟩ := forall_mem_cons.1 hlen
    rw [Builders.ensure, ensure_of_holds b hcol hlen₀, ensureAll_of_holds bs hrest hlen]

end

lemma holds_ensure {size : ℕ} (h : b.Holds rows) (hlen : rows.length = size) : (b.ensure size).Holds rows := by
  rwa [ensure_of_holds b h hlen]

/-- **The items catch up with the slot.**  The fields of a struct are padded as those of a row are; lists and maps are left
alone as long as all of them are empty. -/
theorem holds_adaptive {size : ℕ} (h : (b.ensure size).Holds rows) (hlen : rows.length = size) (hb : b.len = size)
    (hnested : type.isNested = true → ∀ v ∈ rows, v.IsEmpty) : (b.adaptive size).Holds rows := by
  cases b with
  | scalar values =>
    have hvalues : values.length = size := hb
    rwa [Builder.ensure, if_neg (by omega)] at h
  | struct fieldBuilders nulls =>
    have hnulls : nulls.length = size := hb
    rwa [Builder.ensure, if_neg (by omega)] at h
  | list values offsets nulls currentOffset =>
    have hnulls : nulls.length = size := hb
    rw [Builder.ensure, if_neg (by omega)] at h
    obtain ⟨items, hvalues, -, -, -, rfl⟩ := id h
    have hempty : items.flatten = [] := by
      rw [flatten_eq_nil_iff]
      intro slot hslot
      exact Option.some.inj (hnested rfl _ (mem_map_of_mem hslot))
    have hzero : values.len = 0 := by rw [hvalues.len_eq, hempty, length_nil]
    rwa [Builder.adaptive, if_neg (by omega)]
  | map keys values offsets nulls currentOffset =>
    have hnulls : nulls.length = size := hb
    rw [Builder.ensure, if_neg (by omega)] at h
    obtain ⟨items, rfl, -, -, -, -, rfl⟩ := id h
    have hempty : items.flatten = [] := by
      rw [flatten_eq_nil_iff]
      intro slot hslot
      exact Option.some.inj (hnested rfl _ (mem_map_of_mem hslot))
    rwa [Builder.adaptive, if_neg (by rw [hempty]; exact Nat.not_lt_zero _)]

variable {nulls : List Bool} {offsets : List ℕ} {currentOffset : ℕ}

/-- Some values were appended to a builder, up to the padding. -/
def Builder.Grows (b b' : Builder F type) (new : List (Value F)) : Prop :=
  ∀ old, b.Holds old → (b'.ensure (old ++ new).length).Holds (old ++ new) ∧ b'.len = (old ++ new).length

lemma Builder.Grows.refl (b : Builder F type) : b.Grows b [] := by
  intro old h
  rw [append_nil]
  exact ⟨holds_ensure h rfl, h.len_eq⟩

/-- **Values that are appended one after the other**: the last one may be short, as the padding follows. -/
theorem grows_foldl {α : Type} {step : Builder F type → α → Builder F type} {xs : List α} (val : α → Value F)
    (hlen : ∀ b x, (step b x).len = b.len + 1)
    (hinit : ∀ x ∈ xs.dropLast, ∀ b rows, b.Holds rows → (step b x).Holds (rows ++ [val x]))
    (hlast : ∀ x ∈ xs.getLast?, ∀ b rows, b.Holds rows → ((step b x).ensure (rows.length + 1)).Holds (rows ++ [val x])) :
    b.Grows (xs.foldl step b) (xs.map val) := by
  intro old hold
  rcases eq_nil_or_concat' xs with rfl | ⟨init, last, rfl⟩
  · exact Builder.Grows.refl b old hold
  rw [dropLast_concat] at hinit
  rw [getLast?_concat] at hlast
  have hfront : (init.foldl step b).Holds (old ++ init.map val) := by
    clear hlast
    induction init generalizing b old with
    | nil => simpa using hold
    | cons x init ih =>
      have hrest := ih _ (hinit x mem_cons_self b old hold) fun y hy => hinit y (mem_cons_of_mem x hy)
      rwa [append_assoc] at hrest
  have hsize : (old ++ (init ++ [last]).map val).length = (old ++ init.map val).length + 1 := by
    simp [Nat.add_assoc]
  rw [hsize, foldl_append, map_append, ← append_assoc]
  exact ⟨hlast last rfl _ _ hfront, (hlen _ last).trans (congrArg (· + 1) hfront.len_eq)⟩

section CloseList

variable {nullable : Bool} {item : DataType} {values values' : Builder F item} {new : List (Value F)}
  (h : (Builder.list values offsets nulls currentOffset : Builder F (.list nullable item)).Holds rows)
  (hvalues : values.Grows values' new) (hnested : item.isNested = true → ∀ v ∈ new, v.IsEmpty)

include h hvalues hnested

/-- **Closing a slot of a list.** -/
theorem holds_closeList (currentOffset' : ℕ) :
    (Builder.list (values'.adaptive values'.len) (offsets ++ [(values'.adaptive values'.len).len]) (nulls ++ [true])
      currentOffset' : Builder F (.list nullable item)).Holds (rows ++ [.list (some new)]) := by
  obtain ⟨items, hold, holdNested, rfl, rfl, rfl⟩ := h
  have hflat : (items ++ [new]).flatten = items.flatten ++ new := by simp
  have hempty : item.isNested = true → ∀ v ∈ items.flatten ++ new, v.IsEmpty := fun hitem =>
    forall_mem_append.2 ⟨holdNested hitem, hnested hitem⟩
  obtain ⟨hnew, hlen⟩ := hvalues _ hold
  have hholds := holds_adaptive hnew rfl hlen hempty
  rw [hlen, hholds.len_eq]
  refine ⟨items ++ [new], hflat.symm ▸ hholds, hflat.symm ▸ hempty, ?_, ?_, ?_⟩
  · rw [offsetsOf_concat, hflat]
  · rw [length_append, length_singleton, replicate_succ']
  · rw [map_append]
    rfl

end CloseList

section CloseMap

variable {entry : MapFields} {key : ScalarType} {value : DataType} {keys : List (Option (Scalar F))}
  {values values' : Builder F value} {new : List (Option (Scalar F) × Value F)}
  (h : (Builder.map keys values offsets nulls currentOffset : Builder F (.map entry key value)).Holds rows)
  (hvalues : values.Grows values' (new.map Prod.snd)) (hnested : value.isNested = true → ∀ e ∈ new, e.2.IsEmpty)

include h hvalues hnested

/-- **Closing a slot of a map.** -/
theorem holds_closeMap (currentOffset' : ℕ) :
    (Builder.map (keys ++ new.map Prod.fst) (values'.adaptive (keys ++ new.map Prod.fst).length)
      (offsets ++ [(keys ++ new.map Prod.fst).length]) (nulls ++ [true]) currentOffset' :
        Builder F (.map entry key value)).Holds (rows ++ [.map (some new)]) := by
  obtain ⟨items, rfl, hold, holdNested, rfl, rfl, rfl⟩ := h
  have hflat : (items ++ [new]).flatten = items.flatten ++ new := by simp
  have hempty : value.isNested = true → ∀ e ∈ items.flatten ++ new, e.2.IsEmpty := fun hvalue =>
    forall_mem_append.2 ⟨holdNested hvalue, hnested hvalue⟩
  obtain ⟨hnew, hlen⟩ := hvalues _ hold
  rw [← map_append] at hnew hlen ⊢
  have hkeys : ((items.flatten ++ new).map Prod.fst).length = ((items.flatten ++ new).map Prod.snd).length := by
    rw [length_map, length_map]
  have hholds := holds_adaptive hnew rfl hlen fun hvalue => forall_mem_map.2 (hempty hvalue)
  rw [hkeys]
  refine ⟨items ++ [new], by rw [hflat], by rw [hflat]; exact hholds, by rw [hflat]; exact hempty, ?_, ?_, ?_⟩
  · rw [offsetsOf_concat, hflat, length_map]
  · rw [length_append, length_singleton, replicate_succ']
  · rw [map_append]
    rfl

end CloseMap

def appendRow (cols : List (List (Value F))) (row : List (Value F)) : List (List (Value F)) :=
  zipWith (fun col v => col ++ [v]) cols row

omit [Zero F] in
lemma length_of_mem_appendRow (hlen : ∀ col ∈ cols, col.length = n) (row : List (Value F)) :
    ∀ col ∈ appendRow cols row, col.length = n + 1 := by
  induction cols generalizing row with
  | nil => simp [appendRow]
  | cons col cols ih =>
    obtain ⟨hlen₀, hlen⟩ := forall_mem_cons.1 hlen
    cases row with
    | nil => simp [appendRow]
    | cons v row => exact forall_mem_cons.2 ⟨by simp [hlen₀], ih hlen row⟩

section Rows

variable {row : List (Value F)} (hlen : ∀ col ∈ cols, col.length = nulls.length) (hrow : row.length = cols.length)

include hlen hrow

omit [Zero F] in
lemma rowAt_appendRow_of_lt {i : ℕ} (hi : i < nulls.length) : rowAt (appendRow cols row) i = rowAt cols i := by
  apply ext_getElem (by simp [rowAt, appendRow, hrow])
  intro j h1 h2
  have hj : j < cols.length := by simpa [rowAt] using h2
  have hcol := hlen cols[j] (getElem_mem hj)
  simp [rowAt, appendRow, getElem?_append_left (show i < cols[j].length by omega)]

omit [Zero F] in
lemma rowAt_appendRow : rowAt (appendRow cols row) nulls.length = row := by
  apply ext_getElem (by simp [rowAt, appendRow, hrow])
  intro j h1 h2
  have hj : j < cols.length := by omega
  have hcol := hlen cols[j] (getElem_mem hj)
  simp [rowAt, appendRow, ← hcol]

omit [Zero F] in
lemma structRows_concat (valid : Bool) : structRows (nulls ++ [valid]) (appendRow cols row) =
    structRows nulls cols ++ [.struct (if valid then some row else none)] := by
  rw [structRows, mapIdx_append, structRows, mapIdx_cons, zero_add, rowAt_appendRow hlen hrow]
  congr 1
  apply ext_getElem (by simp)
  intro i h1 _
  have hi : i < nulls.length := by simpa using h1
  simp only [getElem_mapIdx]
  rw [rowAt_appendRow_of_lt hlen hrow hi]

omit [Zero F] in
/-- **A row of a struct**, from a row of its fields. -/
theorem holds_struct_append {fields : Fields} {fieldBuilders : Builders F fields}
    (hmasked : ∀ i, nulls[i]? = some false → fields.fits (rowAt cols i) = true)
    (h : fieldBuilders.Holds (appendRow cols row)) (valid : Bool) (hvalid : valid = false → fields.fits row = true) :
    (Builder.struct fieldBuilders (nulls ++ [valid])).Holds
      (structRows nulls cols ++ [.struct (if valid then some row else none)]) := by
  refine ⟨_, h, ?_, fun i hi => ?_, (structRows_concat hlen hrow valid).symm⟩
  · rw [length_append]
    exact length_of_mem_appendRow hlen _
  · rcases Nat.lt_or_ge i nulls.length with hlt | hge
    · rw [rowAt_appendRow_of_lt hlen hrow hlt]
      exact hmasked i (by rwa [getElem?_append_left hlt] at hi)
    · obtain rfl : i = nulls.length := by
        have hlt := (List.getElem?_eq_some_iff.1 hi).1
        rw [length_append, length_singleton] at hlt
        omega
      rw [getElem?_concat_length] at hi
      rw [rowAt_appendRow hlen hrow]
      exact hvalid (Option.some.inj hi)

end Rows

def DataType.padded : DataType → Value F
  | .scalar t => .scalar (padding t)
  | .struct _ => .struct none
  | .list .. => .list (some [])
  | .map .. => .map (some [])

def Fields.padded : Fields → List (Value F)
  | .nil => []
  | .cons _ type _ fields => type.padded :: fields.padded

lemma fits_padded (fields : Fields) : fields.fits (fields.padded : List (Value F)) = true := by
  cases fields with
  | nil => rfl
  | cons _ type _ fields =>
    have htype : type.admits (type.padded : Value F) = true := by
      cases type <;> rfl
    rw [Fields.padded, Fields.fits, htype, fits_padded fields]
    rfl

mutual

/-- **One more row for builders that are one row short.** -/
theorem ensure_pads {n : ℕ} : {type : DataType} → (b : Builder F type) → {rows : List (Value F)} → b.Holds rows →
    rows.length = n → (b.ensure (n + 1)).Holds (rows ++ [type.padded])
  | .scalar t, .scalar values, rows, h, hlen => by
    have hvalues : values.length = rows.length := h.len_eq
    rw [Builder.ensure, if_pos (by omega)]
    exact holds_scalar_append h (padding t)
  | .struct fields, .struct fieldBuilders nulls, rows, h, hlen => by
    obtain ⟨cols, hcols, hcollen, hmasked, rfl⟩ := h
    rw [length_structRows] at hlen
    subst hlen
    have hpad := ensureAll_pads fieldBuilders hcols hcollen
    have hrow : (Fields.padded fields : List (Value F)).length = cols.length :=
      length_of_holdsAll Fields.padded rfl (fun _ _ _ _ => rfl) hcols
    rw [Builder.ensure, if_pos (Nat.lt_succ_self _)]
    exact holds_struct_append hcollen hrow hmasked hpad false fun _ => fits_padded fields
  | .list _ item, .list values offsets nulls currentOffset, rows, h, hlen => by
    have hnulls : nulls.length = rows.length := h.len_eq
    rw [Builder.ensure, if_pos (by omega)]
    exact holds_closeList h (.refl values) (fun _ => nofun) currentOffset
  | .map _ key value, .map keys values offsets nulls currentOffset, rows, h, hlen => by
    have hnulls : nulls.length = rows.length := h.len_eq
    have hgrows : values.Grows values (map Prod.snd ([] : List (Option (Scalar F) × Value F))) := .refl values
    have hclosed := holds_closeMap h hgrows (fun _ => nofun) currentOffset
    rw [map_nil, append_nil] at hclosed
    rwa [Builder.ensure, if_pos (by omega)]

theorem ensureAll_pads {n : ℕ} : {fields : Fields} → (bs : Builders F fields) → {cols : List (List (Value F))} →
    bs.Holds cols → (∀ col ∈ cols, col.length = n) → (bs.ensure (n + 1)).Holds (appendRow cols fields.padded)
  | _, .nil, cols, h, _ => by
    obtain rfl : cols = [] := h
    rfl
  | .cons _ type _ fields, .cons b bs, cols, h, hlen => by
    obtain ⟨_, _, hcol, hrest, rfl⟩ := h
    obtain ⟨hlen₀, hlen⟩ := forall_mem_cons.1 hlen
    exact ⟨_, _, ensure_pads b hcol hlen₀, ensureAll_pads bs hrest hlen, rfl⟩

end

end Padding

end Auron.Flink
