import Auron.Agg.AccColumn
import Auron.Agg.ScalarColumn
import Auron.Lib.Gather

/-!
# `first` of a nested type (`agg/first.rs`, `io/scalar_serde.rs`)

The scalars of a list, struct or map column are arrays of one row.  `partial_update` puts the first row of a group into its
record; for a null row it puts `ScalarValue::Null` there, which is not the null of the data type.  It is written as one byte
where the reader expects an array, and an array of such nulls has another data type.

So a column is spilled and frozen as it should be exactly if no selected record has such a null and no type in it has a
time zone (`first_survives_iff`).
-/

namespace Auron.Agg

open Auron.Io Auron.Io.BatchSerde Auron.Lib List

/-! ### Scalars -/

/-- `ScalarValue`: the null without a type, and an array of one row. -/
inductive ScalarValue where
  | null
  | nested (a : ArrayRef)

def ScalarValue.toArray : ScalarValue → ArrayRef
  | null => .null 1
  | nested a => a

structure OneRow (validUtf8 : Bytes → Bool) (dt : DataType) (a : ArrayRef) : Prop where
  dataType : a.dataType = dt
  len : a.len = 1
  valid : a.Valid validUtf8

structure NestedOps (validUtf8 : Bytes → Bool) (dt : DataType) where
  /-- `ScalarValue::try_from(&dt)`. -/
  nullArray : ArrayRef
  /-- `compacted_scalar_value_from_array`. -/
  scalarAt : ArrayRef → ℕ → ArrayRef
  /-- `get_array_mem_size`. -/
  memSize : ArrayRef → ℕ
  /-- `concat`, which fails for arrays of different types, and if the result has too many elements. -/
  concat : List ArrayRef → Option ArrayRef
  /-- The elements of the concatenation can be counted with 31 bits. -/
  Fits : List ArrayRef → Prop
  oneRow_nullArray : OneRow validUtf8 dt nullArray
  oneRow_scalarAt : ∀ a i, a.dataType = dt → a.Valid validUtf8 → i < a.len → OneRow validUtf8 dt (scalarAt a i)
  concat_same : ∀ as, as ≠ [] → (∀ a ∈ as, a.dataType = dt) → Fits as → ∃ a, concat as = some a ∧ a.dataType = dt
  concat_mixed : ∀ as, ∀ a ∈ as, ∀ b ∈ as, a.dataType ≠ b.dataType → concat as = none

section Model

variable {validUtf8 : Bytes → Bool} {dt : DataType} (O : NestedOps validUtf8 dt)

/-- The scalars of the data type: `read_scalar` goes by the type, `write_scalar` by the scalar. -/
def NestedOps.scalars : ScalarEnv ScalarValue ArrayRef where
  nullValue := .nested O.nullArray
  heapMemSize
    | .null => 0
    | .nested a => O.memSize a
  writeScalar
    | .null => some [0]
    | .nested a => writeArray a.dataType .disabled a
  readScalar := do
    let a ← readArray validUtf8 dt .disabled 1
    pure (.nested a)
  iterToArray
    | [] => none
    -- the type of the first scalar is that of the array
    | .null :: vs => if vs.all fun v => v matches .null then some (.null (vs.length + 1)) else none
    | .nested a :: vs => O.concat (a :: vs.map ScalarValue.toArray)
  arrayScalars a := some ((range a.len).map fun i => .nested (if a.isNull i then O.nullArray else O.scalarAt a i))

/-! ### The column -/

structure AccFirstColumn where
  values : AccScalarValueColumn ScalarValue
  flags : AccBooleanColumn

namespace AccFirstColumn

/-- `create_acc_column`. -/
def new (numRows : ℕ) : AccFirstColumn := ⟨.new O.scalars numRows, ⟨replicate numRows ⟨false, false⟩⟩⟩

def resize (col : AccFirstColumn) (len : ℕ) : AccFirstColumn := ⟨col.values.resize O.scalars len, col.flags.resize len⟩

def idxMaxValue : IdxSelection → ℕ
  | .single idx => idx
  | .indices idxs => idxs.foldl max 0
  | .indicesU32 idxs => (idxs.map UInt32.toNat).foldl max 0
  | .range _ stop => stop

def ensureSize (col : AccFirstColumn) (sel : IdxSelection) : AccFirstColumn :=
  if col.values.items.length ≤ idxMaxValue sel then col.resize O (idxMaxValue sel + 1) else col

def setFirst (col : AccFirstColumn) (idx : ℕ) (value : ScalarValue) : Option AccFirstColumn :=
  (col.values.setValue O.scalars idx value).map fun values => ⟨values, ⟨col.flags.slots.set idx ⟨true, true⟩⟩⟩

/-- A row of `partial_update`. -/
def updateOne (arg : ArrayRef) (col : AccFirstColumn) (pair : ℕ × ℕ) : Option AccFirstColumn :=
  col.flags.slots[pair.1]?.bind fun flag =>
    if flag.get.isSome then some col
    else if arg.len ≤ pair.2 then none
    else col.setFirst O pair.1 (if arg.isNull pair.2 then .null else .nested (O.scalarAt arg pair.2))

def partialUpdate (col : AccFirstColumn) (accIdx : IdxSelection) (arg : ArrayRef) (argIdx : IdxSelection) :
    Option AccFirstColumn :=
  (accIdx.zipped argIdx).foldlM (updateOne O arg) (col.ensureSize O accIdx)

/-- A record of `partial_merge`: its value is taken from the other column. -/
def mergeOne (cols : AccFirstColumn × AccFirstColumn) (pair : ℕ × ℕ) : Option (AccFirstColumn × AccFirstColumn) :=
  cols.1.flags.slots[pair.1]?.bind fun flag => cols.2.flags.slots[pair.2]?.bind fun merging =>
    if flag.get.isNone ∧ merging.get.isSome then
      (cols.2.values.takeValue O.scalars pair.2).bind fun r =>
        (cols.1.setFirst O pair.1 r.1).map fun col => (col, { cols.2 with values := r.2 })
    else some cols

variable (col : AccFirstColumn)

def partialMerge (accIdx : IdxSelection) (merging : AccFirstColumn) (mergingIdx : IdxSelection) :
    Option (AccFirstColumn × AccFirstColumn) :=
  (accIdx.zipped mergingIdx).foldlM (mergeOne O) (col.ensureSize O accIdx, merging)

/-- `spill`: the bytes, and the column that is left. -/
def spill (sel : IdxSelection) : Option (Bytes × AccFirstColumn) :=
  (col.values.spill O.scalars sel).bind fun r => (col.flags.spill sel).map fun flags =>
    (r.1 ++ flags, { col with values := r.2 })

def unspill (numRows : ℕ) : ReadBytes AccFirstColumn := do
  let values ← AccScalarValueColumn.unspill O.scalars numRows
  let flags ← col.flags.unspill numRows
  pure ⟨values, flags⟩

/-- `freeze_to_arrays`: the array of the values, and that of the flags. -/
def freezeToArrays (sel : IdxSelection) : Option (ArrayRef × List AccArray) :=
  (col.values.freezeToArrays O.scalars sel).bind fun r => (col.flags.freezeToArrays sel).map fun flags => (r.1, flags)

end AccFirstColumn

/-! ### Runs -/

/-- The columns that operations lead to, with or without null rows in the input. -/
inductive FirstRun (nulls : Bool) : AccFirstColumn → Prop
  | new (numRows : ℕ) : FirstRun nulls (.new O numRows)
  | resize {col : AccFirstColumn} (len : ℕ) : FirstRun nulls col → FirstRun nulls (col.resize O len)
  | update {col col' : AccFirstColumn} {accIdx argIdx : IdxSelection} {arg : ArrayRef} : FirstRun nulls col →
      arg.dataType = dt → arg.Valid validUtf8 → (∀ i, arg.isNull i = true → nulls = true) →
      col.partialUpdate O accIdx arg argIdx = some col' → FirstRun nulls col'
  | mergeInto {col merging : AccFirstColumn} {accIdx mergingIdx : IdxSelection} {r : AccFirstColumn × AccFirstColumn} :
      FirstRun nulls col → FirstRun nulls merging → col.partialMerge O accIdx merging mergingIdx = some r →
      FirstRun nulls r.1
  | mergeFrom {col merging : AccFirstColumn} {accIdx mergingIdx : IdxSelection} {r : AccFirstColumn × AccFirstColumn} :
      FirstRun nulls col → FirstRun nulls merging → col.partialMerge O accIdx merging mergingIdx = some r →
      FirstRun nulls r.2

/-- A null, where there may be one, or an array of one row. -/
def ScalarValue.Fit (validUtf8 : Bytes → Bool) (dt : DataType) (nulls : Bool) : ScalarValue → Prop
  | null => nulls = true
  | nested a => OneRow validUtf8 dt a

/-- The records of a column fit, and each has a flag. -/
structure AccFirstColumn.Fit (validUtf8 : Bytes → Bool) (dt : DataType) (nulls : Bool) (col : AccFirstColumn) : Prop where
  values : ∀ v ∈ col.values.items, v.Fit validUtf8 dt nulls
  flags : col.flags.slots.length = col.values.items.length

variable {O} {nulls : Bool}

namespace AccFirstColumn

variable {col col' merging : AccFirstColumn}

lemma fit_new (numRows : ℕ) : (new O numRows).Fit validUtf8 dt nulls := by
  refine ⟨fun v hv => ?_, by simp [new, AccScalarValueColumn.new]⟩
  rw [eq_of_mem_replicate hv]
  exact O.oneRow_nullArray

lemma Fit.resize (h : col.Fit validUtf8 dt nulls) (len : ℕ) : (col.resize O len).Fit validUtf8 dt nulls := by
  unfold AccFirstColumn.resize AccScalarValueColumn.resize AccBooleanColumn.resize resized
  split
  case isTrue hlt =>
    refine ⟨fun v hv => ?_, ?_⟩
    · rcases mem_append.1 hv with hv | hv
      · exact h.values v hv
      · rw [eq_of_mem_replicate hv]
        exact O.oneRow_nullArray
    · have := h.flags
      simp
      omega
  case isFalse hle =>
    refine ⟨fun v hv => h.values v (mem_of_mem_take hv), ?_⟩
    simp
    omega

lemma Fit.ensureSize (h : col.Fit validUtf8 dt nulls) (sel : IdxSelection) :
    (col.ensureSize O sel).Fit validUtf8 dt nulls := by
  unfold AccFirstColumn.ensureSize
  split
  case isTrue => exact h.resize _
  case isFalse => exact h

lemma Fit.setFirst {idx : ℕ} {v : ScalarValue} (h : col.Fit validUtf8 dt nulls) (hv : v.Fit validUtf8 dt nulls)
    (hset : col.setFirst O idx v = some col') : col'.Fit validUtf8 dt nulls := by
  obtain ⟨_, hvalues, rfl⟩ := Option.map_eq_some_iff.1 hset
  obtain ⟨_, _, rfl⟩ := Option.map_eq_some_iff.1 hvalues
  refine ⟨fun w hw => ?_, by simpa using h.flags⟩
  rcases mem_or_eq_of_mem_set hw with hw | rfl
  · exact h.values w hw
  · exact hv

lemma Fit.updateOne {arg : ArrayRef} {pair : ℕ × ℕ} (h : col.Fit validUtf8 dt nulls) (htype : arg.dataType = dt)
    (hvalid : arg.Valid validUtf8) (hnulls : ∀ i, arg.isNull i = true → nulls = true)
    (hupdate : col.updateOne O arg pair = some col') : col'.Fit validUtf8 dt nulls := by
  obtain ⟨_, _, hupdate⟩ := Option.bind_eq_some_iff.1 hupdate
  split_ifs at hupdate with hflag hlen hnull
  · cases hupdate
    exact h
  · have hfit : ScalarValue.null.Fit validUtf8 dt nulls := hnulls _ hnull
    exact h.setFirst hfit hupdate
  · have hfit : (ScalarValue.nested _).Fit validUtf8 dt nulls :=
      O.oneRow_scalarAt arg _ htype hvalid (Nat.lt_of_not_le hlen)
    exact h.setFirst hfit hupdate

lemma Fit.mergeOne {cols cols' : AccFirstColumn × AccFirstColumn} {pair : ℕ × ℕ}
    (h : cols.1.Fit validUtf8 dt nulls ∧ cols.2.Fit validUtf8 dt nulls) (hmerge : mergeOne O cols pair = some cols') :
    cols'.1.Fit validUtf8 dt nulls ∧ cols'.2.Fit validUtf8 dt nulls := by
  obtain ⟨_, _, hmerge⟩ := Option.bind_eq_some_iff.1 hmerge
  obtain ⟨_, _, hmerge⟩ := Option.bind_eq_some_iff.1 hmerge
  split_ifs at hmerge
  · obtain ⟨r, htake, hmerge⟩ := Option.bind_eq_some_iff.1 hmerge
    obtain ⟨_, hset, rfl⟩ := Option.map_eq_some_iff.1 hmerge
    obtain ⟨v, hv, rfl⟩ := Option.map_eq_some_iff.1 htake
    refine ⟨h.1.setFirst (h.2.values v (mem_of_getElem? hv)) hset, fun w hw => ?_, by simpa using h.2.flags⟩
    rcases mem_or_eq_of_mem_set hw with hw | rfl
    · exact h.2.values w hw
    · exact O.oneRow_nullArray
  · cases hmerge
    exact h

end AccFirstColumn

lemma FirstRun.fit {col : AccFirstColumn} (h : FirstRun O nulls col) : col.Fit validUtf8 dt nulls := by
  induction h with
  | new numRows => exact AccFirstColumn.fit_new numRows
  | resize len _ ih => exact ih.resize len
  | update _ htype hvalid hnulls hupdate ih =>
    exact foldlM_keeps (fun _ _ _ hc h => hc.updateOne htype hvalid hnulls h) (ih.ensureSize _) hupdate
  | mergeInto _ _ hmerge ih ih' =>
    exact (foldlM_keeps (P := fun c => c.1.Fit validUtf8 dt nulls ∧ c.2.Fit validUtf8 dt nulls)
      (fun _ _ _ hc h => AccFirstColumn.Fit.mergeOne hc h) ⟨ih.ensureSize _, ih'⟩ hmerge).1
  | mergeFrom _ _ hmerge ih ih' =>
    exact (foldlM_keeps (P := fun c => c.1.Fit validUtf8 dt nulls ∧ c.2.Fit validUtf8 dt nulls)
      (fun _ _ _ hc h => AccFirstColumn.Fit.mergeOne hc h) ⟨ih.ensureSize _, ih'⟩ hmerge).2

/-! ### Spilling and freezing -/

def ScalarValue.Same : ScalarValue → ScalarValue → Prop
  | null, null => True
  | nested b, nested a => SameRows b a
  | _, _ => False

variable (O) in
/-- The selected records come back from what they were spilled to, with their flags, and freezing them gives an array of
the data type. -/
def Survives (col : AccFirstColumn) (sel : IdxSelection) : Prop :=
  (∃ vs flags bytes left back, AccScalarValueColumn.Selected col.values.items sel.toList vs
    ∧ sel.select col.flags.slots = some flags ∧ col.spill O sel = some (bytes, left)
    ∧ ((AccFirstColumn.new O 0).unspill O sel.toList.length).Parses bytes back
    ∧ Forall₂ ScalarValue.Same back.values.items vs ∧ back.flags.slots.map Slot.get = flags.map Slot.get)
  ∧ ∃ array flags, col.freezeToArrays O sel = some (array, flags) ∧ array.dataType = dt

lemma exists_roundTrips (htz : dt.noTimezone = true) {as : List ArrayRef} (h : ∀ a ∈ as, OneRow validUtf8 dt a) :
    ∃ parts ws, Forall₂ (fun v part => O.scalars.writeScalar v = some part) (as.map .nested) parts
      ∧ Forall₂ O.scalars.readScalar.Parses parts ws ∧ Forall₂ ScalarValue.Same ws (as.map .nested) := by
  induction as with
  | nil => exact ⟨[], [], .nil, .nil, .nil⟩
  | cons a as ih =>
    obtain ⟨ha, has⟩ := forall_mem_cons.1 h
    obtain ⟨parts, ws, hwrite, hread, hsame⟩ := ih has
    obtain ⟨part, b, hpart, hb, hrows⟩ := typeRoundTrips validUtf8 htz (w := .disabled) (r := .disabled)
      ha.dataType ha.valid trivial
    rw [ha.len, ha.dataType] at hb
    exact ⟨part :: parts, .nested b :: ws, .cons hpart hwrite, .cons (hb.bind_last (.pure _)) hread, .cons hrows hsame⟩

lemma exists_map_nested {vs : List ScalarValue} (h : ∀ v ∈ vs, v ≠ .null) :
    ∃ as : List ArrayRef, vs = as.map .nested := by
  induction vs with
  | nil => exact ⟨[], rfl⟩
  | cons v vs ih =>
    obtain ⟨hv, hvs⟩ := forall_mem_cons.1 h
    obtain ⟨as, rfl⟩ := ih hvs
    cases v with
    | null => exact absurd rfl hv
    | nested a => exact ⟨a :: as, rfl⟩

lemma ne_null_of_iterToArray (hdt : dt ≠ .null) {vs : List ScalarValue} (hfit : ∀ v ∈ vs, v.Fit validUtf8 dt true)
    {array : ArrayRef} (harray : O.scalars.iterToArray vs = some array) (htype : array.dataType = dt) :
    ∀ v ∈ vs, v ≠ .null := by
  cases vs with
  | nil => cases harray
  | cons v vs =>
    cases v with
    | null =>
      obtain ⟨-, heq⟩ := Option.ite_none_right_eq_some.1 harray
      cases heq
      exact absurd htype.symm hdt
    | nested a =>
      rintro w hw rfl
      have hnull : ArrayRef.null 1 ∈ a :: vs.map ScalarValue.toArray := by
        rcases mem_cons.1 hw with hw | hw
        · cases hw
        · exact mem_cons_of_mem _ (mem_map_of_mem (f := ScalarValue.toArray) hw)
      have ha : OneRow validUtf8 dt a := hfit _ mem_cons_self
      have hmixed := O.concat_mixed _ a mem_cons_self _ hnull (ha.dataType.trans_ne hdt)
      exact absurd (hmixed.symm.trans harray) (by simp)

variable {col : AccFirstColumn} {sel : IdxSelection}

lemma noTimezone_of_parses {n : ℕ} {bytes : Bytes} {back : AccFirstColumn} {a : ArrayRef} {vs : List ScalarValue}
    (ha : OneRow validUtf8 dt a) (hparses : ((AccFirstColumn.new O 0).unspill O (n + 1)).Parses bytes back)
    (hsame : Forall₂ ScalarValue.Same back.values.items (.nested a :: vs)) : dt.noTimezone = true := by
  obtain ⟨_, _, hvalues, hrest⟩ := Reads.run_bind_eq_ok.1 (hparses .other [])
  obtain ⟨_, _, -, hrest⟩ := Reads.run_bind_eq_ok.1 hrest
  cases hrest
  obtain ⟨_, _, hitems, hvalues⟩ := Reads.run_bind_eq_ok.1 hvalues
  cases hvalues
  obtain ⟨w, _, hw, hitems⟩ := Reads.run_bind_eq_ok.1 hitems
  obtain ⟨_, _, -, hitems⟩ := Reads.run_bind_eq_ok.1 hitems
  cases hitems
  obtain ⟨b, _, hb, hw⟩ := Reads.run_bind_eq_ok.1 hw
  cases hw
  have hrows : SameRows b a := (forall₂_cons.1 hsame).1
  exact noTimezone_of_readArray validUtf8 dt hb (hrows.dataType.trans ha.dataType)

lemma Survives.exists_record (h : Survives O col sel) :
    sel.toList ≠ [] ∧ ∀ i ∈ sel.toList, i < col.values.items.length := by
  obtain ⟨⟨vs, _, _, _, _, hvs, -⟩, array, _, hfrozen, -⟩ := h
  refine ⟨fun hnil => ?_, fun i hi => ?_⟩
  · unfold AccFirstColumn.freezeToArrays AccScalarValueColumn.freezeToArrays at hfrozen
    rw [hnil] at hfrozen
    cases hfrozen
  · have hmem := mem_map_of_mem (f := fun i => col.values.items[i]?) hi
    rw [mapM_eq_some_iff.1 (mapM_eq_some_iff_forall₂.2 hvs)] at hmem
    obtain ⟨v, -, hv⟩ := mem_map.1 hmem
    exact (List.getElem?_eq_some_iff.1 hv.symm).1

section Selection

variable (hrun : FirstRun O true col) (hnodup : sel.toList.Nodup)

include hrun hnodup

lemma exists_selected (hin : ∀ i ∈ sel.toList, i < col.values.items.length) :
    ∃ vs flags, AccScalarValueColumn.Selected col.values.items sel.toList vs ∧
      sel.select col.flags.slots = some flags ∧ (∀ v ∈ vs, v.Fit validUtf8 dt true) ∧
      col.freezeToArrays O sel = (O.scalars.iterToArray vs).map fun array =>
        (array, [AccArray.fromBools (flags.map Slot.get)]) := by
  have hfit := hrun.fit
  obtain ⟨vs, hvs⟩ := exists_mapM (f := fun i => col.values.items[i]?) fun i hi => ⟨_, getElem?_eq_getElem (hin i hi)⟩
  obtain ⟨flags, hflags⟩ := exists_mapM (f := fun i => col.flags.slots[i]?) fun i hi =>
    ⟨_, getElem?_eq_getElem ((hin i hi).trans_eq hfit.flags.symm)⟩
  have hsel : AccScalarValueColumn.Selected col.values.items sel.toList vs := mapM_eq_some_iff_forall₂.1 hvs
  refine ⟨vs, flags, hsel, hflags, fun v hv => hfit.values v (AccColumn.mem_of_select hvs v hv), ?_⟩
  obtain ⟨left, hreplaced⟩ : ∃ left, AccScalarValueColumn.replaced O.scalars.nullValue sel.toList col.values.items =
      some (vs, left) := AccScalarValueColumn.replaced_of_nodup hnodup hsel
  show Option.bind (Option.bind (AccScalarValueColumn.replaced _ _ _) _) _ = _
  rw [hreplaced, Option.bind_some, AccBooleanColumn.freezeToArrays, IdxSelection.select, hflags]
  cases O.scalars.iterToArray vs <;> rfl

lemma nested_of_survives (hdt : dt ≠ .null) (h : Survives O col sel) :
    dt.noTimezone = true ∧ sel.toList ≠ [] ∧ ∀ i ∈ sel.toList, ∃ a, col.values.items[i]? = some (.nested a) := by
  obtain ⟨hne, hin⟩ := h.exists_record
  obtain ⟨vs, flags, hsel, -, hvsfit, hfreeze⟩ := exists_selected hrun hnodup hin
  obtain ⟨⟨vs', _, _, left, _, hvs', -, -, hparses, hsame, -⟩, array, _, hfrozen, htype⟩ := h
  rw [hfreeze] at hfrozen
  obtain ⟨array, harray, heq⟩ := Option.map_eq_some_iff.1 hfrozen
  cases heq
  obtain rfl : vs = vs' := by
    rw [AccScalarValueColumn.Selected, ← mapM_eq_some_iff_forall₂] at hsel hvs'
    exact Option.some.inj (hsel.symm.trans hvs')
  obtain ⟨as, rfl⟩ := exists_map_nested (ne_null_of_iterToArray hdt hvsfit harray htype)
  have hlen := hsel.length_eq
  refine ⟨?_, hne, fun i hi => ?_⟩
  · cases as with
    | nil => exact absurd (length_eq_zero_iff.1 hlen) hne
    | cons a as =>
      rw [hlen, length_map] at hparses
      exact noTimezone_of_parses (hvsfit _ mem_cons_self) hparses hsame
  · obtain ⟨v, hv, hget⟩ := exists_right_of_forall₂ hsel hi
    obtain ⟨a, -, rfl⟩ := mem_map.1 hv
    exact ⟨a, hget⟩

lemma survives_of_nested (hfits : ∀ as : List ArrayRef,
      AccScalarValueColumn.Selected col.values.items sel.toList (as.map .nested) → O.Fits as)
    (htz : dt.noTimezone = true) (hne : sel.toList ≠ [])
    (hnested : ∀ i ∈ sel.toList, ∃ a, col.values.items[i]? = some (.nested a)) : Survives O col sel := by
  have hin : ∀ i ∈ sel.toList, i < col.values.items.length := fun i hi => by
    obtain ⟨_, ha⟩ := hnested i hi
    exact (List.getElem?_eq_some_iff.1 ha).1
  obtain ⟨vs, flags, hsel, hflags, hvsfit, hfreeze⟩ := exists_selected hrun hnodup hin
  obtain ⟨as, rfl⟩ : ∃ as : List ArrayRef, vs = as.map .nested := by
    refine exists_map_nested fun v hv hnull => ?_
    obtain ⟨i, hi, hv⟩ := hsel.mem_iff.1 hv
    obtain ⟨a, ha⟩ := hnested i hi
    rw [ha, hnull] at hv
    cases hv
  have has : ∀ a ∈ as, OneRow validUtf8 dt a := fun a ha => hvsfit _ (mem_map_of_mem ha)
  obtain ⟨_, ws, hwrite, hread, hsame⟩ := exists_roundTrips htz has
  obtain ⟨left, hspill⟩ := AccScalarValueColumn.spillAll_of_nodup hnodup hsel hwrite
  obtain ⟨backFlags, hbackFlags, hget⟩ := AccBooleanColumn.parses_unspill flags
  have hlen : ws.length = sel.toList.length := hsame.length_eq.trans hsel.length_eq.symm
  have hvalues := AccScalarValueColumn.parses_unspill hread
  rw [hlen] at hvalues
  rw [length_of_mapM hflags] at hbackFlags
  refine ⟨⟨_, flags, _, ⟨left, col.flags⟩, ⟨_, backFlags⟩, hsel, hflags, ?_,
    hvalues.bind (hbackFlags.bind_last (.pure _)), hsame, hget⟩, ?_⟩
  · show Option.bind (AccScalarValueColumn.spillAll _ _ _) _ = _
    rw [hspill, AccBooleanColumn.spill, hflags]
    rfl
  · cases as with
    | nil => exact absurd (length_eq_zero_iff.1 hsel.length_eq) hne
    | cons a as =>
      have htypes : ∀ b ∈ a :: as, b.dataType = dt := fun b hb => (has b hb).dataType
      obtain ⟨array, harray, htype⟩ := O.concat_same (a :: as) (cons_ne_nil _ _) htypes (hfits _ hsel)
      refine ⟨array, [.fromBools (flags.map Slot.get)], hfreeze.trans ?_, htype⟩
      have hmap : (as.map ScalarValue.nested).map ScalarValue.toArray = as := by
        simp [Function.comp_def, ScalarValue.toArray]
      show Option.map _ (O.concat (a :: (as.map ScalarValue.nested).map ScalarValue.toArray)) = _
      rw [hmap, harray]
      rfl

end Selection

/-- **Some records of a column, none of them twice, are spilled and frozen as they should be exactly if no type has a time
zone, there are some, and each is there and not the null without a type**, which no record is if no row of the input was
null. -/
theorem first_survives_iff (hdt : dt ≠ .null) (hrun : FirstRun O true col) (hnodup : sel.toList.Nodup)
    (hfits : ∀ as : List ArrayRef,
      AccScalarValueColumn.Selected col.values.items sel.toList (as.map .nested) → O.Fits as) :
    (Survives O col sel ↔ dt.noTimezone = true ∧ sel.toList ≠ [] ∧
        ∀ i ∈ sel.toList, ∃ a, col.values.items[i]? = some (.nested a))
      ∧ (FirstRun O false col → ∀ v ∈ col.values.items, v ≠ .null) := by
  refine ⟨⟨nested_of_survives hrun hnodup hdt, fun ⟨htz, hne, hnested⟩ => ?_⟩, ?_⟩
  · exact survives_of_nested hrun hnodup hfits htz hne hnested
  · rintro hfree v hv rfl
    exact absurd (hfree.fit.values _ hv) (by simp [ScalarValue.Fit])

end Model

/-! ### Structs of one boolean -/

def boolStruct : DataType := .struct (.cons "a" true .boolean .nil)

def nullStruct : ArrayRef :=
  .struct 1 (.cons "a" true (.boolean ⟨[0], 0, 1⟩ (some ⟨[0], 0, 1⟩)) .nil) (some ⟨[0], 0, 1⟩)

/-- One row, the struct of `true`. -/
def trueStruct : ArrayRef := .struct 1 (.cons "a" true (.boolean ⟨[1], 0, 1⟩ none) .nil) none

lemma holds_byte (b : UInt8) : (⟨[b], 0, 1⟩ : BitBuffer).Holds 1 := by simp [BitBuffer.Holds]

lemma valid_nullStruct : nullStruct.Valid fun _ => true :=
  ⟨by rintro _ ⟨⟩; exact holds_byte 0, ⟨rfl, trivial⟩, ⟨holds_byte 0, by rintro _ ⟨⟩; exact holds_byte 0⟩, nofun, trivial⟩

lemma valid_trueStruct : trueStruct.Valid fun _ => true :=
  ⟨nofun, ⟨rfl, trivial⟩, ⟨holds_byte 1, nofun⟩, nofun, trivial⟩

/-- A row is a slice; a concatenation, of which only the type is used, has the type of the first array. -/
def structOps : NestedOps (fun _ => true) boolStruct where
  nullArray := nullStruct
  scalarAt a i := a.slice i 1
  memSize := ArrayRef.len
  concat as := as.head?.bind fun a => if ∀ b ∈ as, b.dataType = a.dataType then some a else none
  Fits _ := True
  oneRow_nullArray := ⟨rfl, rfl, valid_nullStruct⟩
  oneRow_scalarAt a i htype hvalid hi :=
    ⟨(a.dataType_slice i 1).trans htype, a.len_slice hvalid hi, a.valid_slice hvalid hi⟩
  concat_same := by
    rintro (_ | ⟨a, as⟩) hne htypes -
    · exact absurd rfl hne
    · have ha := htypes a mem_cons_self
      exact ⟨a, if_pos fun b hb => (htypes b hb).trans ha.symm, ha⟩
  concat_mixed := by
    rintro (_ | ⟨c, as⟩) a ha b hb hne
    · cases ha
    · exact if_neg fun h => hne ((h a ha).trans (h b hb).symm)

theorem first_survives_bool : ∃ col,
    (AccFirstColumn.new structOps 1).partialUpdate structOps (.single 0) trueStruct (.single 0) = some col
      ∧ Survives structOps col (.single 0) := by
  refine ⟨_, rfl, Iff.mpr (And.left (first_survives_iff (by decide)
    (.update (.new 1) rfl valid_trueStruct (fun _ _ => rfl)
      (show AccFirstColumn.partialUpdate _ _ (.single 0) _ (.single 0) = _ from rfl)) (by decide) fun _ _ => trivial))
    ⟨rfl, by decide, ?_⟩⟩
  rintro i hi
  obtain rfl : i = 0 := mem_singleton.1 hi
  exact ⟨_, rfl⟩

/-- A null row is written as one byte, which with the byte of the flag is no struct, and frozen without a type. -/
theorem first_null_lost : ∃ col,
    (AccFirstColumn.new structOps 1).partialUpdate structOps (.single 0) nullStruct (.single 0) = some col
      ∧ (∃ left, col.spill structOps (.single 0) = some ([0, 2], left))
      ∧ (∀ back, ¬ ((AccFirstColumn.new structOps 0).unspill structOps 1).Parses [0, 2] back)
      ∧ (∃ flags, col.freezeToArrays structOps (.single 0) = some (.null 1, flags))
      ∧ ¬ Survives structOps col (.single 0) := by
  refine ⟨_, rfl, ⟨_, rfl⟩, fun back h => ?_, ⟨_, rfl⟩, ?_⟩
  · exact absurd (h .other []) nofun
  · rintro ⟨-, _, _, hfreeze, htype⟩
    cases hfreeze
    cases htype

end Auron.Agg
