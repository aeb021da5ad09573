import Auron.Agg.AccFreeze

/-!
# Columns of all kinds

`AccColumn` is a column of any kind and `AccRecord` what it keeps for one group.  What a column spills it reads back, and
what it freezes it takes back, also from slices of the arrays; sets exactly when their bytes have each value once.
-/

namespace Auron.Agg

open Auron.Io Auron.Io.BatchSerde Auron.Lib List AccArray
open Option (bind_some map_some)

/-! ### Columns of all kinds -/

/-- `AccColumnRef`: the columns of collections have a data type. -/
inductive AccColumn (D : Type) where
  | boolean (col : AccBooleanColumn)
  | prim (width : ℕ) (col : AccPrimColumn width)
  | bytes (isUtf8 : Bool) (col : AccBytesColumn)
  | count (col : AccCountColumn)
  | avg (width : ℕ) (col : AccAvgColumn width)
  | list (d : D) (col : AccListColumn)
  | set (d : D) (col : AccSetColumn)
  | bloomFilter (col : AccBloomFilterColumn)

/-- What a column keeps for one group; a collection keeps the encodings of its values. -/
inductive AccRecord where
  | boolean (value : Option Bool)
  | prim (value : Option Bytes)
  | bytes (value : Option Bytes)
  | count (value : BitVec 64)
  | avg (sum : Option Bytes) (count : BitVec 64)
  | list (raw : Bytes)
  | set (raw : Bytes)
  | bloomFilter (filter : Option SparkBloomFilter)
  deriving DecidableEq

namespace AccColumn

variable {D : Type} {V : D → Type} (E : CollectEnv) (C : ∀ d, ScalarCodec (V d)) (validUtf8 : Bytes → Bool)

def records : AccColumn D → List AccRecord
  | boolean col => col.slots.map fun s => .boolean s.get
  | prim _ col => col.slots.map fun s => .prim (s.get.map Subtype.val)
  | bytes _ col => col.items.map fun item => .bytes (item.map AccBytes.bytes)
  | count col => col.values.map .count
  | avg _ col => zipWith (fun s v => .avg (s.get.map Subtype.val) v) col.sum.slots col.count.values
  | list _ col => col.list.map fun l => .list l.raw
  | set _ col => col.set.map fun s => .set s.list.raw
  | bloomFilter col => col.bloomFilters.map .bloomFilter

/-- `create_acc_column` of the same kind, without records. -/
def empty : AccColumn D → AccColumn D
  | boolean _ => boolean ⟨[]⟩
  | prim width _ => prim width ⟨[]⟩
  | bytes isUtf8 _ => bytes isUtf8 (.new 0)
  | count _ => count ⟨[]⟩
  | avg width _ => avg width ⟨⟨[]⟩, ⟨[]⟩⟩
  | list d _ => list d .empty
  | set d _ => set d .empty
  | bloomFilter _ => bloomFilter ⟨[]⟩

def spill (sel : IdxSelection) : AccColumn D → Option Bytes
  | boolean col => col.spill sel
  | prim _ col => col.spill sel
  | bytes _ col => col.spill sel
  | count col => col.spill sel
  | avg _ col => col.spill sel
  | list _ col => col.spill sel
  | set _ col => col.spill sel
  | bloomFilter col => col.spill sel

def unspill (numRows : ℕ) : AccColumn D → ReadBytes (AccColumn D)
  | boolean col => do let col ← col.unspill numRows; pure (boolean col)
  | prim width col => do let col ← col.unspill numRows; pure (prim width col)
  | bytes isUtf8 col => do let col ← col.unspill numRows; pure (bytes isUtf8 col)
  | count col => do let col ← col.unspill numRows; pure (count col)
  | avg width col => do let col ← col.unspill numRows; pure (avg width col)
  | list d col => do let col ← col.unspill numRows; pure (list d col)
  | set d col => do let col ← col.unspill E (C d) numRows; pure (set d col)
  | bloomFilter col => do let col ← col.unspill numRows; pure (bloomFilter col)

def freezeToArrays (sel : IdxSelection) : AccColumn D → Option (List AccArray)
  | boolean col => col.freezeToArrays sel
  | prim _ col => col.freezeToArrays sel
  | bytes isUtf8 col => col.freezeToArrays validUtf8 isUtf8 sel
  | count col => col.freezeToArrays sel
  | avg _ col => col.freezeToArrays sel
  | list _ col => col.freezeToArrays sel
  | set _ col => col.freezeToArrays sel
  | bloomFilter col => col.freezeToArrays sel

def unfreezeFromArrays (arrays : List AccArray) : AccColumn D → Option (AccColumn D)
  | boolean _ => (AccBooleanColumn.unfreezeFromArrays arrays).map boolean
  | prim width _ => (AccPrimColumn.unfreezeFromArrays arrays).map (prim width)
  | bytes isUtf8 _ => (AccBytesColumn.unfreezeFromArrays arrays).map (bytes isUtf8)
  | count _ => (AccCountColumn.unfreezeFromArrays arrays).map count
  | avg width _ => (AccAvgColumn.unfreezeFromArrays arrays).map (avg width)
  | list d col => (col.unfreezeFromArrays arrays).map (list d)
  | set d col => (col.unfreezeFromArrays E (C d) arrays).map (set d)
  | bloomFilter col => (col.unfreezeFromArrays arrays).map bloomFilter

/-- What holds of the columns of a table: no vector is longer than `isize::MAX`, strings are valid, sums and counts go
together, filters were made by the operations on filters, and the bytes of sets are encodings of values. -/
def Sound : AccColumn D → Prop
  | boolean _ => True
  | prim _ _ => True
  | bytes isUtf8 col => ∀ item ∈ col.items, ∀ v ∈ item,
      v.bytes.length < 2 ^ 63 ∧ (isUtf8 = true → validUtf8 v.bytes = true)
  | count _ => True
  | avg _ col => col.sum.slots.length = col.count.values.length
  | list _ col => ∀ l ∈ col.list, l.raw.length < 2 ^ 63
  | set d col => ∀ s ∈ col.set, Encoded (C d) s.list.raw
  | bloomFilter col => ∀ filter ∈ col.bloomFilters, ∀ f ∈ filter, MadeFilter f

/-- The bytes of a set have each value once. -/
def Distinct : AccColumn D → AccRecord → Prop
  | set d _, .set raw => EachOnce (C d) raw
  | _, _ => True

/-! ### Selections -/

variable {α : Type} {sel : IdxSelection} {xs : List α}

lemma select_map {β : Type} {f : α → β} {ys : List β} (h : sel.select (xs.map f) = some ys) :
    ∃ zs, sel.select xs = some zs ∧ ys = zs.map f := by
  unfold IdxSelection.select at h ⊢
  generalize sel.toList = is at h ⊢
  induction is generalizing ys with
  | nil =>
    cases h
    exact ⟨[], rfl, rfl⟩
  | cons i is ih =>
    obtain ⟨y, _, hy, hys', rfl⟩ := mapM_cons_eq_some.1 h
    rw [getElem?_map] at hy
    obtain ⟨z, hz, rfl⟩ := Option.map_eq_some_iff.1 hy
    obtain ⟨zs, hzs, rfl⟩ := ih hys'
    exact ⟨z :: zs, mapM_cons_eq_some.2 ⟨z, zs, hz, hzs, rfl⟩, rfl⟩

lemma select_zipWith {β γ : Type} {f : α → β → γ} {ys : List β} {zs : List γ}
    (h : sel.select (zipWith f xs ys) = some zs) :
    ∃ ps : List (α × β), sel.select xs = some (ps.map Prod.fst) ∧ sel.select ys = some (ps.map Prod.snd) ∧
      zs = ps.map fun p => f p.1 p.2 := by
  rw [← map_uncurry_zip_eq_zipWith] at h
  obtain ⟨ps, hps, rfl⟩ := select_map h
  have hget := mapM_eq_some_iff_forall₂.1 hps
  refine ⟨ps, mapM_eq_some_iff_forall₂.2 ?_, mapM_eq_some_iff_forall₂.2 ?_, rfl⟩
  · exact forall₂_map_right_iff.2 (hget.imp fun i p hp => (getElem?_zip_eq_some.1 hp).1)
  · exact forall₂_map_right_iff.2 (hget.imp fun i p hp => (getElem?_zip_eq_some.1 hp).2)

lemma mem_select_iff {ys : List α} (h : sel.select xs = some ys) (y : α) :
    y ∈ ys ↔ ∃ i ∈ sel.toList, xs[i]? = some y := by
  have hmem := congrArg (some y ∈ ·) (mapM_eq_some_iff.1 h)
  simpa using hmem.symm

lemma mem_of_select {ys : List α} (h : sel.select xs = some ys) : ∀ y ∈ ys, y ∈ xs := by
  intro y hy
  obtain ⟨i, -, hi⟩ := (mem_select_iff h y).1 hy
  exact mem_of_getElem? hi

lemma mapM_saveRaw {f : α → Bytes} {ys : List α} (h : sel.select xs = some ys) :
    sel.toList.mapM (fun i => xs[i]?.map f) = some (ys.map f) := by
  rw [mapM_eq_some_iff_forall₂, forall₂_map_right_iff]
  refine (mapM_eq_some_iff_forall₂.1 h).imp fun i y hy => ?_
  rw [hy, map_some]

lemma map_of_map_eq_cutAll {β γ δ : Type} (cuts : List (ℕ × ℕ)) {g : α → β} {h : δ → β} {ys : List δ}
    (hmap : xs.map g = cutAll cuts (ys.map h)) (f : β → γ) :
    (xs.map fun x => f (g x)) = cutAll cuts (ys.map fun y => f (h y)) := by
  have hf := congrArg (map f) hmap
  rwa [map_map, ← cutAll_map, map_map] at hf

/-! ### Spilling -/

variable {E C validUtf8}

variable (E C) in
/-- A column spills some records to bytes that are read back, whatever comes behind: as they were if they are distinct. -/
def SpillsBack (col : AccColumn D) (sel : IdxSelection) (recs : List AccRecord) : Prop :=
  ∃ bytes col', col.spill sel = some bytes ∧ (col.empty.unspill E C recs.length).Parses bytes col'
    ∧ (col'.records = recs ↔ ∀ r ∈ recs, col.Distinct C r)

variable {recs : List AccRecord}

lemma SpillsBack.of_parses {col : AccColumn D} (col' : AccColumn D) {n : ℕ} {bytes : Bytes} (hn : recs.length = n)
    (hparses : (col.empty.unspill E C n).Parses bytes col') (hspill : col.spill sel = some bytes)
    (hrecs : col'.records = recs) (hdistinct : ∀ r, col.Distinct C r) : SpillsBack E C col sel recs := by
  subst hn
  exact ⟨bytes, col', hspill, hparses, iff_of_true hrecs fun r _ => hdistinct r⟩

lemma spillsBack_boolean (col : AccBooleanColumn)
    (hsel : sel.select (boolean col : AccColumn D).records = some recs) :
    SpillsBack E C (boolean col) sel recs := by
  obtain ⟨slots, hslots, rfl⟩ := select_map hsel
  obtain ⟨col', hparses, hget⟩ := AccBooleanColumn.parses_unspill slots
  refine .of_parses (boolean col') (length_map _) (hparses.bind_last (.pure _)) ?_
    (map_of_map_eq_cutAll [] hget AccRecord.boolean) fun _ => trivial
  show (sel.select col.slots).map _ = _
  rw [hslots, map_some]

variable {width : ℕ}

lemma spillsBack_prim (col : AccPrimColumn width)
    (hsel : sel.select (prim width col : AccColumn D).records = some recs) (hlen : recs.length < 2 ^ 64) :
    SpillsBack E C (prim width col) sel recs := by
  obtain ⟨_, hslots, rfl⟩ := select_map hsel
  rw [length_map] at hlen
  obtain ⟨col', hparses, hget⟩ := AccPrimColumn.parses_unspill hlen
  refine .of_parses (prim width col') (length_map _) (hparses.bind_last (.pure _)) ?_
    (map_of_map_eq_cutAll [] hget fun x => AccRecord.prim (x.map Subtype.val)) fun _ => trivial
  show (sel.select col.slots).map _ = _
  rw [hslots, map_some]

lemma spillsBack_bytes {isUtf8 : Bool} {col : AccBytesColumn} (h : (bytes isUtf8 col).Sound C validUtf8)
    (hsel : sel.select (bytes isUtf8 col : AccColumn D).records = some recs) :
    SpillsBack E C (bytes isUtf8 col) sel recs := by
  obtain ⟨items, hitems, rfl⟩ := select_map hsel
  have hparses := AccBytesColumn.parses_unspill fun item hitem v hv => (h item (mem_of_select hitems item hitem) v hv).1
  refine .of_parses _ (length_map _) (hparses.bind_last (.pure _)) ?_ ?_ fun _ => trivial
  · show (sel.select col.items).map _ = _
    rw [hitems, map_some]
  · show ((items.map AccBytesColumn.reload).map _) = _
    rw [map_map]
    refine map_congr_left fun item _ => ?_
    cases item <;> rfl

lemma spillsBack_count (col : AccCountColumn) (hsel : sel.select (count col : AccColumn D).records = some recs) :
    SpillsBack E C (count col) sel recs := by
  obtain ⟨values, hvalues, rfl⟩ := select_map hsel
  refine .of_parses _ (length_map _) ((AccCountColumn.parses_unspill values).bind_last (.pure _)) ?_ rfl fun _ => trivial
  show (sel.select col.values).map _ = _
  rw [hvalues, map_some]

lemma zipWith_avg {slots : List (Slot (Native width))} {ps : List (Slot (Native width) × BitVec 64)}
    (h : slots.map Slot.get = (ps.map Prod.fst).map Slot.get) :
    zipWith (fun s v => AccRecord.avg (s.get.map Subtype.val) v) slots (ps.map Prod.snd) =
      ps.map fun p => .avg (p.1.get.map Subtype.val) p.2 := by
  have hzip := congrArg (zipWith (fun x v => AccRecord.avg (x.map Subtype.val) v) · (ps.map Prod.snd)) h
  rwa [zipWith_map_left, map_map, zipWith_map, zipWith_self] at hzip

lemma spillsBack_avg (col : AccAvgColumn width)
    (hsel : sel.select (avg width col : AccColumn D).records = some recs) (hlen : recs.length < 2 ^ 64) :
    SpillsBack E C (avg width col) sel recs := by
  obtain ⟨ps, hslots, hvalues, rfl⟩ := select_zipWith hsel
  rw [length_map, ← length_map Prod.fst] at hlen
  obtain ⟨sum, hparses, hget⟩ := AccPrimColumn.parses_unspill hlen
  have hparses' := AccCountColumn.parses_unspill (ps.map Prod.snd)
  rw [length_map, ← length_map Prod.fst] at hparses'
  have hboth : ((⟨⟨[]⟩, ⟨[]⟩⟩ : AccAvgColumn width).unspill _).Parses _ ⟨sum, ⟨ps.map Prod.snd⟩⟩ :=
    hparses.bind (Reads.Parses.bind_last hparses' (.pure _))
  refine .of_parses (avg width ⟨sum, ⟨ps.map Prod.snd⟩⟩) (by simp) (hboth.bind_last (.pure _)) ?_ (zipWith_avg hget)
    fun _ => trivial
  show (((sel.select col.sum.slots).map _).bind fun sum => ((sel.select col.count.values).map _).bind _) = _
  rw [hslots, hvalues, map_some, map_some]
  rfl

lemma spillsBack_list {d : D} {col : AccListColumn} (h : (list d col).Sound C validUtf8)
    (hsel : sel.select (list d col).records = some recs) : SpillsBack E C (list d col) sel recs := by
  obtain ⟨ls, hls, rfl⟩ := select_map hsel
  have hsmall : ∀ raw ∈ ls.map AccList.raw, raw.length < 2 ^ 63 := by
    intro _ hraw
    obtain ⟨l, hl, rfl⟩ := mem_map.1 hraw
    exact h l (mem_of_select hls l hl)
  obtain ⟨col', hparses, hraws⟩ := AccListColumn.parses_unspill hsmall
  rw [length_map] at hparses
  refine .of_parses (list d col') (length_map _) (hparses.bind_last (.pure _)) ?_
    (map_of_map_eq_cutAll [] hraws AccRecord.list) fun _ => trivial
  show (sel.toList.mapM fun i => col.list[i]?.map _).map _ = _
  rw [mapM_saveRaw hls, flatMap_map]
  rfl

lemma distinct_set_iff {d : D} (col : AccSetColumn) {col' : AccSetColumn} {raws : List Bytes}
    (h : (col'.set.map fun s => s.list.raw) = raws ↔ ∀ raw ∈ raws, EachOnce (C d) raw) :
    (set d col').records = raws.map AccRecord.set ↔ ∀ r ∈ raws.map AccRecord.set, (set d col).Distinct C r := by
  rw [forall_mem_map]
  refine Iff.trans ?_ h
  show col'.set.map (AccRecord.set ∘ fun s => s.list.raw) = _ ↔ _
  rw [← map_map]
  exact (map_injective_iff.2 fun _ _ => AccRecord.set.inj).eq_iff

lemma spillsBack_set {d : D} {col : AccSetColumn} (h : (set d col).Sound C validUtf8)
    (hsel : sel.select (set d col).records = some recs) (hsmall : ∀ raw, .set raw ∈ recs → raw.length < 2 ^ 32) :
    SpillsBack E C (set d col) sel recs := by
  obtain ⟨ss, hss, rfl⟩ := select_map hsel
  obtain ⟨col', hparses, hraws⟩ := AccSetColumn.parses_unspill (E := E) (C := C d) (ss.map fun s => s.list.raw)
    (forall_mem_map.2 fun s hs => h s (mem_of_select hss s hs))
    (forall_mem_map.2 fun s hs => hsmall _ (mem_map_of_mem hs))
  have hiff := distinct_set_iff col hraws
  rw [map_map] at hiff
  rw [length_map] at hparses
  refine ⟨(ss.map fun s => s.list.raw).flatMap rawRow, set d col', ?_, ?_, hiff⟩
  · show (sel.toList.mapM fun i => col.set[i]?.map _).map _ = _
    rw [mapM_saveRaw hss, flatMap_map]
    rfl
  · rw [length_map]
    exact hparses.bind_last (.pure _)

lemma spillsBack_bloomFilter {col : AccBloomFilterColumn} (h : (bloomFilter col).Sound C validUtf8)
    (hsel : sel.select (bloomFilter col : AccColumn D).records = some recs) :
    SpillsBack E C (bloomFilter col) sel recs := by
  obtain ⟨filters, hfilters, rfl⟩ := select_map hsel
  have hparses := AccBloomFilterColumn.parses_unspill fun filter hfilter f hf =>
    (h filter (mem_of_select hfilters filter hfilter) f hf).reloads
  refine .of_parses _ (length_map _) (hparses.bind_last (.pure _)) ?_ rfl fun _ => trivial
  show (sel.select col.bloomFilters).map _ = _
  rw [hfilters, map_some]

/-- **What a column spills it reads back**, sets if their bytes have each value once. -/
theorem Sound.spillsBack {col : AccColumn D} (h : col.Sound C validUtf8) (hsel : sel.select col.records = some recs)
    (hlen : recs.length < 2 ^ 64) (hsmall : ∀ raw, .set raw ∈ recs → raw.length < 2 ^ 32) : SpillsBack E C col sel recs := by
  cases col with
  | boolean col => exact spillsBack_boolean col hsel
  | prim width col => exact spillsBack_prim col hsel hlen
  | bytes isUtf8 col => exact spillsBack_bytes h hsel
  | count col => exact spillsBack_count col hsel
  | avg width col => exact spillsBack_avg col hsel hlen
  | list d col => exact spillsBack_list h hsel
  | set d col => exact spillsBack_set h hsel hsmall
  | bloomFilter col => exact spillsBack_bloomFilter h hsel

end AccColumn

/-! ### Freezing -/

def AccRecord.frozenSize : AccRecord → ℕ
  | bytes value => (value.getD []).length
  | list raw => (rawRow raw).length
  | set raw => (rawRow raw).length
  | bloomFilter filter => ((filter.map SparkBloomFilter.writeTo).getD []).length
  | _ => 0

namespace AccColumn

variable {D : Type} {V : D → Type} {E : CollectEnv} {C : ∀ d, ScalarCodec (V d)} {validUtf8 : Bytes → Bool}

variable (E C validUtf8) in
/-- A column freezes some records to arrays that are taken back, and so are their slices: as they were if they are
distinct. -/
def FreezesBack (col : AccColumn D) (sel : IdxSelection) (recs : List AccRecord) : Prop :=
  ∃ arrays, col.freezeToArrays validUtf8 sel = some arrays ∧ ∀ cuts, CutsFit recs.length cuts →
    ∃ col', col.empty.unfreezeFromArrays E C (arrays.map (·.sliceAll cuts)) = some col'
      ∧ (col'.records = cutAll cuts recs ↔ ∀ r ∈ cutAll cuts recs, col.Distinct C r)

variable {sel : IdxSelection} {recs : List AccRecord}

lemma freezesBack_boolean (col : AccBooleanColumn)
    (hsel : sel.select (boolean col : AccColumn D).records = some recs) :
    FreezesBack E C validUtf8 (boolean col) sel recs := by
  obtain ⟨slots, hslots, rfl⟩ := select_map hsel
  refine ⟨[.fromBools (slots.map Slot.get)], ?_, fun cuts hcuts => ?_⟩
  · show (sel.select col.slots).map _ = _
    rw [hslots, map_some]
  · rw [length_map] at hcuts
    obtain ⟨col', hcol', hget⟩ := AccBooleanColumn.unfreeze_sliceAll slots hcuts
    exact ⟨boolean col', congrArg (Option.map boolean) hcol',
      iff_of_true (map_of_map_eq_cutAll cuts hget AccRecord.boolean) fun _ _ => trivial⟩

lemma freezesBack_prim {width : ℕ} (col : AccPrimColumn width)
    (hsel : sel.select (prim width col : AccColumn D).records = some recs) :
    FreezesBack E C validUtf8 (prim width col) sel recs := by
  obtain ⟨slots, hslots, rfl⟩ := select_map hsel
  refine ⟨[.fromNatives width (slots.map fun s => s.get.map Subtype.val)], ?_, fun cuts hcuts => ?_⟩
  · show (sel.select col.slots).map _ = _
    rw [hslots, map_some]
  · rw [length_map] at hcuts
    obtain ⟨col', hcol', hget⟩ := AccPrimColumn.unfreeze_sliceAll slots hcuts
    exact ⟨prim width col', congrArg (Option.map (prim width)) hcol',
      iff_of_true (map_of_map_eq_cutAll cuts hget fun x => AccRecord.prim (x.map Subtype.val)) fun _ _ => trivial⟩

lemma freezesBack_count (col : AccCountColumn) (hsel : sel.select (count col : AccColumn D).records = some recs) :
    FreezesBack E C validUtf8 (count col) sel recs := by
  obtain ⟨values, hvalues, rfl⟩ := select_map hsel
  refine ⟨[.fromNatives 8 (values.map fun v => some (i64Bytes v).1)], ?_, fun cuts hcuts => ?_⟩
  · show (sel.select col.values).map _ = _
    rw [hvalues, map_some]
  · rw [length_map] at hcuts
    exact ⟨count ⟨cutAll cuts values⟩, congrArg (Option.map count) (AccCountColumn.unfreeze_sliceAll values hcuts),
      iff_of_true (cutAll_map _ cuts values).symm fun _ _ => trivial⟩

lemma freezesBack_avg {width : ℕ} (col : AccAvgColumn width)
    (hsel : sel.select (avg width col : AccColumn D).records = some recs) :
    FreezesBack E C validUtf8 (avg width col) sel recs := by
  obtain ⟨ps, hslots, hvalues, rfl⟩ := select_zipWith hsel
  refine ⟨[.fromNatives width ((ps.map Prod.fst).map fun s => s.get.map Subtype.val),
    .fromNatives 8 ((ps.map Prod.snd).map fun v => some (i64Bytes v).1)], ?_, fun cuts hcuts => ?_⟩
  · show (((sel.select col.sum.slots).map _).bind fun sum => ((sel.select col.count.values).map _).bind _) = _
    rw [hslots, hvalues, map_some, map_some]
    rfl
  · rw [length_map] at hcuts
    obtain ⟨sum, hsum, hget⟩ := AccPrimColumn.unfreeze_sliceAll (ps.map Prod.fst) (by rwa [length_map])
    have hcount := AccCountColumn.unfreeze_sliceAll (ps.map Prod.snd) (by rwa [length_map])
    rw [cutAll_map] at hcount
    refine ⟨avg width ⟨sum, ⟨(cutAll cuts ps).map Prod.snd⟩⟩, ?_, iff_of_true ?_ fun _ _ => trivial⟩
    · show ((AccPrimColumn.unfreezeFromArrays [sliceAll cuts _]).bind fun sum =>
        (AccCountColumn.unfreezeFromArrays [sliceAll cuts _]).bind _).map (avg width) = _
      rw [hsum, hcount]
      rfl
    · rw [cutAll_map]
      exact zipWith_avg (by rw [hget, cutAll_map, cutAll_map])

lemma FreezesBack.of_bytes {α : Type} {f : α → AccRecord} {g : α → Option Bytes} {xs : List α} {col : AccColumn D}
    (hsize : ((xs.map f).map AccRecord.frozenSize).sum < 2 ^ 31) (hf : ∀ x, (f x).frozenSize = ((g x).getD []).length)
    (hfreeze : col.freezeToArrays validUtf8 sel = (fromBytes (xs.map g)).map ([·]))
    (hback : ∀ cuts offsets data nulls,
      (AccArray.bytes offsets data nulls).Rows ((cutAll cuts (xs.map g)).map (optValue .bytes)) →
      ∃ col', col.empty.unfreezeFromArrays E C [.bytes offsets data nulls] = some col' ∧
        (col'.records = cutAll cuts (xs.map f) ↔ ∀ r ∈ cutAll cuts (xs.map f), col.Distinct C r)) :
    FreezesBack E C validUtf8 col sel (xs.map f) := by
  have hlen : ((xs.map g).map (·.getD [])).flatten.length < 2 ^ 31 := by
    rw [length_flatten, map_map, map_map]
    rw [map_map] at hsize
    have hsum : xs.map (AccRecord.frozenSize ∘ f) = xs.map (length ∘ (·.getD []) ∘ g) :=
      map_congr_left fun x _ => hf x
    rwa [hsum] at hsize
  obtain ⟨a, ha, hslices⟩ := exists_sliceAll_fromBytes hlen
  refine ⟨[a], by rw [hfreeze, ha, map_some], fun cuts hcuts => ?_⟩
  obtain ⟨_, _, _, hslice, hrows⟩ := hslices cuts (by rwa [length_map] at hcuts ⊢)
  rw [map_singleton, hslice]
  exact hback cuts _ _ _ hrows

variable (hsize : (recs.map AccRecord.frozenSize).sum < 2 ^ 31)

include hsize

lemma freezesBack_bytes {isUtf8 : Bool} {col : AccBytesColumn} (h : (bytes isUtf8 col).Sound C validUtf8)
    (hsel : sel.select (bytes isUtf8 col : AccColumn D).records = some recs) :
    FreezesBack E C validUtf8 (bytes isUtf8 col) sel recs := by
  obtain ⟨items, hitems, rfl⟩ := select_map hsel
  have hutf8 : (isUtf8 && !items.all fun item => item.all fun v => validUtf8 v.bytes) = false := by
    cases hisUtf8 : isUtf8 with
    | false => rfl
    | true =>
      rw [Bool.true_and, Bool.not_eq_false', all_eq_true]
      intro item hitem
      rw [Option.all_eq_true]
      intro v hv
      exact (h item (mem_of_select hitems item hitem) v hv).2 hisUtf8
  refine .of_bytes (g := fun item => item.map AccBytes.bytes) hsize (fun _ => rfl) ?_ fun cuts _ _ _ hrows => ?_
  · show ((sel.select col.items).bind _) = _
    rw [hitems, bind_some, hutf8, if_neg Bool.false_ne_true]
  · refine ⟨_, congrArg (Option.map (bytes isUtf8)) (AccBytesColumn.unfreeze_spec hrows), iff_of_true ?_ fun _ _ => trivial⟩
    show ((cutAll cuts (items.map _)).map _).map _ = _
    rw [← cutAll_map, ← cutAll_map, map_map, map_map]
    congr 2
    funext item
    cases item <;> rfl

lemma freezesBack_list {d : D} {col : AccListColumn} (h : (list d col).Sound C validUtf8)
    (hsel : sel.select (list d col).records = some recs) : FreezesBack E C validUtf8 (list d col) sel recs := by
  obtain ⟨ls, hls, rfl⟩ := select_map hsel
  refine .of_bytes (g := fun l => some (rawRow l.raw)) hsize (fun _ => rfl) ?_ fun cuts _ _ _ hrows => ?_
  · show ((sel.toList.mapM fun i => col.list[i]?.map _).bind _) = _
    rw [mapM_saveRaw hls, bind_some, map_map]
    rfl
  · have hraws : cutAll cuts (ls.map fun l => some (rawRow l.raw))
        = ((cutAll cuts (ls.map AccList.raw)).map rawRow).map some := by
      rw [← cutAll_map, ← cutAll_map, map_map, map_map]
      rfl
    have hsmall : ∀ raw ∈ cutAll cuts (ls.map AccList.raw), raw.length < 2 ^ 63 := by
      intro _ hraw
      obtain ⟨l, hl, rfl⟩ := mem_map.1 (mem_of_mem_cutAll hraw)
      exact h l (mem_of_select hls l hl)
    rw [hraws] at hrows
    obtain ⟨col', hcol', hraw⟩ := AccListColumn.unfreeze_spec hsmall hrows
    exact ⟨list d col', congrArg (Option.map (list d)) hcol',
      iff_of_true (map_of_map_eq_cutAll cuts hraw AccRecord.list) fun _ _ => trivial⟩

lemma freezesBack_set {d : D} {col : AccSetColumn} (h : (set d col).Sound C validUtf8)
    (hsel : sel.select (set d col).records = some recs) (hsmall : ∀ raw, .set raw ∈ recs → raw.length < 2 ^ 32) :
    FreezesBack E C validUtf8 (set d col) sel recs := by
  obtain ⟨ss, hss, rfl⟩ := select_map hsel
  refine .of_bytes (g := fun s => some (rawRow s.list.raw)) hsize (fun _ => rfl) ?_ fun cuts _ _ _ hrows => ?_
  · show ((sel.toList.mapM fun i => col.set[i]?.map _).bind _) = _
    rw [mapM_saveRaw hss, bind_some, map_map]
    rfl
  · have hraws : cutAll cuts (ss.map fun s => some (rawRow s.list.raw))
        = (((cutAll cuts ss).map fun s => s.list.raw).map rawRow).map some := by
      rw [cutAll_map, map_map, map_map]
      rfl
    rw [hraws] at hrows
    obtain ⟨col', hcol', hraw⟩ := AccSetColumn.unfreeze_spec (E := E) (C := C d)
      (forall_mem_map.2 fun s hs => h s (mem_of_select hss s (mem_of_mem_cutAll hs)))
      (forall_mem_map.2 fun s hs => hsmall _ (mem_map_of_mem (mem_of_mem_cutAll hs))) hrows
    have hiff := distinct_set_iff col hraw
    rw [map_map, ← cutAll_map] at hiff
    exact ⟨set d col', congrArg (Option.map (set d)) hcol', hiff⟩

lemma freezesBack_bloomFilter {col : AccBloomFilterColumn} (h : (bloomFilter col).Sound C validUtf8)
    (hsel : sel.select (bloomFilter col : AccColumn D).records = some recs) :
    FreezesBack E C validUtf8 (bloomFilter col) sel recs := by
  obtain ⟨filters, hfilters, rfl⟩ := select_map hsel
  refine .of_bytes (g := fun filter => filter.map SparkBloomFilter.writeTo) hsize (fun _ => rfl) ?_
    fun cuts _ _ _ hrows => ?_
  · show ((sel.select col.bloomFilters).bind _) = _
    rw [hfilters, bind_some]
  · have hreloads : ∀ filter ∈ cutAll cuts filters, ∀ f ∈ filter, Reloads f := fun filter hfilter f hf =>
      (h filter (mem_of_select hfilters filter (mem_of_mem_cutAll hfilter)) f hf).reloads
    rw [cutAll_map] at hrows
    exact ⟨bloomFilter ⟨cutAll cuts filters⟩, congrArg (Option.map bloomFilter)
      (AccBloomFilterColumn.unfreeze_spec hreloads hrows), iff_of_true (cutAll_map _ cuts filters).symm fun _ _ => trivial⟩

omit hsize in
/-- **What a column freezes it takes back**, also from slices; the byte strings of an array take less than 2 GiB. -/
theorem Sound.freezesBack {col : AccColumn D} (h : col.Sound C validUtf8)
    (hsel : sel.select col.records = some recs) (hsmall : ∀ raw, .set raw ∈ recs → raw.length < 2 ^ 32)
    (hsize : (recs.map AccRecord.frozenSize).sum < 2 ^ 31) : FreezesBack E C validUtf8 col sel recs := by
  cases col with
  | boolean col => exact freezesBack_boolean col hsel
  | prim width col => exact freezesBack_prim col hsel
  | bytes isUtf8 col => exact freezesBack_bytes hsize h hsel
  | count col => exact freezesBack_count col hsel
  | avg width col => exact freezesBack_avg col hsel
  | list d col => exact freezesBack_list hsize h hsel
  | set d col => exact freezesBack_set hsize h hsel hsmall
  | bloomFilter col => exact freezesBack_bloomFilter hsize h hsel

end AccColumn

end Auron.Agg
