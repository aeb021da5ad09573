import Auron.Agg.AccSpill

/-!
# What a column freezes it takes back

`AccArray.Rows` says which values an array has in its rows; a slice has some of them, and a column takes back any array that
has its records in its rows.
-/

namespace Auron.Agg

open Auron.Io Auron.Io.BatchSerde Auron.Lib List
open Option (bind_some map_some map_eq_some_iff)

/-! ### Rows of arrays -/

def optValue {α : Type} (f : α → Value) : Option α → Value
  | some a => f a
  | none => .null

namespace AccArray

def value : AccArray → ℕ → Value
  | boolean values nulls, i => unlessNull nulls i (.bool (values.get i))
  | primitive width values _ nulls, i => unlessNull nulls i (.native ((values.drop (width * i)).take width))
  | bytes offsets data nulls, i => unlessNull nulls i (.bytes (slot offsets data i))

def Valid : AccArray → Prop
  | boolean values nulls => ∀ b ∈ nulls, b.len = values.len
  | primitive width values len nulls => values.length = width * len ∧ ∀ b ∈ nulls, b.len = len
  | bytes offsets _ nulls => offsets ≠ [] ∧ ∀ b ∈ nulls, b.len = offsets.length - 1

structure Rows (a : AccArray) (rows : List Value) : Prop where
  valid : a.Valid
  len : a.len = rows.length
  value : ∀ i v, rows[i]? = some v → a.value i = v

lemma len_nulls_slice {nulls : Option BitBuffer} (offset len : ℕ) :
    ∀ b ∈ nulls.map (·.slice offset len), b.len = len := by
  intro b hb
  obtain ⟨_, -, rfl⟩ := Option.mem_map.1 hb
  rfl

/-- **A slice has some of the rows.** -/
theorem Rows.slice {a : AccArray} {rows : List Value} (h : a.Rows rows) {offset len : ℕ}
    (hle : offset + len ≤ rows.length) : (a.slice offset len).Rows ((rows.drop offset).take len) := by
  have hlen : ((rows.drop offset).take len).length = len := by
    rw [length_take, length_drop]
    omega
  have hrow : ∀ i v, ((rows.drop offset).take len)[i]? = some v → i < len ∧ a.value (offset + i) = v := by
    intro i v hv
    have hi := (List.getElem?_eq_some_iff.1 hv).1
    rw [hlen] at hi
    rw [getElem?_take_of_lt hi, getElem?_drop] at hv
    exact ⟨hi, h.value _ v hv⟩
  have hn := h.len
  cases a with
  | boolean values nulls =>
    refine ⟨len_nulls_slice offset len, hlen.symm, fun i v hv => ?_⟩
    rw [← (hrow i v hv).2]
    simp only [AccArray.slice, AccArray.value, unlessNull_slice, BitBuffer.get_slice]
  | primitive width values n nulls =>
    have hvalues := h.valid.1
    have hmul : width * (offset + len) ≤ width * n := Nat.mul_le_mul_left _ (hle.trans_eq hn.symm)
    refine ⟨⟨?_, len_nulls_slice offset len⟩, hlen.symm, fun i v hv => ?_⟩
    · rw [length_take, length_drop]
      rw [mul_add] at hmul
      omega
    · obtain ⟨hi, rfl⟩ := hrow i v hv
      have hnext : width * (i + 1) ≤ width * len := Nat.mul_le_mul_left _ hi
      have hmin : min width (width * len - width * i) = width := by
        rw [mul_add] at hnext
        omega
      simp only [AccArray.slice, AccArray.value, unlessNull_slice]
      rw [drop_take, take_take, drop_drop, hmin, mul_add]
  | bytes offsets data nulls =>
    have hpos := length_pos_iff.2 h.valid.1
    have hoffsets : ((offsets.drop offset).take (len + 1)).length = len + 1 := by
      have hn : offsets.length - 1 = rows.length := hn
      exact length_slice_offsets (by omega)
    refine ⟨⟨ne_nil_of_length_pos (by rw [hoffsets]; omega), ?_⟩, ?_, fun i v hv => ?_⟩
    · rw [hoffsets]
      exact len_nulls_slice offset len
    · show ((offsets.drop offset).take (len + 1)).length - 1 = _
      rw [hoffsets, hlen, Nat.add_sub_cancel]
    · obtain ⟨hi, rfl⟩ := hrow i v hv
      simp only [AccArray.slice, AccArray.value, unlessNull_slice, slot_slice _ _ hi]

/-! ### Arrays that are built -/

variable {i : ℕ}

lemma nullAt_builtNulls {valids : List Bool} {valid : Bool} (hi : valids[i]? = some valid) :
    nullAt (builtNulls valids) i = !valid := by
  obtain ⟨hlt, rfl⟩ := List.getElem?_eq_some_iff.1 hi
  unfold builtNulls
  split
  case isTrue hall =>
    have htrue : valids[i] = true := all_eq_true.1 hall _ (getElem_mem hlt)
    rw [htrue]
    rfl
  case isFalse =>
    show (!bitAt (packBits _ _) (0 + i)) = _
    rw [zero_add, bitAt_packBits _ hlt, getD_eq_getElem _ _ hlt]

lemma len_builtNulls (valids : List Bool) : ∀ b ∈ builtNulls valids, b.len = valids.length := by
  intro b hb
  unfold builtNulls at hb
  split at hb
  case isTrue => cases hb
  case isFalse =>
    cases hb
    rfl

variable {α : Type}

/-- An array that is built has the values it is built from, where they are not null. -/
lemma Rows.of_built {xs : List (Option α)} {f : α → Value} {a : AccArray} (hvalid : a.Valid) (hlen : a.len = xs.length)
    {v : ℕ → Value} (ha : ∀ i, a.value i = unlessNull (builtNulls (xs.map Option.isSome)) i (v i))
    (hv : ∀ i b, xs[i]? = some (some b) → v i = f b) : a.Rows (xs.map (optValue f)) := by
  refine ⟨hvalid, by rw [hlen, length_map], fun i _ hi => ?_⟩
  rw [getElem?_map] at hi
  obtain ⟨x, hx, rfl⟩ := map_eq_some_iff.1 hi
  have hnull : (xs.map Option.isSome)[i]? = some x.isSome := by rw [getElem?_map, hx, map_some]
  rw [ha, unlessNull, nullAt_builtNulls hnull]
  cases x with
  | none => rfl
  | some b => exact hv i b hx

lemma rows_fromBools (xs : List (Option Bool)) : (fromBools xs).Rows (xs.map (optValue .bool)) := by
  refine .of_built ?_ rfl (fun _ => rfl) fun i b hx => ?_
  · intro b hb
    rw [len_builtNulls _ b hb, length_map]
  · obtain ⟨hlt, -⟩ := List.getElem?_eq_some_iff.1 hx
    show Value.bool (bitAt (packBits _ _) (0 + i)) = _
    rw [zero_add, bitAt_packBits _ hlt, getD_eq_getElem?_getD, hx]
    rfl

variable {width : ℕ}

lemma take_drop_flatMap {f : α → Bytes} {xs : List α} (h : ∀ x ∈ xs, (f x).length = width) {x : α}
    (hx : xs[i]? = some x) : ((xs.flatMap f).drop (width * i)).take width = f x := by
  induction xs generalizing i with
  | nil => cases hx
  | cons y ys ih =>
    obtain ⟨hy, hrest⟩ := forall_mem_cons.1 h
    rw [flatMap_cons]
    cases i with
    | zero =>
      cases hx
      rw [mul_zero, drop_zero, take_left' hy]
    | succ i =>
      rw [Nat.mul_succ, add_comm, ← drop_drop, drop_left' hy]
      exact ih hrest hx

lemma length_flatMap_width {f : α → Bytes} {xs : List α} (h : ∀ x ∈ xs, (f x).length = width) :
    (xs.flatMap f).length = width * xs.length := by
  induction xs with
  | nil => simp
  | cons y ys ih =>
    obtain ⟨hy, hrest⟩ := forall_mem_cons.1 h
    rw [flatMap_cons, length_append, hy, ih hrest, length_cons, Nat.mul_succ, add_comm]

lemma rows_fromNatives {xs : List (Option Bytes)} (h : ∀ x ∈ xs, ∀ b ∈ x, b.length = width) :
    (fromNatives width xs).Rows (xs.map (optValue .native)) := by
  have hwidth : ∀ x ∈ xs, (x.getD (replicate width 0)).length = width := by
    intro x hx
    cases x with
    | none => exact length_replicate
    | some b => exact h _ hx b rfl
  refine .of_built ⟨length_flatMap_width hwidth, ?_⟩ rfl (fun _ => rfl) fun i b hx => ?_
  · intro b hb
    rw [len_builtNulls _ b hb, length_map]
  · rw [take_drop_flatMap hwidth hx]
    rfl

lemma slot_offsetsOf {slots : List Bytes} {bytes : Bytes} (hi : slots[i]? = some bytes) :
    slot (offsetsOf slots) slots.flatten i = bytes := by
  obtain ⟨hlt, rfl⟩ := List.getElem?_eq_some_iff.1 hi
  have hoffset : ∀ j ≤ slots.length, offsetAt (offsetsOf slots) j = (slots.take j).flatten.length := by
    intro j _
    have hj' : j < (offsetsOf slots).length := by
      rw [length_offsetsOf]
      omega
    rw [offsetAt, getD_eq_getElem _ _ hj', getElem_offsetsOf]
  rw [slot, hoffset i hlt.le, hoffset (i + 1) hlt]
  simpa using take_drop_flatten slots hlt []

lemma rows_fromBytes {xs : List (Option Bytes)} (h : (xs.map (·.getD [])).flatten.length < 2 ^ 31) :
    ∃ offsets data nulls, fromBytes xs = some (bytes offsets data nulls)
      ∧ (bytes offsets data nulls).Rows (xs.map (optValue .bytes)) := by
  have hlen : (offsetsOf (xs.map (·.getD []))).length = xs.length + 1 := by rw [length_offsetsOf, length_map]
  refine ⟨_, _, _, if_pos h, .of_built ⟨?_, ?_⟩ ?_ (fun _ => rfl) fun i b hx => ?_⟩
  · exact ne_nil_of_length_pos (by rw [hlen]; omega)
  · intro b hb
    rw [len_builtNulls _ b hb, hlen, length_map, Nat.add_sub_cancel]
  · show (offsetsOf _).length - 1 = _
    rw [hlen, Nat.add_sub_cancel]
  · have hslot : (xs.map (·.getD []))[i]? = some b := by
      rw [getElem?_map, hx]
      rfl
    rw [slot_offsetsOf hslot]

end AccArray

open AccArray

/-! ### Slices -/

def AccArray.sliceAll (cuts : List (ℕ × ℕ)) (a : AccArray) : AccArray := cuts.foldl (fun a cut => a.slice cut.1 cut.2) a

def cutAll {α : Type} (cuts : List (ℕ × ℕ)) (xs : List α) : List α :=
  cuts.foldl (fun xs cut => (xs.drop cut.1).take cut.2) xs

def CutsFit : ℕ → List (ℕ × ℕ) → Prop
  | _, [] => True
  | n, (offset, len) :: cuts => offset + len ≤ n ∧ CutsFit len cuts

variable {α : Type}

lemma cutAll_map {β : Type} (f : α → β) (cuts : List (ℕ × ℕ)) (xs : List α) :
    cutAll cuts (xs.map f) = (cutAll cuts xs).map f := by
  induction cuts generalizing xs with
  | nil => rfl
  | cons cut cuts ih =>
    show cutAll cuts (((xs.map f).drop cut.1).take cut.2) = _
    rw [← map_drop, ← map_take, ih]
    rfl

variable {cuts : List (ℕ × ℕ)}

lemma mem_of_mem_cutAll {xs : List α} {x : α} (h : x ∈ cutAll cuts xs) : x ∈ xs := by
  induction cuts generalizing xs with
  | nil => exact h
  | cons cut cuts ih => exact mem_of_mem_drop (mem_of_mem_take (ih h))

namespace AccArray

lemma Rows.sliceAll {a : AccArray} {rows : List Value} (h : a.Rows rows) {cuts : List (ℕ × ℕ)}
    (hcuts : CutsFit rows.length cuts) : (a.sliceAll cuts).Rows (cutAll cuts rows) := by
  induction cuts generalizing a rows with
  | nil => exact h
  | cons cut cuts ih =>
    obtain ⟨hle, hcuts⟩ := hcuts
    have hlen : ((rows.drop cut.1).take cut.2).length = cut.2 := by
      rw [length_take, length_drop]
      omega
    exact ih (h.slice hle) (hlen.symm ▸ hcuts)

lemma Rows.sliceAll_map {α : Type} {f : α → Value} {a : AccArray} {xs : List α} (h : a.Rows (xs.map f))
    {cuts : List (ℕ × ℕ)} (hcuts : CutsFit xs.length cuts) : (a.sliceAll cuts).Rows ((cutAll cuts xs).map f) := by
  rw [← cutAll_map]
  exact h.sliceAll (by rwa [length_map])

lemma sliceAll_keeps {P : AccArray → Prop} (hslice : ∀ a offset len, P a → P (a.slice offset len)) {a : AccArray}
    (ha : P a) (cuts : List (ℕ × ℕ)) : P (a.sliceAll cuts) := by
  induction cuts generalizing a with
  | nil => exact ha
  | cons cut cuts ih => exact ih (hslice a _ _ ha)

lemma exists_sliceAll_fromNatives {width : ℕ} {xs : List (Option Bytes)} (h : ∀ x ∈ xs, ∀ b ∈ x, b.length = width)
    (cuts : List (ℕ × ℕ)) (hcuts : CutsFit xs.length cuts) :
    ∃ values len nulls, (fromNatives width xs).sliceAll cuts = primitive width values len nulls
      ∧ (primitive width values len nulls).Rows ((cutAll cuts xs).map (optValue .native)) := by
  obtain ⟨values, len, nulls, hslice⟩ :=
    sliceAll_keeps (P := fun a => ∃ values len nulls, a = primitive width values len nulls)
      (by rintro _ _ _ ⟨_, _, _, rfl⟩; exact ⟨_, _, _, rfl⟩) (a := fromNatives width xs) ⟨_, _, _, rfl⟩ cuts
  exact ⟨values, len, nulls, hslice, hslice ▸ (rows_fromNatives h).sliceAll_map hcuts⟩

lemma exists_sliceAll_fromBytes {xs : List (Option Bytes)} (h : (xs.map (·.getD [])).flatten.length < 2 ^ 31) :
    ∃ a, fromBytes xs = some a ∧ ∀ cuts, CutsFit xs.length cuts → ∃ offsets data nulls,
      a.sliceAll cuts = bytes offsets data nulls ∧
        (bytes offsets data nulls).Rows ((cutAll cuts xs).map (optValue .bytes)) := by
  obtain ⟨offsets, data, nulls, hbuilt, hrows⟩ := rows_fromBytes h
  refine ⟨_, hbuilt, fun cuts hcuts => ?_⟩
  obtain ⟨offsets', data', nulls', hslice⟩ :=
    sliceAll_keeps (P := fun a => ∃ offsets data nulls, a = bytes offsets data nulls)
      (by rintro _ _ _ ⟨_, _, _, rfl⟩; exact ⟨_, _, _, rfl⟩) (a := bytes offsets data nulls) ⟨_, _, _, rfl⟩ cuts
  exact ⟨offsets', data', nulls', hslice, hslice ▸ hrows.sliceAll_map hcuts⟩

end AccArray

/-! ### Columns from arrays -/

def unlessNullAt {α : Type} (nulls : Option BitBuffer) (i : ℕ) (a : α) : Option α := if nullAt nulls i then none else some a

variable {f : α → Value} {nulls : Option BitBuffer}

lemma optValue_injective (hf : Function.Injective f) (hnull : ∀ a, f a ≠ .null) : Function.Injective (optValue f) := by
  rintro (_ | a) (_ | b) h
  · rfl
  · exact absurd h.symm (hnull b)
  · exact absurd h (hnull a)
  · rw [hf h]

lemma AccArray.Rows.map_unlessNullAt (hf : Function.Injective (optValue f)) {a : AccArray} {xs : List (Option α)}
    (h : a.Rows (xs.map (optValue f))) {at' : ℕ → α} (ha : ∀ i, a.value i = unlessNull nulls i (f (at' i))) :
    ((List.range a.len).map fun i => unlessNullAt nulls i (at' i)) = xs := by
  apply map_injective_iff.2 hf
  apply ext_getElem
  · simp [h.len]
  · intro i _ hi
    rw [← h.value i _ (getElem?_eq_getElem hi), ha]
    simp only [getElem_map, getElem_range, unlessNull, unlessNullAt]
    split <;> rfl

variable {len : ℕ}

lemma arrayValids_eq (h : ∀ b ∈ nulls, b.len = len) :
    arrayValids nulls len = (List.range len).map fun i => !nullAt nulls i := by
  unfold arrayValids resized
  cases nulls with
  | none =>
    apply ext_getElem
    · simp
    · intro i _ _
      simp [nullAt]
  | some b =>
    have hlen := h b rfl
    apply ext_getElem
    · simp [hlen]
    · intro i _ _
      simp [hlen, nullAt]

lemma map_get_zipWith {β : Type} {values : List α} (h : ∀ b ∈ nulls, b.len = values.length) {g : α → β}
    {at' : ℕ → β} (hat : ∀ i a, values[i]? = some a → g a = at' i) :
    ((zipWith Slot.mk (arrayValids nulls values.length) values).map fun s => s.get.map g)
      = (List.range values.length).map fun i => unlessNullAt nulls i (at' i) := by
  rw [arrayValids_eq h]
  apply ext_getElem
  · simp
  · intro i hi _
    have hi' : i < values.length := by simpa using hi
    simp only [getElem_map, getElem_zipWith, getElem_range, unlessNullAt]
    cases nullAt nulls i with
    | true => rfl
    | false => exact congrArg some (hat i _ (getElem?_eq_getElem hi'))

lemma bool_injective : Function.Injective (optValue .bool) :=
  optValue_injective (fun _ _ => Value.bool.inj) fun _ => Value.noConfusion

lemma native_injective : Function.Injective (optValue .native) :=
  optValue_injective (fun _ _ => Value.native.inj) fun _ => Value.noConfusion

lemma bytes_injective : Function.Injective (optValue .bytes) :=
  optValue_injective (fun _ _ => Value.bytes.inj) fun _ => Value.noConfusion

lemma AccBooleanColumn.unfreeze_spec {values : BitBuffer} {xs : List (Option Bool)}
    (h : (boolean values nulls).Rows (xs.map (optValue .bool))) :
    ∃ col, unfreezeFromArrays [.boolean values nulls] = some col ∧ col.slots.map Slot.get = xs := by
  have hvalid : ∀ b ∈ nulls, b.len = ((List.range values.len).map values.get).length := by
    intro b hb
    rw [h.valid b hb, length_map, length_range]
  have hat : ∀ i a, ((List.range values.len).map values.get)[i]? = some a → id a = values.get i := by
    intro i a ha
    obtain ⟨_, rfl⟩ := List.getElem?_eq_some_iff.1 ha
    rw [getElem_map, getElem_range, id]
  have hslots := map_get_zipWith hvalid hat
  simp only [Option.map_id, id, length_map, length_range] at hslots
  exact ⟨_, rfl, hslots.trans (h.map_unlessNullAt bool_injective fun _ => rfl)⟩

variable {width : ℕ}

lemma natives_spec {raw : Bytes} (h : raw.length = width * len) :
    ∃ values, natives width len raw = some values ∧ values.length = len
      ∧ ∀ i v, values[i]? = some v → v.1 = (raw.drop (width * i)).take width := by
  induction len generalizing raw with
  | zero => exact ⟨[], rfl, rfl, fun i v hv => by cases hv⟩
  | succ len ih =>
    have hle : width ≤ raw.length := by
      rw [h]
      exact Nat.le_add_left _ _
    have hrest : (raw.drop width).length = width * len := by
      rw [length_drop, h, Nat.mul_succ, Nat.add_sub_cancel]
    obtain ⟨values, hnatives, hlen, hvalues⟩ := ih hrest
    refine ⟨⟨raw.take width, length_take_of_le hle⟩ :: values, ?_, by rw [length_cons, hlen], fun i v hv => ?_⟩
    · rw [natives, dif_pos hle, hnatives, map_some]
    · cases i with
      | zero =>
        cases hv
        rw [mul_zero, drop_zero]
      | succ i =>
        rw [hvalues i v hv, drop_drop, Nat.mul_succ, add_comm]

lemma AccPrimColumn.unfreeze_spec {values : Bytes} {xs : List (Option (Native width))}
    (h : (primitive width values len nulls).Rows ((xs.map (·.map Subtype.val)).map (optValue .native))) :
    ∃ col : AccPrimColumn width, unfreezeFromArrays [.primitive width values len nulls] = some col
      ∧ col.slots.map Slot.get = xs := by
  obtain ⟨vs, hnatives, hvs, hat⟩ := natives_spec h.valid.1
  subst hvs
  have hslots := map_get_zipWith h.valid.2 hat
  refine ⟨⟨zipWith Slot.mk (arrayValids nulls vs.length) vs⟩, ?_, ?_⟩
  · rw [unfreezeFromArrays, if_pos rfl, hnatives, map_some]
  · -- the bytes of a value determine it
    have hinj : Function.Injective (Option.map (Subtype.val : Native width → Bytes)) :=
      Option.map_injective Subtype.val_injective
    apply map_injective_iff.2 hinj
    rw [map_map]
    exact hslots.trans (h.map_unlessNullAt native_injective fun _ => rfl)

variable {offsets : List ℕ} {data : Bytes}

lemma AccBytesColumn.unfreeze_spec {xs : List (Option Bytes)}
    (h : (bytes offsets data nulls).Rows (xs.map (optValue .bytes))) :
    unfreezeFromArrays [.bytes offsets data nulls] = some (refreshHeapMemUsed (xs.map (·.map AccBytes.fromSlice))) := by
  rw [← h.map_unlessNullAt bytes_injective fun _ => rfl, map_map, unfreezeFromArrays]
  congr 3
  funext i
  simp only [Function.comp_apply, unlessNullAt]
  split <;> rfl

lemma i64OfBytes_i64Bytes (v : BitVec 64) : i64OfBytes (i64Bytes v).1 = v := by
  have hlt : v.toNat < 256 ^ 8 := v.isLt
  rw [i64OfBytes, i64Bytes, reverse_reverse, ofBe_beBytes, Nat.mod_eq_of_lt hlt, BitVec.ofNat_toNat,
    BitVec.setWidth_eq]

lemma AccCountColumn.unfreeze_spec {values : Bytes} {xs : List (BitVec 64)}
    (h : (primitive 8 values len nulls).Rows ((xs.map fun v => some (i64Bytes v).1).map (optValue .native))) :
    unfreezeFromArrays [.primitive 8 values len nulls] = some ⟨xs⟩ := by
  have hrows := congrArg (map fun x => (x.map i64OfBytes).getD 0) (h.map_unlessNullAt native_injective fun _ => rfl)
  rw [map_map, map_map] at hrows
  rw [unfreezeFromArrays, if_pos rfl]
  congr 2
  refine Eq.trans (map_congr_left fun i _ => ?_) (hrows.trans ?_)
  · simp only [Function.comp_apply, unlessNullAt]
    split <;> rfl
  · simp [Function.comp_def, i64OfBytes_i64Bytes]

lemma AccBloomFilterColumn.unfreezeFilter_eq {filter : Option SparkBloomFilter} (h : ∀ f ∈ filter, Reloads f) :
    unfreezeFilter (filter.map SparkBloomFilter.writeTo) = some filter := by
  cases filter with
  | none => rfl
  | some f =>
    have hrun := (h f rfl).parses_readFrom .unexpectedEof []
    rw [append_nil] at hrun
    rw [map_some, unfreezeFilter, hrun]

lemma AccBloomFilterColumn.unfreeze_spec {filters : List (Option SparkBloomFilter)}
    (hfilters : ∀ filter ∈ filters, ∀ f ∈ filter, Reloads f)
    (h : (bytes offsets data nulls).Rows ((filters.map (·.map SparkBloomFilter.writeTo)).map (optValue .bytes))) :
    (⟨[]⟩ : AccBloomFilterColumn).unfreezeFromArrays [.bytes offsets data nulls] = some ⟨filters⟩ := by
  have hread : (filters.map (·.map SparkBloomFilter.writeTo)).mapM unfreezeFilter = some filters := by
    rw [mapM_eq_some_iff_forall₂, forall₂_map_left_iff]
    exact forall₂_same.2 fun filter hfilter => unfreezeFilter_eq (hfilters filter hfilter)
  rw [← h.map_unlessNullAt bytes_injective fun _ => rfl, mapM_map] at hread
  show Option.map _ (mapM (unfreezeFilter ∘ fun i => unlessNullAt nulls i (slot offsets data i))
    (range (bytes offsets data nulls).len)) = _
  rw [hread, map_some, nil_append]

lemma binaryRows_eq {rows : List Bytes}
    (h : (bytes offsets data nulls).Rows ((rows.map some).map (optValue .bytes))) :
    binaryRows [.bytes offsets data nulls] = some rows := by
  have hrows := h.map_unlessNullAt bytes_injective fun _ => rfl
  rw [← forall₂_eq_eq_eq, forall₂_map_left_iff, forall₂_map_right_iff] at hrows
  refine congrArg some ?_
  rw [← forall₂_eq_eq_eq, forall₂_map_left_iff]
  refine hrows.imp fun i row hrow => ?_
  unfold unlessNullAt at hrow
  split at hrow
  case isTrue => cases hrow
  case isFalse => exact Option.some.inj hrow

lemma AccListColumn.unfreeze_spec {raws : List Bytes} (hraws : ∀ raw ∈ raws, raw.length < 2 ^ 63)
    (h : (bytes offsets data nulls).Rows (((raws.map rawRow).map some).map (optValue .bytes))) :
    ∃ col, empty.unfreezeFromArrays [.bytes offsets data nulls] = some col
      ∧ col.list.map AccList.raw = raws := by
  obtain ⟨col, _, -, hfold, rfl, hloaded⟩ := loadAll (fun raw hraw => loads (hraws raw hraw))
    (nil_append (empty.resize raws.length).list).symm (by simp [empty, resize])
  refine ⟨col, ?_, map_eq_of_forall₂ hloaded⟩
  rw [unfreezeFromArrays, binaryRows_eq h, bind_some, length_map]
  exact hfold

lemma AccSetColumn.unfreeze_spec {V : Type} {E : CollectEnv} {C : ScalarCodec V} {raws : List Bytes}
    (hraws : ∀ raw ∈ raws, Encoded C raw) (hsmall : ∀ raw ∈ raws, raw.length < 2 ^ 32)
    (h : (bytes offsets data nulls).Rows (((raws.map rawRow).map some).map (optValue .bytes))) :
    ∃ col, empty.unfreezeFromArrays E C [.bytes offsets data nulls] = some col
      ∧ ((col.set.map fun s => s.list.raw) = raws ↔ ∀ raw ∈ raws, EachOnce C raw) := by
  obtain ⟨col, _, -, hfold, rfl, hloaded⟩ := loadAll (fun raw hraw => loads (hraws raw hraw) (hsmall raw hraw))
    (nil_append (empty.resize E raws.length).set).symm (by simp [empty, resize])
  refine ⟨col, ?_, map_eq_iff_of_forall₂ hloaded⟩
  rw [unfreezeFromArrays, binaryRows_eq h, bind_some, length_map]
  exact hfold

/-! ### What was frozen is taken back -/

lemma AccBooleanColumn.unfreeze_sliceAll (slots : List (Slot Bool)) (hcuts : CutsFit slots.length cuts) :
    ∃ col, unfreezeFromArrays [(fromBools (slots.map Slot.get)).sliceAll cuts] = some col
      ∧ col.slots.map Slot.get = cutAll cuts (slots.map Slot.get) := by
  obtain ⟨_, _, hslice⟩ := sliceAll_keeps (P := fun a => ∃ values nulls, a = boolean values nulls)
    (by rintro _ _ _ ⟨_, _, rfl⟩; exact ⟨_, _, rfl⟩) (a := fromBools (slots.map Slot.get)) ⟨_, _, rfl⟩ cuts
  rw [← length_map Slot.get] at hcuts
  have hrows := (rows_fromBools _).sliceAll_map hcuts
  rw [hslice] at hrows ⊢
  exact unfreeze_spec hrows

lemma AccPrimColumn.unfreeze_sliceAll (slots : List (Slot (Native width))) (hcuts : CutsFit slots.length cuts) :
    ∃ col : AccPrimColumn width,
      unfreezeFromArrays [(fromNatives width (slots.map fun s => s.get.map Subtype.val)).sliceAll cuts] = some col
        ∧ col.slots.map Slot.get = cutAll cuts (slots.map Slot.get) := by
  have hwidth : ∀ x ∈ slots.map fun s => s.get.map Subtype.val, ∀ b ∈ x, b.length = width := by
    intro x hx b hb
    obtain ⟨s, -, rfl⟩ := mem_map.1 hx
    obtain ⟨v, -, rfl⟩ := map_eq_some_iff.1 hb
    exact v.2
  obtain ⟨_, _, _, hslice, hrows⟩ :=
    exists_sliceAll_fromNatives hwidth cuts (by rwa [length_map])
  have hget : cutAll cuts (slots.map fun s => s.get.map Subtype.val)
      = (cutAll cuts (slots.map Slot.get)).map (·.map Subtype.val) := by
    rw [← cutAll_map, map_map]
    rfl
  rw [hget] at hrows
  rw [hslice]
  exact unfreeze_spec hrows

lemma AccCountColumn.unfreeze_sliceAll (values : List (BitVec 64)) (hcuts : CutsFit values.length cuts) :
    unfreezeFromArrays [(fromNatives 8 (values.map fun v => some (i64Bytes v).1)).sliceAll cuts]
      = some ⟨cutAll cuts values⟩ := by
  have hwidth : ∀ x ∈ values.map fun v => some (i64Bytes v).1, ∀ b ∈ x, b.length = 8 := by
    intro x hx b hb
    obtain ⟨v, -, rfl⟩ := mem_map.1 hx
    cases hb
    exact (i64Bytes v).2
  obtain ⟨_, _, _, hslice, hrows⟩ :=
    exists_sliceAll_fromNatives hwidth cuts (by rwa [length_map])
  rw [cutAll_map] at hrows
  rw [hslice]
  exact unfreeze_spec hrows

end Auron.Agg
