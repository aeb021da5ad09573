import Auron.Agg.AccColumn

/-!
# Buckets of spilled records (`write_spill_bucket`, `read_spill_bucket` of `agg/agg_table.rs`)

A bucket is a selection of the records of every column of a table, one column after the other, and behind them the keys of
the records.  Nothing in it says where a column ends: each has to read exactly what it wrote (`columns_survive_spilling`).

A set is read back value by value and has each of them once.  Bytes that have a value twice, as a set that was merged from
and then appended to can have them, come back without the second (`duplicates_lost_in_spill`).
-/

namespace Auron.Agg

open Auron.Io Auron.Io.BatchSerde Auron.Lib List

section Buckets

variable {D : Type} {V : D → Type} (E : CollectEnv) (C : ∀ d, ScalarCodec (V d))

def writeKey (key : Bytes) : Bytes := writeLen key.length ++ key

def readKey : ReadBytes Bytes := do
  let len ← BatchSerde.readLen
  Reads.exact len

def writeSpillBucket (cols : List (AccColumn D)) (accIndices : List ℕ) (keys : List Bytes) : Option Bytes :=
  (cols.mapM (AccColumn.spill (.indices accIndices))).map fun accs => accs.flatten ++ keys.flatMap writeKey

/-- The columns of `read_spill_bucket`. -/
def unspillColumns (numRows : ℕ) : List (AccColumn D) → ReadBytes (List (AccColumn D))
  | [] => pure []
  | col :: cols => do
    let col ← col.unspill E C numRows
    let cols ← unspillColumns numRows cols
    pure (col :: cols)

def readSpillBucket (numRows : ℕ) (cols : List (AccColumn D)) : ReadBytes (List (AccColumn D) × List Bytes) := do
  let cols ← unspillColumns E C numRows cols
  let keys ← readKey.times numRows
  pure (cols, keys)

variable {E C} {validUtf8 : Bytes → Bool}

lemma parses_readKey {key : Bytes} (h : key.length < 2 ^ 63) : readKey.Parses (writeKey key) key :=
  (parses_readLen (by omega)).bind (.exact key)

lemma parses_unspillColumns {accIndices : List ℕ} {cols : List (AccColumn D)}
    (h : ∀ col ∈ cols, col.Sound C validUtf8) (hidx : ∀ col ∈ cols, ∀ i ∈ accIndices, i < col.records.length)
    (hlen : accIndices.length < 2 ^ 64)
    (hsets : ∀ col ∈ cols, ∀ i ∈ accIndices, ∀ raw, col.records[i]? = some (.set raw) → raw.length < 2 ^ 32) :
    ∃ accs cols', cols.mapM (AccColumn.spill (.indices accIndices)) = some accs
      ∧ (unspillColumns E C accIndices.length (cols.map AccColumn.empty)).Parses accs.flatten cols'
      ∧ (Forall₂ (fun col col' => (IdxSelection.indices accIndices).select col.records = some col'.records) cols cols'
        ↔ ∀ col ∈ cols, ∀ i ∈ accIndices, ∀ r, col.records[i]? = some r → col.Distinct C r) := by
  induction cols with
  | nil => exact ⟨[], [], rfl, .pure [], iff_of_true .nil (forall_mem_nil _)⟩
  | cons col cols ih =>
    obtain ⟨hcol, hcols⟩ := forall_mem_cons.1 h
    obtain ⟨hi, his⟩ := forall_mem_cons.1 hidx
    obtain ⟨hset, hsets⟩ := forall_mem_cons.1 hsets
    obtain ⟨accs, cols', hspill, hparses, hall⟩ := ih hcols his hsets
    obtain ⟨recs, hrecs⟩ : ∃ recs, (IdxSelection.indices accIndices).select col.records = some recs :=
      exists_mapM fun i hmem => ⟨_, getElem?_eq_getElem (hi i hmem)⟩
    have hrecsLen : recs.length = accIndices.length := length_of_mapM hrecs
    have hmem : ∀ r, r ∈ recs ↔ ∃ i ∈ accIndices, col.records[i]? = some r := AccColumn.mem_select_iff hrecs
    obtain ⟨bytes, col', hspill', hparses', hback⟩ := hcol.spillsBack (E := E) hrecs (by omega) fun raw hraw => by
      obtain ⟨i, hi, hraw⟩ := (hmem _).1 hraw
      exact hset i hi raw hraw
    rw [hrecsLen] at hparses'
    refine ⟨bytes :: accs, col' :: cols', mapM_cons_eq_some.2 ⟨bytes, accs, hspill', hspill, rfl⟩,
      hparses'.bind (hparses.bind_last (.pure _)), ?_⟩
    rw [forall₂_cons, hall, hrecs, Option.some_inj, eq_comm, hback, forall_mem_cons]
    refine and_congr_left' ?_
    simp only [hmem]
    exact ⟨fun hd i hi r hr => hd r ⟨i, hi, hr⟩, fun hd r ⟨i, hi, hr⟩ => hd i hi r hr⟩

/-- **Columns survive spilling.**  A column spills a selection to bytes that are read back, whatever comes behind, and so the
columns and keys of a bucket are; and it freezes them to arrays that are taken back, also when they are sliced.  The records
are those of the selection exactly if the bytes of each selected set have each value once. -/
theorem columns_survive_spilling {cols : List (AccColumn D)} (h : ∀ col ∈ cols, col.Sound C validUtf8) :
    (∀ col ∈ cols, ∀ (sel : IdxSelection) (recs : List AccRecord), sel.select col.records = some recs →
      (∀ raw, .set raw ∈ recs → raw.length < 2 ^ 32) →
      (recs.length < 2 ^ 64 → ∃ bytes col', col.spill sel = some bytes
        ∧ (col.empty.unspill E C recs.length).Parses bytes col'
        ∧ (col'.records = recs ↔ ∀ r ∈ recs, col.Distinct C r))
      ∧ ((recs.map AccRecord.frozenSize).sum < 2 ^ 31 → ∃ arrays, col.freezeToArrays validUtf8 sel = some arrays
        ∧ ∀ cuts, CutsFit recs.length cuts →
          ∃ col', col.empty.unfreezeFromArrays E C (arrays.map (·.sliceAll cuts)) = some col'
            ∧ (col'.records = cutAll cuts recs ↔ ∀ r ∈ cutAll cuts recs, col.Distinct C r)))
    ∧ ∀ (accIndices : List ℕ) (keys : List Bytes), (∀ col ∈ cols, ∀ i ∈ accIndices, i < col.records.length) →
      (∀ col ∈ cols, ∀ i ∈ accIndices, ∀ raw, col.records[i]? = some (.set raw) → raw.length < 2 ^ 32) →
      accIndices.length < 2 ^ 64 → keys.length = accIndices.length → (∀ key ∈ keys, key.length < 2 ^ 63) →
      ∃ bytes cols', writeSpillBucket cols accIndices keys = some bytes
        ∧ (readSpillBucket E C accIndices.length (cols.map AccColumn.empty)).Parses bytes (cols', keys)
        ∧ (Forall₂ (fun col col' => (IdxSelection.indices accIndices).select col.records = some col'.records) cols cols'
          ↔ ∀ col ∈ cols, ∀ i ∈ accIndices, ∀ r, col.records[i]? = some r → col.Distinct C r) := by
  refine ⟨fun col hcol sel recs hsel hsets => ⟨fun hlen => (h col hcol).spillsBack hsel hlen hsets,
    fun hsize => (h col hcol).freezesBack hsel hsets hsize⟩, fun accIndices keys hidx hsets hlen hkeys hsmall => ?_⟩
  obtain ⟨accs, cols', hspill, hparses, hall⟩ := parses_unspillColumns (E := E) h hidx hlen hsets
  have hread := parses_times fun key hkey => parses_readKey (hsmall key hkey)
  rw [map_id', hkeys] at hread
  refine ⟨accs.flatten ++ keys.flatMap writeKey, cols', ?_, hparses.bind (hread.bind_last (.pure _)), hall⟩
  rw [writeSpillBucket, hspill, Option.map_some]

end Buckets

/-! ### A table -/

/-- The second set was merged from: its bytes are there, its entries are not. -/
def sampleTable : List (AccColumn Unit) :=
  [.boolean ⟨[⟨true, true⟩, ⟨false, true⟩]⟩, .prim 1 ⟨[⟨false, ⟨[9], rfl⟩⟩, ⟨true, ⟨[7], rfl⟩⟩]⟩,
    .bytes true ⟨[some ⟨[97], none⟩, none], .zero⟩, .count ⟨[3, 300]⟩,
    .avg 1 ⟨⟨[⟨true, ⟨[5], rfl⟩⟩, ⟨false, ⟨[0], rfl⟩⟩]⟩, ⟨[1, 0]⟩⟩, .list () ⟨[⟨[4, 4], 2⟩, .default], .zero⟩,
    .set () ⟨[⟨⟨[4], 8⟩, .small [(0, 1)]⟩, ⟨⟨[5, 6], 8⟩, .default⟩], .zero⟩, .bloomFilter ⟨[some ⟨⟨[0]⟩, 1⟩, none]⟩]

lemma sampleTable_sound :
    ∀ col ∈ sampleTable, col.Sound (V := fun _ => UInt8) (fun _ => byteCodec) fun _ => true := by
  have hfilter : MadeFilter ⟨⟨[0]⟩, 1⟩ := .new (k := 1) (m := 64) (Or.inl (by decide)) rfl
  unfold sampleTable
  simp only [forall_mem_cons, AccColumn.Sound]
  refine ⟨trivial, trivial, ?_, trivial, rfl, ?_, ⟨⟨[4], rfl⟩, ⟨[5, 6], rfl⟩, by simp⟩, ?_, by simp⟩
  · simp
  · simp [AccList.default]
  · simpa using hfilter

/-- The second record, the first, and the second once more. -/
theorem columns_survive_spilling_sample :
    ∃ bytes cols', writeSpillBucket sampleTable [1, 0, 1] [[7], [], [8, 9]] = some bytes
      ∧ (readSpillBucket (V := fun _ => UInt8) plainEnv (fun _ => byteCodec) 3
        (sampleTable.map AccColumn.empty)).Parses bytes (cols', [[7], [], [8, 9]])
      ∧ Forall₂ (fun col col' => (IdxSelection.indices [1, 0, 1]).select col.records = some col'.records)
        sampleTable cols' := by
  have hsets : ∀ col ∈ sampleTable, ∀ i ∈ [1, 0, 1], ∀ raw, col.records[i]? = some (.set raw) → raw.length < 2 ^ 32 := by
    simp [sampleTable, AccColumn.records]
  obtain ⟨bytes, cols', hwrite, hparses, hback⟩ := (columns_survive_spilling (E := plainEnv) sampleTable_sound).2 [1, 0, 1]
    [[7], [], [8, 9]] (by decide) hsets (by decide) rfl (by decide)
  refine ⟨bytes, cols', hwrite, hparses, hback.2 ?_⟩
  -- the bytes of the two sets have each value once
  have hset : EachOnce byteCodec [4] := ⟨[4], rfl, by decide⟩
  have hset' : EachOnce byteCodec [5, 6] := ⟨[5, 6], rfl, by decide⟩
  simp [sampleTable, AccColumn.records, AccColumn.Distinct, hset, hset']

/-! ### A set that was merged from -/

/-- The first record of a column of sets after some operations, and what comes back when it is spilled. -/
def spilledAfter (ops : List (SetOp UInt8)) (c : ℕ) : Option (List AccRecord × List AccRecord) :=
  (ops.foldlM (SetStore.step plainEnv byteCodec) .new).bind fun st =>
    let col : AccColumn Unit := .set () (st.cols c)
    (col.spill (.single 0)).bind fun bytes =>
      (runCursor (col.empty.unspill (V := fun _ => UInt8) plainEnv (fun _ => byteCodec) 1) bytes).map fun col' =>
        (col.records, col'.records)

/-- A set that was merged from and then takes its value again has it twice, and once after it was spilled. -/
theorem duplicates_lost_in_spill :
    spilledAfter [.resize 0 1, .resize 1 1, .append 0 0 1, .append 1 0 2, .merge 0 0 1 0, .append 1 0 2] 1
      = some ([.set [2, 2]], [.set [2]]) := by
  decide

end Auron.Agg
