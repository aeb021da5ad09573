import Auron.Algorithm.RadixSort
import Auron.Common.Layout
import Auron.Io.IpcRoundTrip
import Auron.Shuffle.Partitioning

/-!
# The shuffle buffer (`shuffle/buffered_data.rs`)

Batches are staged until there are enough rows, then sorted by partition into one batch with offsets.  Writing the buffer
merges the sorted batches by partition and writes the rows of every partition as blocks of their own, with the offset of
each partition taken down when its first block begins.

A batch is its rows.  How the rows are kept in columns is a parameter (`BatchFormat`), so is the compression of a block.
-/

namespace Auron.Shuffle

open Auron.Algorithm Auron.Common Auron.Io Auron.Io.IpcCompression Auron.Lib List

variable {Row K : Type}

/-- How rows are kept in the columns of a batch and read off them, and `get_batch_mem_size`. -/
structure BatchFormat (Row : Type) where
  columns : List Row → List ArrayRef
  rows : Batch → List Row
  batchMemSize : List Row → ℕ

def BatchFormat.batch (format : BatchFormat Row) (rows : List Row) : Batch := (rows.length, format.columns rows)

/-- What a shuffle task is given: its number, its partitioning, the configured sizes of batches, the codec and when a block
is full. -/
structure Context (Row K : Type) where
  taskId : ℕ
  partitioning : Partitioning Row K
  format : BatchFormat Row
  batchSize : ℕ
  suggestedBatchMemSize : ℕ
  codec : Codec
  isFull : ℕ → Bool

/-- `partition_count`. -/
abbrev Context.numPartitions (ctx : Context Row K) : ℕ := ctx.partitioning.partitionCount

def Context.suggestedBatchSize (ctx : Context Row K) (memSize numRows : ℕ) : ℕ :=
  if numRows = 0 then ctx.batchSize
  else
    let estMemSizePerRow := max memSize 16 / max numRows 1
    let estSubBatchSize := ctx.suggestedBatchMemSize / max estMemSizePerRow 16
    max (min estSubBatchSize ctx.batchSize) 20

/-! ### Sorting staged batches -/

def Partitioning.nextStartRows (startRows numRows : ℕ) : Partitioning Row K → ℕ
  | roundRobin n => (startRows + numRows) % n
  | _ => startRows

/-- The partition ids of the batches, one batch after the other. -/
def Partitioning.allPartIds [LinearOrder K] (part : Partitioning Row K) : ℕ → List (List Row) → Option (List (List ℕ))
  | _, [] => some []
  | startRows, batch :: batches =>
    (part.partIds startRows batch).bind fun ids =>
      (part.allPartIds (part.nextStartRows startRows batch.length) batches).map (ids :: ·)

/-- The rows with their partition, as `u32` indices, from batch `batchIdx` on. -/
def partitionIndices : ℕ → List (List ℕ) → List (ℕ × ℕ × ℕ)
  | _, [] => []
  | batchIdx, ids :: rest =>
    (ids.mapIdx fun rowIdx id => (id, batchIdx % 2 ^ 32, rowIdx % 2 ^ 32)) ++ partitionIndices (batchIdx + 1) rest

def partitionOffsets : BitVec 32 → List ℕ → List (BitVec 32)
  | offset, [] => [offset]
  | offset, partCount :: partCounts => offset :: partitionOffsets (offset + BitVec.ofNat 32 partCount) partCounts

/-- `sort_batches_by_partition_id`.  A remainder by zero panics, and so does an interleaver of no batches. -/
def sortBatchesByPartitionId [LinearOrder K] (ctx : Context Row K) (batches : List (List Row)) (currentNumRows : ℕ) :
    Option (List (BitVec 32) × List Row) :=
  if ctx.numPartitions = 0 then none
  else
    let startRows := (ctx.taskId * 1000193 + currentNumRows) % 2 ^ 64 % ctx.numPartitions
    (ctx.partitioning.allPartIds startRows batches).bind fun ids =>
      (radixSortByKey Prod.fst (partitionIndices 0 ids) (replicate ctx.numPartitions 0)).bind fun sorted =>
        if batches = [] then none
        else (gather₂ batches (sorted.1.map Prod.snd)).map fun rows => (partitionOffsets 0 sorted.2, rows)

/-! ### The buffer -/

structure BufferedData (Row : Type) where
  stagingBatches : List (List Row)
  stagingNumRows : ℕ
  stagingMemUsed : ℕ
  sortedBatches : List (List Row)
  sortedOffsets : List (List (BitVec 32))
  numRows : ℕ
  sortedMemUsed : ℕ

namespace BufferedData

def new : BufferedData Row := ⟨[], 0, 0, [], [], 0, 0⟩

def isEmpty (d : BufferedData Row) : Bool := d.sortedBatches.isEmpty && d.stagingBatches.isEmpty

def memUsed (d : BufferedData Row) : ℕ := d.sortedMemUsed + d.stagingMemUsed

variable [LinearOrder K]

def flushStaging (ctx : Context Row K) (d : BufferedData Row) : Option (BufferedData Row) :=
  let sortedNumRows := d.numRows - d.stagingNumRows
  (sortBatchesByPartitionId ctx d.stagingBatches sortedNumRows).map fun sorted =>
    { stagingBatches := []
      stagingNumRows := 0
      stagingMemUsed := 0
      sortedBatches := d.sortedBatches ++ [sorted.2]
      sortedOffsets := d.sortedOffsets ++ [sorted.1]
      numRows := d.numRows
      sortedMemUsed := d.sortedMemUsed + (ctx.format.batchMemSize sorted.2 + sorted.1.length * 4) }

def stage (ctx : Context Row K) (batch : List Row) (d : BufferedData Row) : BufferedData Row :=
  { d with
    numRows := d.numRows + batch.length
    stagingNumRows := d.stagingNumRows + batch.length
    stagingMemUsed := d.stagingMemUsed + ctx.format.batchMemSize batch * 2
    stagingBatches := d.stagingBatches ++ [batch] }

def addBatch (ctx : Context Row K) (batch : List Row) (d : BufferedData Row) : Option (BufferedData Row) :=
  let d := d.stage ctx batch
  if ctx.suggestedBatchSize d.stagingMemUsed d.stagingNumRows ≤ d.stagingNumRows then d.flushStaging ctx else some d

end BufferedData

/-! ### Writing the buffer -/

/-- The indices of a slice: the batch it refers to and its rows. -/
def sliceIndices (x : Slice 32) : List (ℕ × ℕ) := (range' x.start.toNat x.len).map fun offset => (x.input, offset)

/-- The `batching` of a chunk: the indices of slices are collected until there are enough of them. -/
def batching (batchSize : ℕ) : List (ℕ × ℕ) → List (Slice 32) → List (List (ℕ × ℕ))
  | indices, [] => if indices = [] then [] else [indices]
  | indices, x :: chunk =>
    let indices := indices ++ sliceIndices x
    if batchSize ≤ indices.length then indices :: batching batchSize [] chunk else batching batchSize indices chunk

/-- What `write` keeps in its loop, with the partition of the last chunk. -/
structure WriteState where
  writer : Writer
  offsets : List (BitVec 64)
  lastChunkPartitionId : Option ℕ

/-- One round of the loop of `write`: the next chunk is interleaved and written. -/
def writeChunk (ctx : Context Row K) (batches : List (List Row)) (subBatchSize : ℕ) (s : WriteState)
    (chunk : ℕ × List (Slice 32)) : Option WriteState :=
  if s.lastChunkPartitionId = some chunk.1 then none
  else
    let offsets := resize s.offsets (chunk.1 + 1) (BitVec.ofNat 64 s.writer.output.length)
    ((batching subBatchSize [] chunk.2).foldlM (fun writer indices =>
      (gather₂ batches indices).bind fun rows => writer.writeBatch ctx.codec ctx.isFull (ctx.format.batch rows))
      s.writer).map fun writer => ⟨writer.finishCurrentBuf ctx.codec, offsets, some chunk.1⟩

/-- `into_sorted_batches` and the loop of `write`, on sorted batches only.  The merge yields fewer slices than there are
offsets. -/
def BufferedData.writeSorted (ctx : Context Row K) (d : BufferedData Row) : Option (Bytes × List (BitVec 64)) :=
  let subBatchSize := ctx.suggestedBatchSize d.memUsed d.numRows
  if d.sortedBatches = [] then none
  else
    (OffsettedMergeIterator.new ctx.numPartitions (d.sortedOffsets.mapIdx fun idx offsets => ⟨offsets, idx⟩)).bind
      fun mergeIter => (mergeIter.chunks ((d.sortedOffsets.map length).sum + 1)).bind fun chunks =>
        (chunks.1.foldlM (writeChunk ctx d.sortedBatches subBatchSize) ⟨Writer.new, [], none⟩).map fun s =>
          (s.writer.output, resize s.offsets (ctx.numPartitions + 1) (BitVec.ofNat 64 s.writer.output.length))

/-- `write`: the bytes written and the offsets returned. -/
def BufferedData.write [LinearOrder K] (ctx : Context Row K) (d : BufferedData Row) : Option (Bytes × List (BitVec 64)) :=
  if d.numRows = 0 then some ([], replicate (ctx.numPartitions + 1) 0)
  else (if d.stagingBatches = [] then some d else d.flushStaging ctx).bind fun d => d.writeSorted ctx

/-! ### The rows and their partitions -/

/-- The rows with their partitions, the first one being row `k` since the buffer was drained. -/
def Context.tag [LinearOrder K] (ctx : Context Row K) (k : ℕ) (rows : List Row) : List (ℕ × Row) :=
  rows.mapIdx fun i row => (ctx.partitioning.partitionId ctx.taskId (k + i) row, row)

def rowsAt (tagged : List (ℕ × Row)) (p : ℕ) : List Row := (tagged.filter fun x => x.1 = p).map Prod.snd

section Tag

variable [LinearOrder K] (ctx : Context Row K)

@[simp] lemma Context.tag_nil (k : ℕ) : ctx.tag k [] = [] := rfl

lemma Context.tag_append (k : ℕ) (rows rows' : List Row) :
    ctx.tag k (rows ++ rows') = ctx.tag k rows ++ ctx.tag (k + rows.length) rows' := by
  simp only [tag, mapIdx_append, add_assoc, add_comm rows.length]

lemma Context.map_snd_tag (k : ℕ) (rows : List Row) : (ctx.tag k rows).map Prod.snd = rows := by
  refine ext_getElem (by simp [tag]) fun i _ _ => ?_
  simp [tag]

lemma Context.rowsAt_sublist (k : ℕ) (rows : List Row) (p : ℕ) : (rowsAt (ctx.tag k rows) p).Sublist rows := by
  have h := (filter_sublist (p := fun x : ℕ × Row => decide (x.1 = p)) (l := ctx.tag k rows)).map Prod.snd
  rwa [ctx.map_snd_tag] at h

lemma Context.eq_nil_of_rowsAt {k : ℕ} {rows : List Row} (h : ∀ p, rowsAt (ctx.tag k rows) p = []) : rows = [] := by
  refine eq_nil_iff_forall_not_mem.2 fun row hrow => ?_
  rw [← ctx.map_snd_tag k rows] at hrow
  obtain ⟨x, hx, rfl⟩ := mem_map.1 hrow
  have hmem : x.2 ∈ rowsAt (ctx.tag k rows) x.1 := mem_map_of_mem (mem_filter.2 ⟨hx, by simp⟩)
  rw [h] at hmem
  cases hmem

end Tag

/-! ### What sorting gives -/

def LeadsTo (batches : List (List Row)) (index : ℕ × ℕ × ℕ) (tagged : ℕ × Row) : Prop :=
  index.1 = tagged.1 ∧ at₂ batches index.2 = some tagged.2

lemma countsTo_nextStartRows {part : Partitioning Row K} {taskId k startRows : ℕ}
    (h : part.CountsTo taskId k startRows) (numRows : ℕ) :
    part.CountsTo taskId (k + numRows) (part.nextStartRows startRows numRows) := by
  rintro n rfl
  show (startRows + numRows) % n % n = _
  rw [Nat.mod_mod, ← Nat.mod_add_mod, h n rfl, Nat.mod_add_mod, add_assoc]

section Sorting

variable [LinearOrder K] {ctx : Context Row K}

lemma leadsTo_batch {batches : List (List Row)} {batchIdx : ℕ} {batch : List Row}
    (hbatch : batches[batchIdx]? = some batch) (hidx : batchIdx < 2 ^ 32) (hlen : batch.length < 2 ^ 32) (k : ℕ) :
    Forall₂ (LeadsTo batches)
      ((batch.mapIdx fun i row => ctx.partitioning.partitionId ctx.taskId (k + i) row).mapIdx
        fun rowIdx id => (id, batchIdx % 2 ^ 32, rowIdx % 2 ^ 32)) (ctx.tag k batch) := by
  refine forall₂_iff_get.2 ⟨by simp [Context.tag], fun i hi _ => ?_⟩
  have hi : i < batch.length := by simpa using hi
  have hlead : at₂ batches (batchIdx % 2 ^ 32, i % 2 ^ 32) = some batch[i] := by
    rw [at₂, Nat.mod_eq_of_lt hidx, Nat.mod_eq_of_lt (hi.trans hlen), hbatch, Option.bind_some, getElem?_eq_getElem hi]
  simpa [LeadsTo, Context.tag] using hlead

/-- **The indices of all batches** lead to the rows, in order, with their partitions. -/
theorem allPartIds_spec (hvalid : ctx.partitioning.Valid) {all : List (List Row)} (hall : all.length < 2 ^ 32)
    (hrows : all.flatten.length < 2 ^ 32) (batches before : List (List Row)) (hsplit : all = before ++ batches)
    {k startRows : ℕ} (hstart : ctx.partitioning.CountsTo ctx.taskId k startRows) :
    ∃ ids, ctx.partitioning.allPartIds startRows batches = some ids ∧
      Forall₂ (LeadsTo all) (partitionIndices before.length ids) (ctx.tag k batches.flatten) := by
  induction batches generalizing before k startRows with
  | nil => exact ⟨[], rfl, .nil⟩
  | cons batch batches ih =>
    obtain ⟨ids, hids, hlead⟩ := ih (before ++ [batch]) (by simp [hsplit]) (countsTo_nextStartRows hstart batch.length)
    have hbatch : all[before.length]? = some batch := by simp [hsplit]
    have hlen : batch.length < 2 ^ 32 :=
      lt_of_le_of_lt (sublist_flatten_of_mem (mem_of_getElem? hbatch)).length_le hrows
    have hidx : before.length < 2 ^ 32 := (lt_of_getElem? hbatch).trans hall
    refine ⟨(batch.mapIdx fun i row => ctx.partitioning.partitionId ctx.taskId (k + i) row) :: ids, ?_, ?_⟩
    · rw [Partitioning.allPartIds, Partitioning.partIds_eq hvalid hstart, Option.bind_some, hids, Option.map_some]
    · rw [flatten_cons, ctx.tag_append]
      rw [length_append] at hlead
      exact rel_append (leadsTo_batch hbatch hidx hlen k) hlead

lemma partitionOffsets_eq (partCounts : List ℕ) (n : ℕ) :
    partitionOffsets (BitVec.ofNat 32 n) partCounts =
      (range (partCounts.length + 1)).map fun p => BitVec.ofNat 32 (n + (partCounts.take p).sum) := by
  induction partCounts generalizing n with
  | nil => simp [partitionOffsets]
  | cons partCount partCounts ih =>
    have hrange : range (partCounts.length + 1 + 1) = 0 :: (range (partCounts.length + 1)).map Nat.succ :=
      range_succ_eq_map
    rw [partitionOffsets, ← BitVec.ofNat_add, ih, length_cons, hrange, map_cons]
    simp [add_assoc]

/-- **Sorted batches are laid out by partition.** -/
theorem sortBatchesByPartitionId_spec (hvalid : ctx.partitioning.Valid) {batches : List (List Row)} (hne : batches ≠ [])
    (hbatches : batches.length < 2 ^ 32) (hrows : batches.flatten.length < 2 ^ 32) {currentNumRows : ℕ}
    (htask : ctx.taskId * 1000193 + currentNumRows < 2 ^ 64) :
    ∃ offsets parts, sortBatchesByPartitionId ctx batches currentNumRows = some (offsets, upTo parts ctx.numPartitions) ∧
      (upTo parts ctx.numPartitions).length = batches.flatten.length ∧ LaysOut ctx.numPartitions offsets parts ∧
      ∀ p, (parts p).Perm (rowsAt (ctx.tag currentNumRows batches.flatten) p) := by
  have hstart : ctx.partitioning.CountsTo ctx.taskId currentNumRows
      ((ctx.taskId * 1000193 + currentNumRows) % 2 ^ 64 % ctx.numPartitions) := by
    intro n hn
    rw [Context.numPartitions, hn, Nat.mod_eq_of_lt htask]
    exact Nat.mod_mod _ _
  obtain ⟨ids, hids, hlead⟩ := allPartIds_spec hvalid hbatches hrows batches [] rfl hstart
  have hkeys : ∀ x ∈ partitionIndices 0 ids, x.1 < ctx.numPartitions := by
    intro x hx
    obtain ⟨t, ht, hxt⟩ := exists_right_of_forall₂ hlead hx
    obtain ⟨i, _, rfl⟩ := getElem_of_mem ht
    rw [hxt.1]
    simp only [Context.tag, getElem_mapIdx]
    exact Partitioning.partitionId_lt hvalid _ _ _
  obtain ⟨sorted, hsort, hperm, hsorted⟩ := radixSortByKey_spec hkeys
  -- the rows the sorted indices lead to
  obtain ⟨tagged, hto, htagged⟩ := perm_comp_forall₂ hperm hlead
  have hfst : sorted.map Prod.fst = tagged.map Prod.fst := by
    refine forall₂_eq_eq_eq ▸ forall₂_map_left_iff.2 (forall₂_map_right_iff.2 (hto.imp fun _ _ h => h.1))
  have hpair : tagged.Pairwise fun x y => x.1 ≤ y.1 := by
    rw [← pairwise_map (f := Prod.fst) (R := (· ≤ ·)), ← hfst, pairwise_map]
    exact hsorted
  have hbound : ∀ x ∈ tagged, x.1 < ctx.numPartitions := by
    intro x hx
    obtain ⟨y, hy, hyx⟩ := exists_left_of_forall₂ hto hx
    exact hyx.1 ▸ hkeys y (hperm.subset hy)
  have hgather : gather₂ batches (sorted.map Prod.snd) = some (tagged.map Prod.snd) := by
    rw [gather₂_eq_some_iff, forall₂_map_left_iff, forall₂_map_right_iff]
    exact hto.imp fun _ _ h => h.2
  have hlayout : tagged.map Prod.snd = upTo (rowsAt tagged) ctx.numPartitions := by
    conv_lhs => rw [eq_upTo_of_pairwise hpair hbound, map_upTo]
    rfl
  have hcounts : ∀ p, (partitionIndices 0 ids).countP (fun x => x.1 = p) = (rowsAt tagged p).length := by
    intro p
    rw [rowsAt, length_map, ← countP_eq_length_filter, ← hperm.countP_eq]
    calc sorted.countP (fun x => x.1 = p) = (sorted.map Prod.fst).countP (fun q => q = p) := by
          rw [countP_map]; rfl
      _ = tagged.countP (fun x => x.1 = p) := by rw [hfst, countP_map]; rfl
  have hlen : (upTo (rowsAt tagged) ctx.numPartitions).length = batches.flatten.length := by
    rw [← hlayout, length_map, htagged.length_eq]
    simp [Context.tag]
  refine ⟨_, rowsAt tagged, ?_, hlen, ⟨rfl, hlen ▸ hrows⟩, fun _ => (htagged.filter _).map _⟩
  rw [sortBatchesByPartitionId, if_neg hvalid.1.ne']
  dsimp only
  rw [hids, Option.bind_some, hsort, Option.bind_some, if_neg hne, hgather, Option.map_some]
  congr 2
  rw [show (0 : BitVec 32) = BitVec.ofNat 32 0 from rfl, partitionOffsets_eq, length_map, length_range]
  refine map_congr_left fun p hp => ?_
  have hp := Nat.le_of_lt_succ (mem_range.1 hp)
  rw [zero_add, ← map_take, take_range, min_eq_left hp, upTo, length_flatMap]
  simp only [hcounts]

end Sorting

end Auron.Shuffle
