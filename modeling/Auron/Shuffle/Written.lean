import Auron.Shuffle.BufferedData

/-!
# What the shuffle buffer writes (`shuffle/buffered_data.rs`)

Bytes *store* rows if they are blocks of batches that hold these rows (`Stores`): what a reader gets of them is the rows,
in some order (`Stores.decodes`), and stored rows one behind the other are stored (`Stores.append`).  A file is
*partitioned* if it is laid out by its offsets in such parts (`Partitioned`).  Writing a buffer gives a partitioned file of
the rows it was given (`BufferedData.Holds.write_spec`).
-/

namespace Auron.Shuffle

open Auron.Common Auron.Io Auron.Io.IpcCompression Auron.Lib List

variable {Row K : Type} (ctx : Context Row K)

/-! ### Blocks -/

/-- The blocks the writer makes of batches, with the batches of the block it has begun. -/
def Context.cutBlocks : List (List Row) → List (List Row) → List (List (List Row))
  | pending, [] => if pending = [] then [] else [pending]
  | pending, rows :: batches =>
    let pending := pending ++ [rows]
    if ctx.isFull (4 + ctx.codec.flushed (plainOf (pending.map ctx.format.batch))) then
      pending :: cutBlocks [] batches
    else cutBlocks pending batches

lemma Context.flatten_cutBlocks (pending batches : List (List Row)) :
    (ctx.cutBlocks pending batches).flatten = pending ++ batches := by
  induction batches generalizing pending with
  | nil =>
    rw [cutBlocks]
    split
    · rename_i hnil
      simp [hnil]
    · simp
  | cons rows batches ih =>
    rw [cutBlocks]
    split
    · rw [flatten_cons, ih, nil_append, append_assoc, singleton_append]
    · rw [ih, append_assoc, singleton_append]

def Context.blockBytes (blocks : List (List (List Row))) : Bytes :=
  blocks.flatMap fun batches => block ctx.codec (plainOf (batches.map ctx.format.batch))

structure Context.Pending (writer : Writer) (pending : List (List Row)) : Prop where
  plain : writer.plain = plainOf (pending.map ctx.format.batch)
  blockEmpty : writer.blockEmpty = pending.isEmpty

variable {ctx}

variable {writer : Writer} {pending : List (List Row)}

lemma Context.Pending.finishCurrentBuf (h : ctx.Pending writer pending) :
    ctx.Pending (writer.finishCurrentBuf ctx.codec) [] ∧
      (writer.finishCurrentBuf ctx.codec).output =
        writer.output ++ ctx.blockBytes (if pending = [] then [] else [pending]) := by
  unfold Writer.finishCurrentBuf
  rw [h.blockEmpty]
  cases pending with
  | nil => exact ⟨h, by simp [blockBytes]⟩
  | cons rows pending =>
    refine ⟨⟨rfl, rfl⟩, ?_⟩
    simp [blockBytes, h.plain]

variable {rows : List Row} {bytes : Bytes}

lemma Context.Pending.writeBatch (h : ctx.Pending writer pending) (hne : rows ≠ [])
    (hbytes : BatchSerde.writeBatch rows.length (ctx.format.columns rows) = some bytes) :
    ∃ writer', ctx.Pending writer' (pending ++ [rows]) ∧ writer'.output = writer.output ∧
      writer.writeBatch ctx.codec ctx.isFull (ctx.format.batch rows) =
        if ctx.isFull (4 + ctx.codec.flushed (plainOf ((pending ++ [rows]).map ctx.format.batch))) then
          some (writer'.finishCurrentBuf ctx.codec) else some writer' := by
  have hplain : writer.plain ++ bytes = plainOf ((pending ++ [rows]).map ctx.format.batch) := by
    simp [h.plain, plainOf, batchBytes, BatchFormat.batch, hbytes]
  refine ⟨{ writer with plain := writer.plain ++ bytes, blockEmpty := false }, ⟨hplain, by simp⟩, rfl, ?_⟩
  rw [Writer.writeBatch, if_neg (show (ctx.format.batch rows).1 ≠ 0 by simpa [BatchFormat.batch] using hne)]
  show (BatchSerde.writeBatch rows.length (ctx.format.columns rows)).bind _ = _
  rw [hbytes, Option.bind_some, ← hplain]

variable {batches : List (List Row)}

/-- **A run of the writer** leaves the batches in blocks. -/
theorem Context.Pending.writeBatches
    (hbatches : ∀ rows ∈ batches, rows ≠ [] ∧
      ∃ bytes, BatchSerde.writeBatch rows.length (ctx.format.columns rows) = some bytes)
    (h : ctx.Pending writer pending) :
    ∃ writer', batches.foldlM (fun writer rows => writer.writeBatch ctx.codec ctx.isFull (ctx.format.batch rows)) writer =
        some writer' ∧ ctx.Pending (writer'.finishCurrentBuf ctx.codec) [] ∧
      (writer'.finishCurrentBuf ctx.codec).output = writer.output ++ ctx.blockBytes (ctx.cutBlocks pending batches) := by
  induction batches generalizing writer pending with
  | nil => exact ⟨writer, rfl, h.finishCurrentBuf⟩
  | cons rows batches ih =>
    obtain ⟨hne, _, hbytes⟩ := hbatches rows mem_cons_self
    have hrest := fun rows hrows => hbatches rows (mem_cons_of_mem _ hrows)
    obtain ⟨_, h₁, hout, hwrite⟩ := h.writeBatch hne hbytes
    rw [foldlM_cons, hwrite, cutBlocks]
    split
    · obtain ⟨hfinished, hblock⟩ := h₁.finishCurrentBuf
      obtain ⟨writer', hrun, hpending, houtput⟩ := ih hrest hfinished
      refine ⟨writer', hrun, hpending, ?_⟩
      rw [houtput, hblock, hout, if_neg (append_ne_nil_of_right_ne_nil _ (cons_ne_nil _ _)), append_assoc]
      simp [blockBytes]
    · obtain ⟨writer', hrun, hpending, houtput⟩ := ih hrest h₁
      exact ⟨writer', hrun, hpending, by rw [houtput, hout]⟩

/-! ### Stored rows -/

variable (validUtf8 : Bytes → Bool) (schema : List DataType)

/-- A batch of these rows is well formed, and the rows are read off any batch that is logically equal to it. -/
structure BatchFormat.RoundTrips (format : BatchFormat Row) (rows : List Row) : Prop where
  fits : Fits validUtf8 schema (format.batch rows)
  rows_eq : ∀ batch, SameBatch batch (format.batch rows) → format.rows batch = rows

variable (ctx)

def Context.Stores (bytes : Bytes) (rows : List Row) : Prop :=
  ∃ blocks : List (List (List Row)), bytes = ctx.blockBytes blocks ∧ blocks.flatten.flatten.Perm rows ∧
    ∀ batches ∈ blocks, FrameFits ctx.codec (batches.map ctx.format.batch) ∧
      ∀ rows ∈ batches, ctx.format.RoundTrips validUtf8 schema rows

variable {ctx validUtf8 schema}

lemma stores_nil : ctx.Stores validUtf8 schema [] [] := ⟨[], rfl, .nil, by simp⟩

lemma Context.Stores.append {bytes' : Bytes} {rows' : List Row} (h : ctx.Stores validUtf8 schema bytes rows)
    (h' : ctx.Stores validUtf8 schema bytes' rows') :
    ctx.Stores validUtf8 schema (bytes ++ bytes') (rows ++ rows') := by
  obtain ⟨blocks, rfl, hperm, hblocks⟩ := h
  obtain ⟨blocks', rfl, hperm', hblocks'⟩ := h'
  refine ⟨blocks ++ blocks', by simp [blockBytes], ?_, fun batches hbatches => ?_⟩
  · rw [flatten_append, flatten_append]
    exact hperm.append hperm'
  · rcases mem_append.1 hbatches with hbatches | hbatches
    · exact hblocks batches hbatches
    · exact hblocks' batches hbatches

lemma Context.Stores.perm {rows' : List Row} (h : ctx.Stores validUtf8 schema bytes rows) (hperm : rows.Perm rows') :
    ctx.Stores validUtf8 schema bytes rows' := by
  obtain ⟨blocks, hbytes, hrows, hblocks⟩ := h
  exact ⟨blocks, hbytes, hrows.trans hperm, hblocks⟩

lemma flatMap_rows_of_sameBatch {batches : List Batch} {rows : List (List Row)}
    (hrows : ∀ r ∈ rows, ctx.format.RoundTrips validUtf8 schema r)
    (h : Forall₂ SameBatch batches (rows.map ctx.format.batch)) : batches.flatMap ctx.format.rows = rows.flatten := by
  induction rows generalizing batches with
  | nil =>
    cases h
    rfl
  | cons r rows ih =>
    obtain ⟨batch, _, hsame, hsames, rfl⟩ := forall₂_cons_right_iff.1 h
    rw [flatMap_cons, flatten_cons, (hrows r mem_cons_self).rows_eq batch hsame,
      ih (fun r hr => hrows r (mem_cons_of_mem _ hr)) hsames]

/-- **Stored rows are read back.** -/
theorem Context.Stores.decodes (laws : ctx.codec.Laws) (htz : ∀ t ∈ schema, t.noTimezone = true)
    (h : ctx.Stores validUtf8 schema bytes rows) :
    ∃ rounds batches, readBatches validUtf8 (source : Source UInt8 IoErr (InputState ctx.codec)) schema rounds
      (.blockStart bytes) = some (.ok batches) ∧ (batches.flatMap ctx.format.rows).Perm rows := by
  obtain ⟨blocks, rfl, hperm, hblocks⟩ := h
  set groups := blocks.map (map ctx.format.batch) with hgroups
  have hflatten : groups.flatten = blocks.flatten.map ctx.format.batch := by rw [map_flatten]
  have hroundTrips : ∀ r ∈ blocks.flatten, ctx.format.RoundTrips validUtf8 schema r := by
    intro r hr
    obtain ⟨batches, hbatches, hr⟩ := mem_flatten.1 hr
    exact (hblocks batches hbatches).2 r hr
  have hframes : ∀ group ∈ groups, FrameFits ctx.codec group := by
    intro _ hgroup
    obtain ⟨batches, hbatches, rfl⟩ := mem_map.1 hgroup
    exact (hblocks batches hbatches).1
  have hfits : ∀ batch ∈ groups.flatten, Fits validUtf8 schema batch := by
    intro _ hbatch
    rw [hflatten] at hbatch
    obtain ⟨r, hr, rfl⟩ := mem_map.1 hbatch
    exact (hroundTrips r hr).fits
  obtain ⟨batches, hread, hsame⟩ := readBatches_blocks validUtf8 laws htz hframes hfits
  have hbytes : groups.flatMap (fun g => block ctx.codec (plainOf g)) = ctx.blockBytes blocks := by
    rw [flatMap_map]
    rfl
  rw [hbytes] at hread
  refine ⟨_, batches, hread, ?_⟩
  rw [flatMap_rows_of_sameBatch hroundTrips (hflatten ▸ hsame)]
  exact hperm

/-! ### The batches of a chunk -/

variable {α : Type}

lemma gather₂_append {xss : List (List α)} {is js : List (ℕ × ℕ)} {xs ys : List α} (h : gather₂ xss is = some xs)
    (h' : gather₂ xss js = some ys) : gather₂ xss (is ++ js) = some (xs ++ ys) :=
  gather₂_eq_some_iff.2 (rel_append (gather₂_eq_some_iff.1 h) (gather₂_eq_some_iff.1 h'))

lemma gather₂_sliceIndices {x : Slice 32} {batch : List Row} (hbatch : batches[x.input]? = some batch)
    (hlen : x.start.toNat + x.len ≤ batch.length) : gather₂ batches (sliceIndices x) = some (x.of batch) := by
  have hof : (x.of batch).length = x.len := by
    rw [Slice.of, length_take, length_drop, show x.stop.toNat - x.start.toNat = x.len from rfl]
    omega
  rw [gather₂_eq_some_iff]
  refine forall₂_iff_get.2 ⟨by simp [sliceIndices, hof], fun i hi _ => ?_⟩
  have hin : x.start.toNat + i < batch.length := by omega
  simp [sliceIndices, Slice.of, at₂, hbatch]

/-- **The batches of a chunk** hold its slices, one after the other, and none of them is much larger than asked for. -/
theorem batching_spec {content : Slice 32 → List Row} {batchSize maxLen : ℕ} (chunk : List (Slice 32))
    (hchunk : ∀ x ∈ chunk, gather₂ batches (sliceIndices x) = some (content x) ∧ (content x).length ≤ maxLen)
    {indices : List (ℕ × ℕ)} (hrows : gather₂ batches indices = some rows) (hfew : rows.length < batchSize) :
    ∃ subBatches, Forall₂ (fun indices rows => gather₂ batches indices = some rows)
        (batching batchSize indices chunk) subBatches ∧
      subBatches.flatten = rows ++ chunk.flatMap content ∧
      ∀ rows ∈ subBatches, rows ≠ [] ∧ rows.length ≤ batchSize + maxLen := by
  induction chunk generalizing indices rows with
  | nil =>
    have hlen := (gather₂_eq_some_iff.1 hrows).length_eq
    rw [batching]
    by_cases hnil : indices = []
    · subst hnil
      obtain rfl := length_eq_zero_iff.1 hlen.symm
      exact ⟨[], by simp, by simp, by simp⟩
    · rw [if_neg hnil]
      refine ⟨[rows], .cons hrows .nil, by simp, fun r hr => ?_⟩
      obtain rfl := mem_singleton.1 hr
      refine ⟨fun hnil' => hnil ?_, by omega⟩
      rw [hnil'] at hlen
      exact length_eq_zero_iff.1 hlen
  | cons x chunk ih =>
    obtain ⟨hx, _⟩ := hchunk x mem_cons_self
    have hrest := fun y hy => hchunk y (mem_cons_of_mem _ hy)
    have happend := gather₂_append hrows hx
    have hlength := (gather₂_eq_some_iff.1 happend).length_eq
    rw [batching]
    split
    · rename_i hfull
      obtain ⟨subBatches, hsub, hflatten, hall⟩ :=
        ih hrest (show gather₂ batches [] = some [] from rfl) (Nat.zero_lt_of_lt hfew)
      refine ⟨(rows ++ content x) :: subBatches, .cons happend hsub, ?_, fun r hr => ?_⟩
      · rw [flatten_cons, hflatten, nil_append, flatMap_cons, append_assoc]
      · rcases mem_cons.1 hr with rfl | hr
        · refine ⟨ne_nil_of_length_pos (by omega), ?_⟩
          rw [length_append]
          omega
        · exact hall r hr
    · obtain ⟨subBatches, hsub, hflatten, hall⟩ := ih hrest happend (by omega)
      exact ⟨subBatches, hsub, by rw [hflatten, flatMap_cons, append_assoc], hall⟩

lemma foldlM_gather₂ {σ : Type} {subBatches : List (List Row)} {indices : List (List (ℕ × ℕ))}
    (h : Forall₂ (fun i rows => gather₂ batches i = some rows) indices subBatches)
    (write : σ → List Row → Option σ) (s : σ) :
    indices.foldlM (fun s i => (gather₂ batches i).bind fun rows => write s rows) s = subBatches.foldlM write s := by
  induction h generalizing s with
  | nil => rfl
  | cons hi _ ih =>
    rw [foldlM_cons, hi]
    exact congrArg _ (funext fun s => ih s)

/-! ### The loop over the chunks -/

/-- Between two chunks: `n` partitions have been passed, and their bytes have been written. -/
structure WriteState.Passed (ctx : Context Row K) (bytes : ℕ → Bytes) (n : ℕ) (s : WriteState) : Prop where
  pending : ctx.Pending s.writer []
  output : s.writer.output = upTo bytes n
  offsets : s.offsets = (range n).map fun p => BitVec.ofNat 64 (upTo bytes p).length
  last : ∀ p, s.lastChunkPartitionId = some p → p < n

lemma WriteState.Passed.resize {bytes : ℕ → Bytes} {n : ℕ} {s : WriteState} (h : s.Passed ctx bytes n) {m : ℕ}
    (hnm : n ≤ m) (hgap : ∀ p, n ≤ p → p + 1 < m → bytes p = []) :
    Common.resize s.offsets m (BitVec.ofNat 64 s.writer.output.length) =
      (range m).map fun p => BitVec.ofNat 64 (upTo bytes p).length := by
  rw [h.offsets, h.output]
  refine resize_map_range _ hnm fun p hp hpm => ?_
  rw [upTo_of_empty hp fun q hq hqp => hgap q hq (by omega)]

/-- A chunk is written as these bytes. -/
def Context.WritesChunk (ctx : Context Row K) (batches : List (List Row)) (subBatchSize : ℕ) (chunk : List (Slice 32))
    (bytes : Bytes) : Prop :=
  ∃ subBatches, Forall₂ (fun indices rows => gather₂ batches indices = some rows)
    (batching subBatchSize [] chunk) subBatches ∧
    (∀ rows ∈ subBatches, rows ≠ [] ∧ ∃ b, BatchSerde.writeBatch rows.length (ctx.format.columns rows) = some b) ∧
    bytes = ctx.blockBytes (ctx.cutBlocks [] subBatches)

/-- **The loop over the chunks** writes the bytes of the partitions, one partition after the other. -/
theorem writeChunks_spec {subBatchSize : ℕ} {bytes : ℕ → Bytes} {chunks : List (ℕ × List (Slice 32))}
    (hinc : (chunks.map Prod.fst).Pairwise (· < ·))
    (hwrite : ∀ c ∈ chunks, ctx.WritesChunk batches subBatchSize c.2 (bytes c.1))
    {n P : ℕ} (hnP : n ≤ P) (hn : ∀ c ∈ chunks, n ≤ c.1 ∧ c.1 < P)
    (hgap : ∀ p, n ≤ p → p < P → p ∉ chunks.map Prod.fst → bytes p = []) {s : WriteState} (h : s.Passed ctx bytes n) :
    ∃ s' m, chunks.foldlM (writeChunk ctx batches subBatchSize) s = some s' ∧ m ≤ P ∧ s'.Passed ctx bytes m ∧
      ∀ p, m ≤ p → p < P → bytes p = [] := by
  induction chunks generalizing n s with
  | nil => exact ⟨s, n, rfl, hnP, h, fun p hp hpP => hgap p hp hpP (by simp)⟩
  | cons c chunks ih =>
    obtain ⟨hc, hinc⟩ := pairwise_cons.1 hinc
    obtain ⟨hnc, hcP⟩ := hn c mem_cons_self
    obtain ⟨_, hgather, hsub, hbytes⟩ := hwrite c mem_cons_self
    obtain ⟨writer, hrun, hpending, houtput⟩ := h.pending.writeBatches hsub
    have hbetween : ∀ p, n ≤ p → p < c.1 → bytes p = [] := by
      intro p hp hpc
      refine hgap p hp (hpc.trans hcP) fun hmem => ?_
      rcases mem_cons.1 hmem with heq | hmem
      · exact absurd heq (ne_of_lt hpc)
      · exact absurd (hc p hmem) (Nat.not_lt.2 hpc.le)
    have hstep : writeChunk ctx batches subBatchSize s c = some ⟨writer.finishCurrentBuf ctx.codec,
        (range (c.1 + 1)).map fun p => BitVec.ofNat 64 (upTo bytes p).length, some c.1⟩ := by
      have hlast : s.lastChunkPartitionId ≠ some c.1 := fun hlast => absurd (h.last _ hlast) (Nat.not_lt.2 hnc)
      rw [writeChunk, if_neg hlast]
      rw [foldlM_gather₂ hgather, hrun, Option.map_some,
        h.resize (Nat.le_succ_of_le hnc) fun p hp hpc => hbetween p hp (Nat.lt_of_succ_lt_succ hpc)]
    have hpassed : WriteState.Passed ctx bytes (c.1 + 1) ⟨writer.finishCurrentBuf ctx.codec,
        (range (c.1 + 1)).map fun p => BitVec.ofNat 64 (upTo bytes p).length, some c.1⟩ := by
      refine ⟨hpending, ?_, rfl, fun p hp => ?_⟩
      · rw [houtput, h.output, ← hbytes, upTo_succ, upTo_of_empty hnc hbetween]
      · obtain rfl := Option.some.inj hp
        exact Nat.lt_succ_self _
    obtain ⟨s', m, hfold, hm, hs', hrest⟩ := ih hinc (fun c' hc' => hwrite c' (mem_cons_of_mem _ hc')) hcP
      (fun c' hc' => ⟨hc _ (mem_map_of_mem hc'), (hn c' (mem_cons_of_mem _ hc')).2⟩)
      (fun p hp hpP hmem => hgap p (by omega) hpP (by
        rw [map_cons, mem_cons, not_or]
        exact ⟨by omega, hmem⟩)) hpassed
    exact ⟨s', m, by rw [foldlM_cons, hstep]; exact hfold, hm, hs', hrest⟩

/-- A chunk has all slices of its partition. -/
lemma filter_flatMap_chunks {w : ℕ} {cs : List (ℕ × List (Slice w))} (hinc : (cs.map Prod.fst).Pairwise (· < ·))
    (hcs : ∀ c ∈ cs, ∀ x ∈ c.2, x.partition = c.1) {c : ℕ × List (Slice w)} (hc : c ∈ cs) :
    (cs.flatMap Prod.snd).filter (fun x => x.partition = c.1) = c.2 := by
  induction cs with
  | nil => cases hc
  | cons c' cs ih =>
    obtain ⟨hlt, hinc⟩ := pairwise_cons.1 hinc
    obtain ⟨hc', hrest⟩ := forall_mem_cons.1 hcs
    rw [flatMap_cons, filter_append]
    rcases mem_cons.1 hc with rfl | hc
    · have hnone : (cs.flatMap Prod.snd).filter (fun x => x.partition = c.1) = [] := filter_eq_nil_iff.2 fun x hx => by
        obtain ⟨c', hmem, hx⟩ := mem_flatMap.1 hx
        simpa [hrest c' hmem x hx] using (hlt c'.1 (mem_map_of_mem hmem)).ne'
      rw [hnone, append_nil]
      exact filter_eq_self.2 fun x hx => by simpa using hc' x hx
    · have hnone : c'.2.filter (fun x => x.partition = c.1) = [] := filter_eq_nil_iff.2 fun x hx => by
        simpa [hc' x hx] using (hlt c.1 (mem_map_of_mem hc)).ne
      rw [hnone, ih hinc hrest hc, nil_append]

/-! ### Sorted batches in a file -/

/-- The file is laid out by the offsets, every partition with its rows. -/
def Context.Partitioned (ctx : Context Row K) (validUtf8 : Bytes → Bool) (schema : List DataType) (data : Bytes)
    (offsets : List (BitVec 64)) (rows : ℕ → List Row) : Prop :=
  ∃ parts : ℕ → Bytes, data = upTo parts ctx.numPartitions ∧
    offsets = (range (ctx.numPartitions + 1)).map (fun p => BitVec.ofNat 64 (upTo parts p).length) ∧
    ∀ p < ctx.numPartitions, ctx.Stores validUtf8 schema (parts p) (rows p)

lemma Context.Partitioned.perm {data : Bytes} {offsets : List (BitVec 64)} {rows rows' : ℕ → List Row}
    (h : ctx.Partitioned validUtf8 schema data offsets rows) (hperm : ∀ p < ctx.numPartitions, (rows p).Perm (rows' p)) :
    ctx.Partitioned validUtf8 schema data offsets rows' := by
  obtain ⟨parts, hdata, hoffsets, hparts⟩ := h
  exact ⟨parts, hdata, hoffsets, fun p hp => (hparts p hp).perm (hperm p hp)⟩

/-- What is assumed of any batch of some of the rows, up to a size: it is serialized and read back, and the frame of a
block that the writer makes of such batches fits its header. -/
structure Context.Serializes (ctx : Context Row K) (validUtf8 : Bytes → Bool) (schema : List DataType) (all : List Row)
    (limit : ℕ) : Prop where
  noTimezone : ∀ t ∈ schema, t.noTimezone = true
  roundTrips : ∀ rows, rows.Subperm all → rows.length ≤ limit → ctx.format.RoundTrips validUtf8 schema rows
  frames : ∀ batches : List (List Row), (∀ rows ∈ batches, rows.Subperm all ∧ rows.length ≤ limit) →
    ∀ block ∈ ctx.cutBlocks [] batches, FrameFits ctx.codec (block.map ctx.format.batch)

lemma Context.Serializes.writeBatch {all : List Row} {limit : ℕ} (h : ctx.Serializes validUtf8 schema all limit)
    (hsub : rows.Subperm all) (hlen : rows.length ≤ limit) :
    ∃ bytes, BatchSerde.writeBatch rows.length (ctx.format.columns rows) = some bytes := by
  obtain ⟨_, -, hwrite, -⟩ := (h.roundTrips rows hsub hlen).fits.bytes h.noTimezone
  exact ⟨_, hwrite⟩

lemma Context.Serializes.stores {all : List Row} {limit : ℕ} (h : ctx.Serializes validUtf8 schema all limit)
    (hbatches : ∀ rows ∈ batches, rows.Subperm all ∧ rows.length ≤ limit) :
    ctx.Stores validUtf8 schema (ctx.blockBytes (ctx.cutBlocks [] batches)) batches.flatten := by
  refine ⟨_, rfl, by rw [ctx.flatten_cutBlocks, nil_append], fun block hblock => ?_⟩
  refine ⟨h.frames batches hbatches block hblock, fun rows hrows => ?_⟩
  have hmem : rows ∈ batches := by
    have := mem_flatten.2 ⟨block, hblock, hrows⟩
    rwa [ctx.flatten_cutBlocks] at this
  exact h.roundTrips rows (hbatches rows hmem).1 (hbatches rows hmem).2

lemma Context.Serializes.writesChunk {all : List Row} {limit : ℕ} (h : ctx.Serializes validUtf8 schema all limit)
    {content : Slice 32 → List Row} {subBatchSize maxLen : ℕ} (hsize : 0 < subBatchSize)
    (hlimit : subBatchSize + maxLen ≤ limit)
    {chunk : List (Slice 32)}
    (hchunk : ∀ x ∈ chunk, gather₂ batches (sliceIndices x) = some (content x) ∧ (content x).length ≤ maxLen)
    (hsub : (chunk.flatMap content).Subperm all) :
    ∃ bytes, ctx.WritesChunk batches subBatchSize chunk bytes ∧
      ctx.Stores validUtf8 schema bytes (chunk.flatMap content) := by
  obtain ⟨subBatches, hgather, hflatten, hall⟩ :=
    batching_spec chunk hchunk (show gather₂ batches [] = some [] from rfl) hsize
  rw [nil_append] at hflatten
  rw [← hflatten] at hsub ⊢
  have hfits : ∀ rows ∈ subBatches, rows.Subperm all ∧ rows.length ≤ limit := fun rows hrows =>
    ⟨(sublist_flatten_of_mem hrows).subperm.trans hsub, (hall rows hrows).2.trans hlimit⟩
  refine ⟨_, ⟨subBatches, hgather, fun rows hrows => ⟨(hall rows hrows).1, ?_⟩, rfl⟩, h.stores hfits⟩
  exact h.writeBatch (hfits rows hrows).1 (hfits rows hrows).2

structure BufferedData.Sorted (ctx : Context Row K) (d : BufferedData Row) (parts : ℕ → ℕ → List Row) (maxLen : ℕ) :
    Prop where
  length_eq : d.sortedOffsets.length = d.sortedBatches.length
  batches : ∀ i batch, d.sortedBatches[i]? = some batch → batch = upTo (parts i) ctx.numPartitions ∧ batch.length ≤ maxLen
  offsets : ∀ i offsets, d.sortedOffsets[i]? = some offsets → LaysOut ctx.numPartitions offsets (parts i)

abbrev BufferedData.inputs (d : BufferedData Row) : List (Offsetted 32 ℕ) :=
  d.sortedOffsets.mapIdx fun idx offsets => ⟨offsets, idx⟩

def BufferedData.content (d : BufferedData Row) (x : Slice 32) : List Row := x.of (d.sortedBatches.getD x.input [])

section Sorted

variable {d : BufferedData Row} {parts : ℕ → ℕ → List Row} {maxLen : ℕ}

variable (h : d.Sorted ctx parts maxLen)

include h

lemma BufferedData.Sorted.inputs_laysOut {i : ℕ} {o : Offsetted 32 ℕ}
    (ho : d.inputs[i]? = some o) : LaysOut ctx.numPartitions o.offsets (parts i) := by
  rw [getElem?_mapIdx] at ho
  obtain ⟨offsets, hoffsets, rfl⟩ := Option.map_eq_some_iff.1 ho
  exact h.offsets i offsets hoffsets

lemma BufferedData.Sorted.slice_spec {i p : ℕ} {o : Offsetted 32 ℕ} {x : Slice 32}
    (hp : p < ctx.numPartitions) (ho : d.inputs[i]? = some o) (hx : slice i o.offsets p = some x) :
    d.content x = parts i p ∧ gather₂ d.sortedBatches (sliceIndices x) = some (d.content x) ∧
      (d.content x).length ≤ maxLen := by
  have hlays := h.inputs_laysOut ho
  have hinput : x.input = i := (slice_eq_some.1 hx).2.2.2.2
  have hi : i < d.sortedBatches.length := by
    have := lt_of_getElem? ho
    rw [length_mapIdx, h.length_eq] at this
    exact this
  obtain ⟨hbatch, hlen⟩ := h.batches i _ (getElem?_eq_getElem hi)
  have hcontent : d.content x = x.of (upTo (parts i) ctx.numPartitions) := by
    rw [content, hinput, getD_eq_getElem _ _ hi, hbatch]
  obtain ⟨hof, hslen⟩ := hlays.slice_of hp hx
  refine ⟨hcontent.trans hof, ?_, ?_⟩
  · have hstart : x.start.toNat + x.len ≤ (upTo (parts i) ctx.numPartitions).length := by
      have hle := length_upTo_mono (parts i) (Nat.succ_le_of_lt hp)
      have hs := hlays.getElem?_offsets hp.le
      rw [(slice_eq_some.1 hx).1] at hs
      rw [Option.some.inj hs, hlays.toNat_offset hp.le, hslen, ← length_upTo_succ]
      exact hle
    rw [hcontent]
    refine gather₂_sliceIndices ?_ hstart
    rw [hinput, getElem?_eq_getElem hi, hbatch]
  · rw [hcontent]
    refine (take_sublist _ _).length_le.trans ((drop_sublist _ _).length_le.trans ?_)
    rw [← hbatch]
    exact hlen

/-- **Sorted batches are written partition by partition.** -/
theorem BufferedData.Sorted.writeSorted_spec (hne : d.sortedBatches ≠ [])
    {all : List Row} {limit : ℕ} (hser : ctx.Serializes validUtf8 schema all limit)
    (hsize : 0 < ctx.suggestedBatchSize d.memUsed d.numRows)
    (hlimit : ctx.suggestedBatchSize d.memUsed d.numRows + maxLen ≤ limit)
    (hsub : ∀ p, ((range d.sortedBatches.length).flatMap fun i => parts i p).Subperm all) :
    ∃ data offsets, d.writeSorted ctx = some (data, offsets) ∧
      ctx.Partitioned validUtf8 schema data offsets
        fun p => (range d.sortedBatches.length).flatMap fun i => parts i p := by
  have hinputs : d.inputs.length = d.sortedBatches.length := by rw [length_mapIdx, h.length_eq]
  have hinputsNe : d.inputs ≠ [] := ne_nil_of_length_pos (hinputs ▸ length_pos_of_ne_nil hne)
  have hlen : ∀ o ∈ d.inputs, o.offsets.length = ctx.numPartitions + 1 := by
    intro o ho
    obtain ⟨i, hi, rfl⟩ := getElem_of_mem ho
    exact (h.inputs_laysOut (getElem?_eq_getElem hi)).length_offsets
  obtain ⟨it, hnew, hwf, _, hrest, -⟩ := OffsettedMergeIterator.new_spec hinputsNe hlen
  obtain ⟨_, cs, _, hchunks, hpops, hend, hinc, hcs⟩ := hwf.chunks_spec
  rw [hrest] at hpops
  have hperm := (merge_pairwise hpops hend).1
  have hfuel : it.rest.flatten.length < (d.sortedOffsets.map length).sum + 1 := by
    have hle := length_slices_le hlen
    rw [hrest]
    have hmap : d.inputs.map (fun o => o.offsets.length) = d.sortedOffsets.map length :=
      ext_getElem (by simp) fun i _ _ => by simp
    rw [hmap] at hle
    omega
  -- the rows of a chunk are those of its partition
  have hpart : ∀ p < ctx.numPartitions, (((cs.flatMap Prod.snd).filter fun x => x.partition = p).flatMap d.content).Perm
      ((range d.sortedBatches.length).flatMap fun i => parts i p) := by
    intro p hp
    rw [← hinputs]
    exact flatMap_slices_perm (fun i o ho => h.inputs_laysOut ho) hperm hp
      (fun i o x ho hx => (h.slice_spec hp ho hx).1) fun i o _ hi => hi
  have hlt : ∀ c ∈ cs, c.1 < ctx.numPartitions := by
    intro c hc
    obtain ⟨x, hx⟩ := exists_mem_of_ne_nil _ (hcs c hc).1
    exact (hcs c hc).2 x hx ▸ (slice_of_mem_slices (hperm.subset (mem_flatMap.2 ⟨c, hc, hx⟩))).1
  have hbytes : ∀ p < ctx.numPartitions, ∃ b, ctx.WritesChunk d.sortedBatches (ctx.suggestedBatchSize d.memUsed d.numRows)
        ((cs.flatMap Prod.snd).filter fun x => x.partition = p) b ∧
      ctx.Stores validUtf8 schema b (((cs.flatMap Prod.snd).filter fun x => x.partition = p).flatMap d.content) := by
    refine fun p hp => hser.writesChunk hsize hlimit (fun x hx => ?_) ((hpart p hp).subperm.trans (hsub p))
    obtain ⟨hp, o, ho, hslice⟩ := slice_of_mem_slices (hperm.subset (mem_of_mem_filter hx))
    exact (h.slice_spec hp ho hslice).2
  choose! bytes hbytes using hbytes
  have hgap : ∀ p < ctx.numPartitions, p ∉ cs.map Prod.fst → bytes p = [] := by
    intro p hp hnone
    have hempty : (cs.flatMap Prod.snd).filter (fun x => x.partition = p) = [] := filter_eq_nil_iff.2 fun x hx hxp => by
      obtain ⟨c, hc, hx⟩ := mem_flatMap.1 hx
      exact hnone (mem_map.2 ⟨c, hc, ((hcs c hc).2 x hx).symm.trans (of_decide_eq_true hxp)⟩)
    obtain ⟨_, hnil, -, hb⟩ := hempty ▸ (hbytes p hp).1
    cases hnil
    exact hb
  obtain ⟨s, m, hfold, hm, hpassed, hrestEmpty⟩ := writeChunks_spec hinc
    (fun c hc => filter_flatMap_chunks hinc (fun c hc => (hcs c hc).2) hc ▸ (hbytes c.1 (hlt c hc)).1)
    (Nat.zero_le ctx.numPartitions) (fun c hc => ⟨Nat.zero_le _, hlt c hc⟩) (fun p _ => hgap p)
    (s := ⟨Writer.new, [], none⟩) ⟨⟨rfl, rfl⟩, rfl, rfl, fun p hp => by cases hp⟩
  refine ⟨upTo bytes ctx.numPartitions, _, ?_, bytes, rfl, rfl, fun p hp => (hbytes p hp).2.perm (hpart p hp)⟩
  rw [writeSorted, if_neg hne, hnew, Option.bind_some, hchunks _ hfuel, Option.bind_some, hfold, Option.map_some,
    hpassed.resize (Nat.le_succ_of_le hm) fun p hp hpP => hrestEmpty p hp (Nat.lt_of_succ_lt_succ hpP), hpassed.output,
    upTo_of_empty hm hrestEmpty]

end Sorted

/-! ### The buffer -/

/-- The buffer holds the rows it was given since it was drained: the first ones in sorted batches, the others staged. -/
structure BufferedData.Holds [LinearOrder K] (ctx : Context Row K) (d : BufferedData Row) (rows : List Row)
    (numBatches maxLen : ℕ) : Prop where
  numRows : d.numRows = rows.length
  stagingNumRows : d.stagingNumRows = d.stagingBatches.flatten.length
  fewBatches : d.stagingBatches.length ≤ numBatches
  fewRows : d.stagingNumRows ≤ maxLen
  sorted : ∃ before parts, rows = before ++ d.stagingBatches.flatten ∧ d.Sorted ctx parts maxLen ∧
    ∀ p, ((range d.sortedBatches.length).flatMap fun i => parts i p).Perm (rowsAt (ctx.tag 0 before) p)

lemma Context.suggestedBatchSize_le (memSize numRows : ℕ) :
    ctx.suggestedBatchSize memSize numRows ≤ max ctx.batchSize 20 := by
  unfold suggestedBatchSize
  split
  · exact le_max_left _ _
  · exact max_le_max (min_le_right _ _) le_rfl

lemma Context.suggestedBatchSize_pos {numRows : ℕ} (memSize : ℕ) (h : numRows ≠ 0) :
    0 < ctx.suggestedBatchSize memSize numRows := by
  rw [suggestedBatchSize, if_neg h]
  exact lt_max_of_lt_right (by decide)

lemma forall_concat {β : Type} {R : β → α → Prop} {l : List α} {f : ℕ → β} (h : ∀ i x, l[i]? = some x → R (f i) x) {b : β}
    {a : α} (ha : R b a) : ∀ i x, (l ++ [a])[i]? = some x → R (Function.update f l.length b i) x := by
  intro i x hx
  have hlt : i < l.length + 1 := by simpa using lt_of_getElem? hx
  rcases eq_or_ne i l.length with rfl | hne
  · rw [getElem?_concat_length, Option.some_inj] at hx
    rwa [Function.update_self, ← hx]
  · rw [getElem?_append_left (by omega)] at hx
    rw [Function.update_of_ne hne]
    exact h i x hx

lemma BufferedData.Sorted.push {d d' : BufferedData Row} {parts : ℕ → ℕ → List Row} {maxLen : ℕ}
    (h : d.Sorted ctx parts maxLen) {offsets : List (BitVec 32)} {new : ℕ → List Row}
    (hnew : LaysOut ctx.numPartitions offsets new) (hlen : (upTo new ctx.numPartitions).length ≤ maxLen)
    (hbatches : d'.sortedBatches = d.sortedBatches ++ [upTo new ctx.numPartitions])
    (hoffsets : d'.sortedOffsets = d.sortedOffsets ++ [offsets]) :
    d'.Sorted ctx (Function.update parts d.sortedBatches.length new) maxLen := by
  refine ⟨by rw [hbatches, hoffsets, length_append, length_append, h.length_eq]; rfl, ?_, ?_⟩
  · rw [hbatches]
    exact forall_concat (R := fun parts batch => batch = upTo parts ctx.numPartitions ∧ batch.length ≤ maxLen)
      h.batches ⟨rfl, hlen⟩
  · rw [hoffsets, ← h.length_eq]
    exact forall_concat (R := fun parts offsets => LaysOut ctx.numPartitions offsets parts) h.offsets hnew

lemma flatMap_range_update (parts : ℕ → ℕ → List α) (n : ℕ) (new : ℕ → List α) (p : ℕ) :
    ((range (n + 1)).flatMap fun i => Function.update parts n new i p) =
      ((range n).flatMap fun i => parts i p) ++ new p := by
  rw [range_succ, flatMap_append, flatMap_singleton, Function.update_self]
  congr 1
  exact flatMap_congr fun i hi => by rw [Function.update_of_ne (mem_range.1 hi).ne]

section Buffer

variable [LinearOrder K] {d : BufferedData Row} {rows : List Row} {numBatches maxLen : ℕ}

lemma holds_new_buffer (numBatches maxLen : ℕ) : BufferedData.new.Holds ctx ([] : List Row) numBatches maxLen := by
  refine ⟨rfl, rfl, Nat.zero_le _, Nat.zero_le _, [], fun _ _ => [], rfl, ⟨rfl, ?_, ?_⟩, ?_⟩ <;>
    simp [BufferedData.new, rowsAt]

variable (h : d.Holds ctx rows numBatches maxLen)

include h

lemma BufferedData.Holds.eq_nil (hsorted : d.sortedBatches = []) (hstaging : d.stagingBatches = []) : rows = [] := by
  obtain ⟨before, _, hrows, -, hparts⟩ := h.sorted
  have hbefore : before = [] := ctx.eq_nil_of_rowsAt fun p => by simpa [hsorted] using (hparts p).symm
  rw [hrows, hbefore, hstaging]
  rfl

variable (hvalid : ctx.partitioning.Valid) (hbatches : numBatches < 2 ^ 32) (hmax : maxLen < 2 ^ 32)
  (htask : ctx.taskId * 1000193 + rows.length < 2 ^ 64)

include hvalid hbatches hmax htask in
/-- **A flush** sorts what is staged. -/
theorem BufferedData.Holds.flushStaging_spec (hne : d.stagingBatches ≠ []) :
    ∃ d', d.flushStaging ctx = some d' ∧ d'.Holds ctx rows numBatches maxLen ∧ d'.stagingBatches = [] ∧
      d'.sortedBatches ≠ [] := by
  obtain ⟨before, _, hrows, hsorted, hparts⟩ := h.sorted
  have hbefore : d.numRows - d.stagingNumRows = before.length := by
    rw [h.numRows, h.stagingNumRows, hrows, length_append, Nat.add_sub_cancel]
  have hstaged : d.stagingBatches.flatten.length ≤ maxLen := h.stagingNumRows ▸ h.fewRows
  have hle : before.length ≤ rows.length := by
    rw [hrows, length_append]
    exact Nat.le_add_right _ _
  obtain ⟨offsets, new, hsort, hlen, hlays, hnew⟩ := sortBatchesByPartitionId_spec hvalid hne
    (lt_of_le_of_lt h.fewBatches hbatches) (lt_of_le_of_lt hstaged hmax)
    (show ctx.taskId * 1000193 + before.length < 2 ^ 64 by omega)
  set d' : BufferedData Row :=
    { stagingBatches := []
      stagingNumRows := 0
      stagingMemUsed := 0
      sortedBatches := d.sortedBatches ++ [upTo new ctx.numPartitions]
      sortedOffsets := d.sortedOffsets ++ [offsets]
      numRows := d.numRows
      sortedMemUsed := d.sortedMemUsed + (ctx.format.batchMemSize (upTo new ctx.numPartitions) + offsets.length * 4) }
  have hflush : d.flushStaging ctx = some d' := by
    rw [flushStaging, hbefore, hsort, Option.map_some]
  refine ⟨d', hflush, ⟨h.numRows, rfl, Nat.zero_le _, Nat.zero_le _, rows, _, by simp [d'],
    hsorted.push hlays (hlen ▸ hstaged) rfl rfl, fun p => ?_⟩, rfl, by simp [d']⟩
  rw [show d'.sortedBatches.length = d.sortedBatches.length + 1 by simp [d'], flatMap_range_update, hrows, ctx.tag_append,
    rowsAt, filter_append, map_append, zero_add]
  exact (hparts p).append (hnew p)

/-- **`add_batch`** takes the rows of the batch; fewer rows than the size of a batch stay staged. -/
theorem BufferedData.Holds.addBatch_spec (hshort : d.stagingNumRows < max ctx.batchSize 20) {batch : List Row}
    (hbatch : max ctx.batchSize 20 + batch.length ≤ maxLen) (hvalid : ctx.partitioning.Valid)
    (hbatches : numBatches + 1 < 2 ^ 32) (hmax : maxLen < 2 ^ 32)
    (htask : ctx.taskId * 1000193 + (rows ++ batch).length < 2 ^ 64) :
    ∃ d', d.addBatch ctx batch = some d' ∧ d'.Holds ctx (rows ++ batch) (numBatches + 1) maxLen ∧
      d'.stagingNumRows < max ctx.batchSize 20 := by
  have hstage : (d.stage ctx batch).Holds ctx (rows ++ batch) (numBatches + 1) maxLen := by
    obtain ⟨before, parts, hrows, hsorted, hparts⟩ := h.sorted
    refine ⟨?_, ?_, ?_, ?_, before, parts, ?_, ⟨hsorted.length_eq, hsorted.batches, hsorted.offsets⟩, hparts⟩
    · rw [length_append, ← h.numRows]
      rfl
    · show d.stagingNumRows + batch.length = (d.stagingBatches ++ [batch]).flatten.length
      rw [h.stagingNumRows]
      simp
    · show (d.stagingBatches ++ [batch]).length ≤ _
      rw [length_append]
      exact Nat.succ_le_succ h.fewBatches
    · show d.stagingNumRows + batch.length ≤ maxLen
      omega
    · show rows ++ batch = before ++ (d.stagingBatches ++ [batch]).flatten
      rw [hrows]
      simp
  rw [addBatch]
  split
  · obtain ⟨d', hflush, hd', hnil, -⟩ := hstage.flushStaging_spec hvalid hbatches hmax htask (by simp [stage])
    refine ⟨d', hflush, hd', ?_⟩
    rw [hd'.stagingNumRows, hnil]
    exact lt_max_of_lt_right (Nat.zero_lt_succ 19)
  · rename_i hfew
    exact ⟨_, rfl, hstage, lt_of_lt_of_le (Nat.lt_of_not_le hfew) (ctx.suggestedBatchSize_le _ _)⟩

include hvalid hbatches hmax htask in
/-- **`write` gives a partitioned file of the rows of the buffer.** -/
theorem BufferedData.Holds.write_spec {all : List Row} (hsub : rows.Subperm all)
    (hser : ctx.Serializes validUtf8 schema all (max ctx.batchSize 20 + maxLen)) :
    ∃ data offsets, d.write ctx = some (data, offsets) ∧
      ctx.Partitioned validUtf8 schema data offsets (rowsAt (ctx.tag 0 rows)) := by
  rw [write]
  by_cases hzero : d.numRows = 0
  · rw [if_pos hzero]
    obtain rfl : rows = [] := length_eq_zero_iff.1 (h.numRows ▸ hzero)
    refine ⟨[], _, rfl, fun _ => [], by simp [upTo], ?_, fun p _ => stores_nil⟩
    simp [upTo, map_const']
  · rw [if_neg hzero]
    -- everything is sorted first
    have hflushed : ∃ d', (if d.stagingBatches = [] then some d else d.flushStaging ctx) = some d' ∧
        d'.Holds ctx rows numBatches maxLen ∧ d'.stagingBatches = [] ∧ d'.sortedBatches ≠ [] := by
      by_cases hnil : d.stagingBatches = []
      · refine ⟨d, if_pos hnil, h, hnil, fun hnone => hzero ?_⟩
        rw [h.numRows, h.eq_nil hnone hnil]
        rfl
      · rw [if_neg hnil]
        exact h.flushStaging_spec hvalid hbatches hmax htask hnil
    obtain ⟨d', hd', hholds, hnil, hne⟩ := hflushed
    obtain ⟨before, _, hrows, hsorted, hparts⟩ := hholds.sorted
    obtain rfl : rows = before := by rw [hrows, hnil, flatten_nil, append_nil]
    have hnum : d'.numRows ≠ 0 := by rwa [hholds.numRows, ← h.numRows]
    obtain ⟨data, offsets, hwrite, hpart⟩ := hsorted.writeSorted_spec hne hser (ctx.suggestedBatchSize_pos _ hnum)
      (Nat.add_le_add_right (ctx.suggestedBatchSize_le _ _) _)
      fun p => (hparts p).subperm.trans ((ctx.rowsAt_sublist 0 rows p).subperm.trans hsub)
    exact ⟨data, offsets, by rw [hd', Option.bind_some, hwrite], hpart.perm fun p _ => hparts p⟩

end Buffer

end Auron.Shuffle
