import Auron.Sort.Merger
import Auron.Sort.Prune

/-!
# The external sorter of `sort_exec.rs`

`ExternalSorter::insert_batch` sorts a batch, cuts it to the limit and keeps it as a block in memory;
`ExternalSorter::spill` merges the blocks in memory into one spill, and thirty-two spills of one level into one of the
next; `ExternalSorter::output` merges whatever there is, skips the offset and sends the rest.  Every merge stops at the
limit.

The batch sizes, which the code computes from the memory in use, are arguments here, and so is the sequence of
`insert_batch` and `spill` calls.  Third-party parts are parameters with the properties the code relies on: the row
encoding (`RowConverter`), batch serialization and spill compression (`SpillIo`), and the order in which an unstable sort
leaves equal keys (`SortUnstable`).

A run is a sequence of calls on a new sorter (`Op`, `steps`) and its output (`run`); what it outputs is the subject of
`Auron.Sort.Correct`.
-/

namespace Auron.Sort

open Auron.Io Auron.Lib

variable {V B KC : Type} {n : ℕ}

/-- `sorted_unstable_by_key`: some sort of the elements by their keys. -/
structure SortUnstable where
  sortedUnstableByKey : {α κ : Type} → [LinearOrder κ] → (α → κ) → List α → List α
  perm : ∀ {α κ : Type} [LinearOrder κ] (key : α → κ) (xs : List α), (sortedUnstableByKey key xs).Perm xs
  sorted : ∀ {α κ : Type} [LinearOrder κ] (key : α → κ) (xs : List α),
    (sortedUnstableByKey key xs).Pairwise fun a b => key a ≤ key b

def numMaxMergingBatches : ℕ := 32

/-- What an `ExternalSorter` is given: the key columns, the offset, the limit, whether its receiver also wants the key
rows, and the third-party parts. -/
structure SorterConfig (V : Type) (n : ℕ) where
  prune : PruneSortKeysFromBatch V n
  skip : ℕ
  limit : Option ℕ
  withKeyRows : Bool
  io : SpillIo V
  sort : SortUnstable

section Limits

variable (cfg : SorterConfig V n)

/-- `limit.unwrap_or(usize::MAX)`. -/
def SorterConfig.limitNum : ℕ := cfg.limit.getD usizeMax

def SorterConfig.params : MergeParams := ⟨cfg.limitNum, cfg.prune.isAllPruned⟩

@[simp] lemma SorterConfig.params_limit : cfg.params.limit = cfg.limitNum := rfl

end Limits

/-! ### Loops over `Merger::next` -/

section Loops

variable [SortedBlock B V]

/-- `while let Some(..) = merger.next(batch_size)?`, with a number of rounds allowed. -/
def Merger.drain (KC : Type) [KeyCollector KC] (p : MergeParams) (batchSize : ℕ) :
    ℕ → Merger B V → Except Fault (List (KC × List (List V)))
  | 0, _ => .error .outOfFuel
  | fuel + 1, m =>
    match m.next KC p batchSize with
    | (.error e, _) => .error e
    | (.ok none, _) => .ok []
    | (.ok (some out), m) =>
      match m.drain KC p batchSize fuel with
      | .error e => .error e
      | .ok outs => .ok (out :: outs)

/-- `skip_rows`, with a number of rounds allowed. -/
def Merger.skipRows (KC : Type) [KeyCollector KC] (p : MergeParams) (suggestedBatchSize : ℕ) :
    ℕ → ℕ → Merger B V → Except Fault Unit × Merger B V
  | 0, _, m => (.error .outOfFuel, m)
  | fuel + 1, remaining, m =>
    if 0 < remaining then
      let batchSize := min remaining suggestedBatchSize
      match m.next KC p batchSize with
      | (.error e, m) => (.error e, m)
      | (.ok none, m) => (.ok (), m)
      | (.ok (some _), m) => m.skipRows KC p suggestedBatchSize fuel (remaining - batchSize)
    else (.ok (), m)

/-- `merge_blocks` into a spill.  Every round of the loop outputs a row, and there are at most `limit` of them. -/
def mergeBlocks (p : MergeParams) (io : SpillIo V) (subBatchSize : ℕ) (blocks : List B) :
    Except Fault (SpillSortedBlock io) :=
  if 1 ≤ blocks.length then
    match Merger.tryNew blocks with
    | .error e => .error e
    | .ok m =>
      match m.drain SqueezeKeyCollector p subBatchSize (p.limit + 1) with
      | .error e => .error e
      | .ok outs =>
        .ok (outs.foldl (fun bb out => bb.addBatchAndKeys out.2 out.1) ({} : SpillSortedBlockBuilder io)).finish
  else .error .panic

end Loops

/-! ### The sorter -/

structure LevelSpill (io : SpillIo V) where
  block : SpillSortedBlock io
  level : ℕ

/-- `ExternalSorter`: what its locks protect. -/
structure ExternalSorter (cfg : SorterConfig V n) where
  inMemBlocks : List (InMemSortedBlock V) := []
  spills : List (LevelSpill cfg.io) := []

/-- A batch sent to the receiver, with its key rows if it wants them. -/
structure Sent (V : Type) where
  batch : List (List V)
  keyRows : Option (List Bytes)

namespace ExternalSorter

variable {cfg : SorterConfig V n}

/-- The `sorted_indices` of `insert_batch`: row numbers are `u32`; longer keys are sorted stably. -/
def sortedIndices (cfg : SorterConfig V n) (keys : List Bytes) : List ℕ :=
  let rowIdxs := List.range (keys.length % 2 ^ 32)
  let key := fun rowIdx => keys.getD rowIdx []
  (if cfg.prune.sortRowConverter.size keys / keys.length ≤ 8 then cfg.sort.sortedUnstableByKey key rowIdxs
    else rowIdxs.mergeSort fun a b => decide (key a ≤ key b)).take cfg.limitNum

def insertBatch (s : ExternalSorter cfg) (batch : List (Vector V n)) : Except Fault (ExternalSorter cfg) :=
  let keys := cfg.prune.keyRows batch
  if batch.length = 0 then .ok s
  -- `keys.size() / keys.num_rows()`
  else if keys.length = 0 then .error .panic
  else
    let pruned := batch.map cfg.prune.pruneRow
    let sortedIdxs := sortedIndices cfg keys
    match gather keys sortedIdxs,
      (if !cfg.prune.isAllPruned then gather pruned sortedIdxs else some (List.replicate sortedIdxs.length [])) with
    | some sortedKeys, some sortedBatch =>
      let keyCollector := (sortedKeys.foldl InMemRowsKeyCollector.addKey {}).freeze
      let block := (({} : InMemSortedBlockBuilder V).addBatchAndKeys sortedBatch keyCollector).finish
      .ok { s with inMemBlocks := s.inMemBlocks ++ [block] }
    | _, _ => .error .panic

/-- The loop of `spill` over the levels; `pushed` is what the level before was merged into, if it was.  The last level
has no level to push to. -/
def levelLoop (p : MergeParams) {io : SpillIo V} (subBatchSize : ℕ) : ℕ → List (SpillSortedBlock io) →
    List (List (SpillSortedBlock io)) → List (LevelSpill io) → Except Fault (List (LevelSpill io))
  | _, [], [], spills => .ok spills
  | _, _ :: _, [], _ => .error .panic
  | level, pushed, blocks :: levels, spills =>
    if numMaxMergingBatches ≤ (blocks ++ pushed).length then
      match mergeBlocks p io subBatchSize (blocks ++ pushed) with
      | .error e => .error e
      | .ok merged => levelLoop p subBatchSize (level + 1) [merged] levels spills
    else levelLoop p subBatchSize (level + 1) [] levels (spills ++ (blocks ++ pushed).map (⟨·, level⟩))

/-- `chunk_by`: runs of equal levels. -/
def chunkByLevel {io : SpillIo V} (spills : List (LevelSpill io)) : List (List (LevelSpill io)) :=
  spills.splitBy fun a b => a.level == b.level

def spill (s : ExternalSorter cfg) (subBatchSize : ℕ) : Except Fault (ExternalSorter cfg) :=
  match mergeBlocks cfg.params cfg.io subBatchSize s.inMemBlocks with
  | .error e => .error e
  | .ok mergedBlock =>
    let spills := s.spills ++ [⟨mergedBlock, 0⟩]
    let levels := (chunkByLevel (cfg.sort.sortedUnstableByKey LevelSpill.level spills)).map (·.map LevelSpill.block)
    match levelLoop cfg.params subBatchSize 0 [] (levels ++ [[]]) [] with
    | .error e => .error e
    | .ok spills => .ok ⟨[], spills⟩

def sendOutputBatch (cfg : SorterConfig V n) (keyCollector : InMemRowsKeyCollector) (prunedBatch : List (List V)) :
    Option (Sent V) :=
  (keyCollector.intoRows prunedBatch.length).bind fun keyRows =>
    (cfg.prune.restoreFromExistedKeyRows prunedBatch keyRows).map fun batch =>
      ⟨batch, if cfg.withKeyRows then some keyRows else none⟩

/-- The part of `output` that merges and sends.  `let _ =` drops an error of `skip_rows`, but not a panic. -/
def outputBlocks [SortedBlock B V] (cfg : SorterConfig V n) (outputBatchSize : ℕ) (blocks : List B) :
    Except Fault (List (Sent V)) :=
  match Merger.tryNew blocks with
  | .error e => .error e
  | .ok m =>
    match (if 0 < cfg.skip then m.skipRows InMemRowsKeyCollector cfg.params outputBatchSize (cfg.skip + 1) cfg.skip
      else (.ok (), m)) with
    | (.error .panic, _) => .error .panic
    | (.error .outOfFuel, _) => .error .outOfFuel
    | (_, m) =>
      match m.drain InMemRowsKeyCollector cfg.params outputBatchSize (cfg.limitNum + 1) with
      | .error e => .error e
      | .ok outs =>
        match collect (fun out => sendOutputBatch cfg out.1 out.2) outs with
        | none => .error .panic
        | some sent => .ok sent

def output (s : ExternalSorter cfg) (subBatchSize outputBatchSize : ℕ) : Except Fault (List (Sent V)) :=
  match (if !s.spills.isEmpty && !s.inMemBlocks.isEmpty then s.spill subBatchSize else .ok s) with
  | .error e => .error e
  | .ok s =>
    if s.spills.isEmpty then
      if !s.inMemBlocks.isEmpty then outputBlocks cfg outputBatchSize s.inMemBlocks else .ok []
    else outputBlocks cfg outputBatchSize (s.spills.map LevelSpill.block)

/-! ### Runs -/

inductive Op (V : Type) (n : ℕ) where
  | insertBatch (batch : List (Vector V n))
  | spill (subBatchSize : ℕ+)

def step (s : ExternalSorter cfg) : Op V n → Except Fault (ExternalSorter cfg)
  | .insertBatch batch => s.insertBatch batch
  | .spill subBatchSize => s.spill subBatchSize

def steps (s : ExternalSorter cfg) : List (Op V n) → Except Fault (ExternalSorter cfg)
  | [] => .ok s
  | op :: ops =>
    match s.step op with
    | .error e => .error e
    | .ok s => s.steps ops

/-- A sequence of calls on a new sorter, and its output. -/
def run (cfg : SorterConfig V n) (ops : List (Op V n)) (subBatchSize outputBatchSize : ℕ+) :
    Except Fault (List (Sent V)) :=
  match ({} : ExternalSorter cfg).steps ops with
  | .error e => .error e
  | .ok s => s.output subBatchSize outputBatchSize

def Op.rows : Op V n → List (Vector V n)
  | .insertBatch batch => batch
  | .spill _ => []

end ExternalSorter

end Auron.Sort
