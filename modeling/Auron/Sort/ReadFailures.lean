import Auron.Sort.Correct

/-!
# Failing reads and the offset of `sort_exec.rs`

Reading a block may fail: `next_batch` and `next_key` return errors of the spill file behind them.  `Merger::next` hands
an error on, and leaves the cursors wherever they are: a key may have been popped whose row was not.  `output` hands on
the errors of `Merger::next`, but drops that of `skip_rows`, and goes on merging.

* `OkSim g` relates blocks to blocks `g` maps them to: whatever succeeds on the one succeeds on the other, with the same
  result.  It is carried from the reads of a block through the cursors, the loser tree and the merger up to `output`
  (`outputBlocks_sim`), as long as nothing fails on the way.
* `FailingBlock` is a block with any pattern of failing reads, each leaving the block in any state.
* `output_of_skipRows_ok`: if skipping did not fail, and `output` returns, then it has sent what it sends without failures,
  the records from the offset to the limit.
* `output_after_failed_skip`: if skipping fails, `output` may return after sending a record that was to be skipped.
-/

namespace Auron.Sort

open Auron.Io Auron.Lib Auron.Algorithm List
open Option (map_some)

variable {V B B' KC : Type} {n : ℕ}

/-! ### Reads that succeed -/

/-- Whatever succeeds on a block succeeds on its image, with the same result. -/
structure OkSim [SortedBlock B V] [SortedBlock B' V] (g : B → B') : Prop where
  isSingleBatch : ∀ b, SortedBlock.isSingleBatch (g b) = SortedBlock.isSingleBatch b
  curKey : ∀ b, SortedBlock.curKey (g b) = SortedBlock.curKey b
  isEqualToPrevKey : ∀ b, SortedBlock.isEqualToPrevKey (g b) = SortedBlock.isEqualToPrevKey b
  nextBatch : ∀ {b : B} {r : Option (List (List V))} {b' : B}, SortedBlock.nextBatch b = (.ok r, b') →
    SortedBlock.nextBatch (g b) = (.ok r, g b')
  nextKey : ∀ {b b' : B}, SortedBlock.nextKey b = (.ok (), b') → SortedBlock.nextKey (g b) = (.ok (), g b')

def SortedBlockCursor.mapInput (g : B → B') (c : SortedBlockCursor B V) : SortedBlockCursor B' V where
  id := c.id
  input := g c.input
  curBatches := c.curBatches
  curBatchesChanged := c.curBatchesChanged
  curKeyRowIdx := c.curKeyRowIdx
  curBatchIdx := c.curBatchIdx
  curRowIdx := c.curRowIdx
  finished := c.finished

def Merger.mapInput (g : B → B') (m : Merger B V) : Merger B' V where
  cursors := m.cursors.map (SortedBlockCursor.mapInput g)
  batchInterleaver := m.batchInterleaver
  singleBatchMode := m.singleBatchMode
  batchesBaseIndices := m.batchesBaseIndices
  numTotalOutputRows := m.numTotalOutputRows

section Rows

variable {g : B → B'}

open SortedBlockCursor

@[simp] lemma id_mapInput (c : SortedBlockCursor B V) : (c.mapInput g).id = c.id := rfl

variable (m : Merger B V)

@[simp] lemma values_mapInput :
    (m.mapInput g).cursors.values = m.cursors.values.map (SortedBlockCursor.mapInput g) := rfl

@[simp] lemma singleBatchMode_mapInput : (m.mapInput g).singleBatchMode = m.singleBatchMode := rfl

@[simp] lemma batchesBaseIndices_mapInput : (m.mapInput g).batchesBaseIndices = m.batchesBaseIndices := rfl

@[simp] lemma batchInterleaver_mapInput : (m.mapInput g).batchInterleaver = m.batchInterleaver := rfl

lemma nextRow_mapInput (c : SortedBlockCursor B V) :
    (c.mapInput g).nextRow = c.nextRow.map fun x => (x.1, x.2.mapInput g) := by
  unfold nextRow
  rw [Option.map_map]
  refine congrArg (fun f => Option.map f c.curBatches[c.curBatchIdx]?) (funext fun batch => ?_)
  simp only [Function.comp_apply]
  show ((c.curBatchIdx, c.curRowIdx), if batch.length ≤ c.curRowIdx + 1 then _ else _) = _
  split <;> rfl

lemma clearFinishedBatches_mapInput (c : SortedBlockCursor B V) :
    (c.mapInput g).clearFinishedBatches = c.clearFinishedBatches.mapInput g := by
  unfold clearFinishedBatches
  show (if 0 < c.curBatchIdx then _ else _) = _
  split <;> rfl

lemma stageRows_mapInput (single : Bool) (bases : List ℕ) (ids : List ℕ) : ∀ cs : List (SortedBlockCursor B V),
    stageRows single bases ids (cs.map (mapInput g)) =
      (stageRows single bases ids cs).map fun x => (x.1, x.2.map (mapInput g)) := by
  induction ids with
  | nil => exact fun _ => rfl
  | cons id ids ih =>
    intro cs
    rw [stageRows, stageRows, getElem?_map]
    cases cs[id]? with
    | none => rfl
    | some c =>
      simp only [map_some, nextRow_mapInput]
      cases c.nextRow with
      | none => rfl
      | some x =>
        obtain ⟨⟨b, r⟩, c'⟩ := x
        simp only [map_some, ← map_set, ih, id_mapInput]
        cases (if single = true then some (c.id, r) else bases[c.id]?.map fun b' => (b' + b, r)) with
        | none => rfl
        | some idx =>
          cases stageRows single bases ids (cs.set id c') with
          | none => rfl
          | some y => rfl

lemma flatMap_curBatches_mapInput (cs : List (SortedBlockCursor B V)) :
    (cs.map (mapInput g)).flatMap (·.curBatches) = cs.flatMap (·.curBatches) := by
  rw [flatMap_map]
  rfl

lemma baseIndices_mapInput (cs : List (SortedBlockCursor B V)) : ∀ base,
    baseIndices base (cs.map (mapInput g)) = baseIndices base cs := by
  induction cs with
  | nil => exact fun _ => rfl
  | cons c cs ih =>
    intro _
    rw [map_cons, baseIndices, ih]
    rfl

lemma rebuildInterleaver_mapInput :
    (m.mapInput g).rebuildInterleaver = m.rebuildInterleaver.map (Merger.mapInput g) := by
  unfold Merger.rebuildInterleaver
  dsimp only
  rw [values_mapInput, flatMap_curBatches_mapInput, baseIndices_mapInput]
  by_cases h : m.cursors.values.flatMap (·.curBatches) = []
  · rw [if_pos h, if_pos h]
    rfl
  · rw [if_neg h, if_neg h, map_some]
    simp only [Merger.mapInput, LoserTree.map, map_map]
    rfl

lemma collectPruned_mapInput (ids : List ℕ) :
    (m.mapInput g).collectPruned ids = (m.collectPruned ids).map fun x => (x.1, x.2.mapInput g) := by
  have hany : (m.mapInput g).cursors.values.any (·.curBatchesChanged) = m.cursors.values.any (·.curBatchesChanged) := by
    rw [values_mapInput, any_map]
    rfl
  have hm : (if !(m.mapInput g).singleBatchMode && (m.mapInput g).cursors.values.any (·.curBatchesChanged) then
        (m.mapInput g).rebuildInterleaver else some (m.mapInput g)) =
      (if !m.singleBatchMode && m.cursors.values.any (·.curBatchesChanged) then m.rebuildInterleaver else some m).map
        (Merger.mapInput g) := by
    rw [hany, rebuildInterleaver_mapInput, singleBatchMode_mapInput]
    split <;> rfl
  unfold Merger.collectPruned
  rw [hm]
  cases (if !m.singleBatchMode && m.cursors.values.any (·.curBatchesChanged) then m.rebuildInterleaver else some m) with
  | none => rfl
  | some m1 =>
    simp only [map_some, values_mapInput, singleBatchMode_mapInput, batchesBaseIndices_mapInput,
      batchInterleaver_mapInput, stageRows_mapInput]
    cases stageRows m1.singleBatchMode m1.batchesBaseIndices ids m1.cursors.values with
    | none => rfl
    | some x =>
      obtain ⟨idxs, _⟩ := x
      simp only [map_some]
      cases gather₂ m1.batchInterleaver idxs with
      | none => rfl
      | some rows => rfl

end Rows

/-! ### Merges that succeed -/

section Merges

variable [SortedBlock B V] [SortedBlock B' V] {g : B → B'} (hg : OkSim g)

open SortedBlockCursor

include hg

lemma lt_mapInput (c d : SortedBlockCursor B V) :
    ComparableForLoserTree.lt (c.mapInput g) (d.mapInput g) = ComparableForLoserTree.lt c d := by
  show (if d.finished || c.finished then d.finished
    else decide (SortedBlock.curKey (g c.input) < SortedBlock.curKey (g d.input))) = _
  rw [hg.curKey, hg.curKey]
  rfl

variable {c c' : SortedBlockCursor B V}

lemma advanceKey_sim (h : c.advanceKey = (.ok (), c')) : (c.mapInput g).advanceKey = (.ok (), c'.mapInput g) := by
  unfold advanceKey at h ⊢
  split at h
  · cases h
  · rename_i hk
    obtain ⟨-, rfl⟩ := Prod.mk.inj h
    have hk' : SortedBlock.nextKey (c.mapInput g).input = _ := hg.nextKey hk
    rw [hk']
    rfl

lemma loadNextBatch_sim {r : Bool} (h : c.loadNextBatch = (.ok r, c')) :
    (c.mapInput g).loadNextBatch = (.ok r, c'.mapInput g) := by
  unfold loadNextBatch at h ⊢
  split at h
  · cases h
  -- whether or not there is a batch
  all_goals
    rename_i hb
    obtain ⟨hr, rfl⟩ := Prod.mk.inj h
    obtain rfl := Except.ok.inj hr
    have hb' : SortedBlock.nextBatch (c.mapInput g).input = _ := hg.nextBatch hb
    rw [hb']
    rfl

/-- **One key.** -/
theorem nextKey_sim (h : c.nextKey = (.ok (), c')) : (c.mapInput g).nextKey = (.ok (), c'.mapInput g) := by
  unfold nextKey at h ⊢
  show (if c.finished then _ else if c.lastNumRows ≤ c.curKeyRowIdx then _ else _) = _
  by_cases hf : c.finished
  · rw [if_pos hf] at h
    cases h
  · rw [if_neg hf] at h ⊢
    by_cases hlast : c.lastNumRows ≤ c.curKeyRowIdx
    · rw [if_pos hlast] at h ⊢
      split at h
      · cases h
      · rename_i hl
        rw [loadNextBatch_sim hg hl]
        obtain ⟨-, rfl⟩ := Prod.mk.inj h
        rfl
      · rename_i hl
        rw [loadNextBatch_sim hg hl]
        exact advanceKey_sim hg h
    · rw [if_neg hlast] at h ⊢
      exact advanceKey_sim hg h

lemma tryFromBlock_sim {id : ℕ} {b : B} (h : tryFromBlock id b = .ok c) :
    tryFromBlock id (g b) = .ok (c.mapInput g) := by
  unfold tryFromBlock at h ⊢
  split at h
  · cases h
  · rename_i hk
    obtain rfl := Except.ok.inj h
    have hsim : nextKey ({ id := id, input := g b } : SortedBlockCursor B' V) = _ := nextKey_sim hg hk
    rw [hsim]

/-- **The loop of `next`.** -/
theorem mergeLoop_sim [KeyCollector KC] (ap : Bool) (remaining : ℕ) : ∀ {t t' : LoserTree (SortedBlockCursor B V)}
    {dirty : Bool} {ids : List ℕ} {kc : KC} {k : ℕ} {r : Bool × List ℕ × KC × ℕ},
    mergeLoop ap remaining t dirty ids kc k = (.ok r, t') →
    mergeLoop ap remaining (t.map (mapInput g)) dirty ids kc k = (.ok r, t'.map (mapInput g)) := by
  induction remaining with
  | zero =>
    intro t t' dirty ids kc k r h
    obtain ⟨hr, rfl⟩ := Prod.mk.inj (show (Except.ok (dirty, ids, kc, k), t) = (Except.ok r, t') from h)
    rw [mergeLoop, hr]
  | succ remaining ih =>
    intro t _ _ _ _ k r h
    rw [mergeLoop] at h ⊢
    rw [LoserTree.peekMut_map]
    cases hpeek : t.peekMut with
    | none =>
      rw [hpeek] at h
      cases h
    | some c =>
      rw [hpeek] at h
      simp only [map_some] at h ⊢
      show (if c.finished then _ else _) = _
      by_cases hf : c.finished
      · rw [if_pos hf] at h ⊢
        obtain ⟨hr, rfl⟩ := Prod.mk.inj h
        rw [hr]
      · rw [if_neg hf] at h ⊢
        split at h
        · cases h
        · rename_i c' hk
          have hkey : SortedBlock.curKey (mapInput g c).input = SortedBlock.curKey c.input := hg.curKey c.input
          have heq : SortedBlock.isEqualToPrevKey (mapInput g c').input = SortedBlock.isEqualToPrevKey c'.input :=
            hg.isEqualToPrevKey c'.input
          simp only [nextKey_sim hg hk, hkey, heq, LoserTree.setWinner_map, LoserTree.adjustTree_map (lt_mapInput hg)]
          show (if c'.finished || _ then _ else _) = _
          split
          · rename_i hadj
            simp only [hadj] at h
            exact ih h
          · rename_i hadj
            simp only [hadj, Bool.false_eq_true] at h
            exact ih h

/-- **`next`.** -/
theorem next_sim (KC : Type) [KeyCollector KC] (p : MergeParams) {m m' : Merger B V} {batchSize : ℕ}
    {r : Option (KC × List (List V))} (h : m.next KC p batchSize = (.ok r, m')) :
    (m.mapInput g).next KC p batchSize = (.ok r, m'.mapInput g) := by
  unfold Merger.next at h ⊢
  dsimp only at h ⊢
  split at h
  · cases h
  · rename_i dirty ids kc numRows t hloop
    have hloop' : mergeLoop p.isAllPruned (min batchSize (p.limit - (m.mapInput g).numTotalOutputRows))
      (m.mapInput g).cursors _ _ _ _ = _ := mergeLoop_sim hg _ _ hloop
    rw [hloop']
    dsimp only
    by_cases h0 : numRows = 0
    · rw [if_pos h0] at h ⊢
      obtain ⟨hr, rfl⟩ := Prod.mk.inj h
      rw [← Except.ok.inj hr]
      rfl
    · rw [if_neg h0] at h ⊢
      -- the rows are gathered on the same merger over other blocks
      set m1 : Merger B V := { m with cursors := if dirty then t.adjustTree else t }
      have hm : ({ m.mapInput g with
            cursors := if dirty then (t.map (mapInput g)).adjustTree else t.map (mapInput g) } : Merger B' V) =
          m1.mapInput g := by
        rw [LoserTree.adjustTree_map (lt_mapInput hg)]
        cases dirty <;> rfl
      have hrows : (if p.isAllPruned then some (replicate numRows [], m1.mapInput g)
            else (m1.mapInput g).collectPruned ids) =
          (if p.isAllPruned then some (replicate numRows [], m1) else m1.collectPruned ids).map
            fun x => (x.1, x.2.mapInput g) := by
        rw [collectPruned_mapInput]
        split <;> rfl
      rw [hm, hrows]
      cases hc : if p.isAllPruned then some (replicate numRows [], m1) else m1.collectPruned ids with
      | none =>
        rw [hc] at h
        cases h
      | some x =>
        rw [hc] at h
        dsimp only [map_some] at h ⊢
        obtain ⟨_, rfl⟩ := Prod.mk.inj h
        congr 1
        simp only [Merger.mapInput, LoserTree.map, map_map, Function.comp_def, clearFinishedBatches_mapInput]

lemma drain_sim (KC : Type) [KeyCollector KC] (p : MergeParams) (batchSize fuel : ℕ) : ∀ {m : Merger B V}
    {outs : List (KC × List (List V))}, m.drain KC p batchSize fuel = .ok outs →
    (m.mapInput g).drain KC p batchSize fuel = .ok outs := by
  induction fuel with
  | zero => intro m outs h; cases h
  | succ fuel ih =>
    intro m _ h
    rw [Merger.drain] at h ⊢
    split at h
    · cases h
    · rename_i hn
      rw [next_sim hg KC p hn]
      exact h
    · rename_i hn
      rw [next_sim hg KC p hn]
      dsimp only
      split at h
      · cases h
      · rename_i hd
        rw [ih hd]
        exact h

lemma skipRows_sim (KC : Type) [KeyCollector KC] (p : MergeParams) (batchSize fuel : ℕ) : ∀ {m m' : Merger B V}
    {remaining : ℕ}, m.skipRows KC p batchSize fuel remaining = (.ok (), m') →
    (m.mapInput g).skipRows KC p batchSize fuel remaining = (.ok (), m'.mapInput g) := by
  induction fuel with
  | zero =>
    intro m m' remaining h
    cases h
  | succ fuel ih =>
    intro m _ remaining h
    rw [Merger.skipRows] at h ⊢
    dsimp only at h ⊢
    by_cases hr : 0 < remaining
    · rw [if_pos hr] at h ⊢
      split at h
      · cases h
      · rename_i hn
        rw [next_sim hg KC p hn]
        obtain ⟨-, rfl⟩ := Prod.mk.inj h
        rfl
      · rename_i hn
        rw [next_sim hg KC p hn]
        exact ih h
    · rw [if_neg hr] at h ⊢
      obtain ⟨-, rfl⟩ := Prod.mk.inj h
      rfl

lemma cursorsOf_sim (bs : List B) : ∀ {id : ℕ} {cs : List (SortedBlockCursor B V)}, cursorsOf id bs = .ok cs →
    cursorsOf id (bs.map g) = .ok (cs.map (mapInput g)) := by
  induction bs with
  | nil =>
    intro id cs h
    obtain rfl := Except.ok.inj h
    rfl
  | cons b bs ih =>
    intro id _ h
    rw [cursorsOf] at h
    rw [map_cons, cursorsOf]
    split at h
    · cases h
    · rename_i hb
      rw [tryFromBlock_sim hg hb]
      split at h
      · cases h
      · rename_i hbs
        rw [ih hbs]
        obtain rfl := Except.ok.inj h
        rfl

lemma tryNew_sim {bs : List B} {m : Merger B V} (h : Merger.tryNew bs = .ok m) :
    Merger.tryNew (bs.map g) = .ok (m.mapInput g) := by
  unfold Merger.tryNew at h ⊢
  split at h
  · cases h
  · rename_i cs hc
    have hall : (bs.map g).all SortedBlock.isSingleBatch = bs.all SortedBlock.isSingleBatch := by
      rw [all_map]
      exact congrArg (fun f => bs.all f) (funext hg.isSingleBatch)
    have hbatches : collect (fun c : SortedBlockCursor B' V => c.curBatches[0]?) (cs.map (mapInput g)) =
        collect (fun c : SortedBlockCursor B V => c.curBatches[0]?) cs := collect_map _ _ _
    rw [cursorsOf_sim hg bs hc]
    dsimp only
    rw [hall, hbatches]
    by_cases hs : bs.all SortedBlock.isSingleBatch
    · rw [if_pos hs] at h ⊢
      cases hb : collect (fun c : SortedBlockCursor B V => c.curBatches[0]?) cs with
      | none =>
        rw [hb] at h
        cases h
      | some batches =>
        rw [hb] at h
        obtain rfl := Except.ok.inj h
        rw [LoserTree.new_map (lt_mapInput hg)]
        rfl
    · rw [if_neg hs] at h ⊢
      obtain rfl := Except.ok.inj h
      rw [LoserTree.new_map (lt_mapInput hg)]
      rfl

/-- `skip_rows` does not fail. -/
def SkipRowsOk (cfg : SorterConfig V n) (outputBatchSize : ℕ) (bs : List B) : Prop :=
  ∀ m : Merger B V, Merger.tryNew bs = .ok m → 0 < cfg.skip →
    (m.skipRows InMemRowsKeyCollector cfg.params outputBatchSize (cfg.skip + 1) cfg.skip).1 = .ok ()

/-- **`output`**, if skipping does not fail: an error of `next` would be handed on. -/
theorem outputBlocks_sim {cfg : SorterConfig V n} {outputBatchSize : ℕ} {bs : List B} {sent : List (Sent V)}
    (hskip : SkipRowsOk cfg outputBatchSize bs) (h : ExternalSorter.outputBlocks cfg outputBatchSize bs = .ok sent) :
    ExternalSorter.outputBlocks cfg outputBatchSize (bs.map g) = .ok sent := by
  unfold ExternalSorter.outputBlocks at h ⊢
  split at h
  · cases h
  · rename_i m hm
    rw [tryNew_sim hg hm]
    dsimp only at h ⊢
    -- both mergers come out of the skipping without an error
    obtain ⟨m', h1, h2⟩ : ∃ m', (if 0 < cfg.skip then
          m.skipRows InMemRowsKeyCollector cfg.params outputBatchSize (cfg.skip + 1) cfg.skip else (.ok (), m)) =
          (.ok (), m') ∧
        (if 0 < cfg.skip then
          (m.mapInput g).skipRows InMemRowsKeyCollector cfg.params outputBatchSize (cfg.skip + 1) cfg.skip
          else (.ok (), m.mapInput g)) = (.ok (), m'.mapInput g) := by
      by_cases h0 : 0 < cfg.skip
      · have hok := hskip m hm h0
        rw [if_pos h0, if_pos h0]
        exact ⟨_, Prod.ext hok rfl, skipRows_sim hg _ _ _ _ (Prod.ext hok rfl)⟩
      · rw [if_neg h0, if_neg h0]
        exact ⟨m, rfl, rfl⟩
    rw [h1] at h
    rw [h2]
    dsimp only at h ⊢
    split at h
    · cases h
    · rename_i hd
      rw [drain_sim hg _ _ _ _ hd]
      exact h

end Merges

/-! ### Blocks that fail -/

/-- A block whose reads may fail: for each call of `next_batch` or `next_key` to come, whether it fails, with which error,
and in which state it leaves the block.  Behind the end of the list no call fails. -/
structure FailingBlock (B : Type) where
  inner : B
  failures : List (Option (IoErr × B))

namespace FailingBlock

def read {α : Type} (b : FailingBlock B) (op : B → Except Fault α × B) : Except Fault α × FailingBlock B :=
  match b.failures with
  | some (e, after) :: failures => (.error (.err e), ⟨after, failures⟩)
  | none :: failures => ((op b.inner).1, ⟨(op b.inner).2, failures⟩)
  | [] => ((op b.inner).1, ⟨(op b.inner).2, []⟩)

lemma read_ok {α : Type} {b b' : FailingBlock B} {op : B → Except Fault α × B} {a : α} (h : b.read op = (.ok a, b')) :
    op b.inner = (.ok a, b'.inner) := by
  unfold read at h
  split at h
  · cases h
  · obtain ⟨h1, rfl⟩ := Prod.mk.inj h
    exact Prod.ext h1 rfl
  · obtain ⟨h1, rfl⟩ := Prod.mk.inj h
    exact Prod.ext h1 rfl

instance [SortedBlock B V] : SortedBlock (FailingBlock B) V where
  isSingleBatch b := SortedBlock.isSingleBatch b.inner
  nextBatch b := b.read SortedBlock.nextBatch
  nextKey b := b.read SortedBlock.nextKey
  curKey b := SortedBlock.curKey b.inner
  isEqualToPrevKey b := SortedBlock.isEqualToPrevKey b.inner

lemma okSim [SortedBlock B V] : OkSim (inner : FailingBlock B → B) where
  isSingleBatch _ := rfl
  curKey _ := rfl
  isEqualToPrevKey _ := rfl
  nextBatch h := read_ok h
  nextKey h := read_ok h

end FailingBlock

namespace ExternalSorter

/-- **The offset and failing reads.**  Whichever reads of the blocks fail: if skipping does not fail and `output` returns,
it has sent what it sends without failures, the records of the merged order from the offset to the limit. -/
theorem output_of_skipRows_ok [SortedBlock B V] [LawfulSortedBlock B V] (cfg : SorterConfig V n) {outputBatchSize : ℕ}
    (hb : 0 < outputBatchSize) {blocks : List (FailingBlock B)} {rs : List (Rec V)}
    (h : Holds cfg.prune.isAllPruned (blocks.map FailingBlock.inner) rs) (hne : blocks ≠ [])
    (hskip : SkipRowsOk cfg outputBatchSize blocks) {sent : List (Sent V)}
    (hout : outputBlocks cfg outputBatchSize blocks = .ok sent) :
    outputBlocks cfg outputBatchSize (blocks.map FailingBlock.inner) = .ok sent ∧
      ∃ (merged : List (Rec V)) (outs : List (List (Rec V))), merged.Perm rs ∧ (merged.Pairwise fun a b => a.1 ≤ b.1) ∧
        outs.flatten = (merged.take cfg.limitNum).drop cfg.skip ∧ sendAll cfg outs = .ok sent := by
  have hinner := outputBlocks_sim FailingBlock.okSim hskip hout
  obtain ⟨merged, outs, h1, h2, h3, h4⟩ := outputBlocks_merged hb h (by simpa using hne)
  exact ⟨hinner, merged, outs, h1, h2, h3, h4.symm.trans hinner⟩

def byteSorterSkip : SorterConfig UInt8 2 := { byteSorter with skip := 1 }

def byteRecs : List (Rec UInt8) := [([1], [7]), ([2], [8])]

def byteBlock : FailingBlock (InMemSortedBlock UInt8) :=
  ⟨InMemSortedBlock.ofRecs byteRecs, [none, none, none, none, some (.unexpectedEof, InMemSortedBlock.ofRecs byteRecs)]⟩

/-- The four reads of the run succeed. -/
theorem output_of_skipRows_ok_two :
    outputBlocks byteSorterSkip 1 [byteBlock.inner] = .ok [⟨[[2, 8]], none⟩] ∧
      ∃ (merged : List (Rec UInt8)) (outs : List (List (Rec UInt8))), merged.Perm byteRecs ∧
        (merged.Pairwise fun a b => a.1 ≤ b.1) ∧ outs.flatten = (merged.take byteSorterSkip.limitNum).drop 1 ∧
        sendAll byteSorterSkip outs = .ok [⟨[[2, 8]], none⟩] := by
  have hholds : Holds byteSorterSkip.prune.isAllPruned ([byteBlock].map FailingBlock.inner) byteRecs :=
    Holds.inMem (by decide) (by decide) (by decide) (by decide)
  refine output_of_skipRows_ok byteSorterSkip (by decide) hholds (by simp) ?_ rfl
  intro m hm _
  obtain rfl := Except.ok.inj ((show Merger.tryNew [byteBlock] = _ from rfl).symm.trans hm)
  rfl

def byteSpill : SpillSortedBlock byteIo :=
  (byteRecs.foldl (fun bb r => bb.addBatchAndKeys [r.2] (SqueezeKeyCollector.ofKeys [r.1]))
    ({} : SpillSortedBlockBuilder byteIo)).finish

/-- The spill, if reading its second batch fails and leaves the stream at its end. -/
def failingSpill : FailingBlock (SpillSortedBlock byteIo) :=
  ⟨byteSpill, [none, none, some (.unexpectedEof, ⟨[], ⟨[1], false⟩⟩)]⟩

/-- **A failure while skipping is lost.**  The offset is one.  Skipping pops the first key, and fails at the second batch;
`output` goes on, pops the same key again and sends the row that was to be skipped, finds the stream at its end, and
returns.  Without the failure it sends the second row. -/
theorem output_after_failed_skip :
    outputBlocks byteSorterSkip 1 [failingSpill] = .ok [⟨[[1, 7]], none⟩] ∧
      outputBlocks byteSorterSkip 1 [byteSpill] = .ok [⟨[[2, 8]], none⟩] := ⟨rfl, rfl⟩

end ExternalSorter

end Auron.Sort
