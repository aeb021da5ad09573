import Auron.Sort.SpillLevels

/-!
# The unchecked key accesses of `sort_exec.rs`

`InMemRowsKeyCollector::key(i)` reads the offsets `i` and `i + 1` without a bounds check.  It is called for the current
key of a cursor, when the loser tree compares two cursors and when `Merger::next` collects the key, and for the current
key and the one before it in `is_equal_to_prev_key`.  This module lists these accesses: for each function of the sorter,
`…Reads` follows its control flow and notes the collector and the index of every call of `key`.

* `KeyOk` is what a cursor over a block of `insert_batch` keeps to: it is finished, or it stands on a key of the batch.
  It is enough for every access (`ltReads_inBounds`, `mergeLoop_keyOk`, `next_keyOk`).
* `runReads_inBounds`: with a limit of at least one, every access of every run is in bounds.
* With a limit of zero, `insert_batch` leaves blocks of empty batches behind, and the first comparison of two of them reads
  behind the only offset (`runReads_limit_zero`).
-/

namespace Auron.Sort

open Auron.Io Auron.Lib Auron.Algorithm SortedBlockCursor
open List hiding Vector

variable {V KC T : Type} {n : ℕ}

/-! ### Accesses -/

def InMemRowsKeyCollector.numKeys (c : InMemRowsKeyCollector) : ℕ := c.offsets.length - 1

/-- A call `keys.key(i)`. -/
structure KeyAccess where
  keys : InMemRowsKeyCollector
  i : ℕ
  deriving DecidableEq

def KeyAccess.InBounds (a : KeyAccess) : Prop := a.i < a.keys.numKeys

instance (a : KeyAccess) : Decidable a.InBounds := inferInstanceAs (Decidable (_ < _))

section Block

variable (b : InMemSortedBlock V)

/-- `self.sorted_keys[0].key(i)`. -/
def keyReads (i : ℕ) : List KeyAccess := b.sortedKeys.head?.toList.map (⟨·, i⟩)

def curKeyReads : List KeyAccess := keyReads b b.curRowIdx

/-- The accesses of `is_equal_to_prev_key`. -/
def prevKeyReads : List KeyAccess :=
  if 0 < b.curRowIdx then keyReads b (b.curRowIdx - 1) ++ keyReads b b.curRowIdx else []

end Block

def ltReads (a b : SortedBlockCursor (InMemSortedBlock V) V) : List KeyAccess :=
  if b.finished || a.finished then [] else curKeyReads a.input ++ curKeyReads b.input

/-! ### Comparisons of the loser tree -/

section Compares

variable [ComparableForLoserTree T]

def compared (values : List T) (a b : ℕ) : List (T × T) :=
  match values[a]?, values[b]? with
  | some x, some y => [(x, y)]
  | _, _ => []

/-- The comparisons of the inner loop of `init_tree`. -/
def insertCompares (values : List T) : ℕ → List (Option ℕ) → ℕ → ℕ → List (T × T)
  | 0, _, _, _ => []
  | fuel + 1, losers, winner, node =>
    if node = 0 then []
    else match loserAt losers node with
      | none => []
      | some challenger =>
        compared values challenger winner ++
          if valueLt values challenger winner then
            insertCompares values fuel (losers.set node (some winner)) challenger (node / 2)
          else insertCompares values fuel (losers.set node (some challenger)) winner (node / 2)

/-- The comparisons of `init_tree`: those of each leaf, on the tree the leaves before it left. -/
def initCompares (values : List T) : List (T × T) :=
  (range values.length).flatMap fun i =>
    insertCompares values ((values.length + i) / 2)
      ((range i).foldl
        (fun losers i => insertLoop values ((values.length + i) / 2) losers i ((values.length + i) / 2))
        (replicate values.length none)) i ((values.length + i) / 2)

/-- The comparisons of the loop of `adjust_tree`. -/
def adjustLoopCompares (values : List T) : ℕ → List (Option ℕ) → ℕ → ℕ → List (T × T)
  | 0, _, _, _ => []
  | fuel + 1, losers, winner, node =>
    if node = 0 then []
    else match loserAt losers node with
      | none => []
      | some challenger =>
        compared values challenger winner ++
          if valueLt values challenger winner then
            adjustLoopCompares values fuel (losers.set node (some winner)) challenger (node / 2)
          else adjustLoopCompares values fuel losers winner (node / 2)

/-- The comparisons of `adjust_tree`. -/
def adjustCompares (t : LoserTree T) : List (T × T) :=
  match loserAt t.losers 0 with
  | none => []
  | some winner =>
    adjustLoopCompares t.values ((t.values.length + winner) / 2) t.losers winner ((t.values.length + winner) / 2)

omit [ComparableForLoserTree T] in
lemma mem_compared {values : List T} {a b : ℕ} {x : T × T} (h : x ∈ compared values a b) :
    x.1 ∈ values ∧ x.2 ∈ values := by
  unfold compared at h
  split at h
  · rename_i y z hy hz
    obtain rfl := mem_singleton.1 h
    exact ⟨mem_of_getElem? hy, mem_of_getElem? hz⟩
  · cases h

lemma mem_insertCompares {values : List T} {x : T × T} (fuel : ℕ) : ∀ {losers : List (Option ℕ)} {winner node : ℕ},
    x ∈ insertCompares values fuel losers winner node → x.1 ∈ values ∧ x.2 ∈ values := by
  induction fuel with
  | zero => intro losers winner node h; cases h
  | succ fuel ih =>
    intro _ _ _ h
    rw [insertCompares] at h
    split at h
    · cases h
    · split at h
      · cases h
      · rcases mem_append.1 h with h | h
        · exact mem_compared h
        · split at h
          · exact ih h
          · exact ih h

lemma mem_initCompares {values : List T} {x : T × T} (h : x ∈ initCompares values) : x.1 ∈ values ∧ x.2 ∈ values := by
  obtain ⟨i, -, h⟩ := mem_flatMap.1 h
  exact mem_insertCompares _ h

lemma mem_adjustLoopCompares {values : List T} {x : T × T} (fuel : ℕ) : ∀ {losers : List (Option ℕ)} {winner node : ℕ},
    x ∈ adjustLoopCompares values fuel losers winner node → x.1 ∈ values ∧ x.2 ∈ values := by
  induction fuel with
  | zero => intro losers winner node h; cases h
  | succ fuel ih =>
    intro _ _ _ h
    rw [adjustLoopCompares] at h
    split at h
    · cases h
    · split at h
      · cases h
      · rcases mem_append.1 h with h | h
        · exact mem_compared h
        · split at h
          · exact ih h
          · exact ih h

lemma mem_adjustCompares {t : LoserTree T} {x : T × T} (h : x ∈ adjustCompares t) :
    x.1 ∈ t.values ∧ x.2 ∈ t.values := by
  unfold adjustCompares at h
  split at h
  · cases h
  · exact mem_adjustLoopCompares _ h

lemma values_adjustTree (t : LoserTree T) : t.adjustTree.values = t.values := by
  unfold LoserTree.adjustTree
  split <;> rfl

end Compares

/-! ### Accesses of the sorter -/

def comparesReads (xs : List (SortedBlockCursor (InMemSortedBlock V) V × SortedBlockCursor (InMemSortedBlock V) V)) :
    List KeyAccess := xs.flatMap fun x => ltReads x.1 x.2

/-- The accesses of the loop of `next`. -/
def mergeLoopReads : ℕ → LoserTree (SortedBlockCursor (InMemSortedBlock V) V) → List KeyAccess
  | 0, _ => []
  | remaining + 1, t =>
    match t.peekMut with
    | none => []
    | some c =>
      if c.finished then []
      else
        curKeyReads c.input ++
          match c.nextKey with
          | (.error _, c) => comparesReads (adjustCompares (t.setWinner c))
          | (.ok (), c) =>
            (if c.finished then [] else prevKeyReads c.input) ++
              if c.finished || !SortedBlock.isEqualToPrevKey c.input then
                comparesReads (adjustCompares (t.setWinner c)) ++ mergeLoopReads remaining (t.setWinner c).adjustTree
              else mergeLoopReads remaining (t.setWinner c)

/-- The accesses of `next`: a tree that is not adjusted yet is adjusted when the `LoserTreePeekMut` is dropped. -/
def Merger.nextReads (KC : Type) [KeyCollector KC] (p : MergeParams) (m : Merger (InMemSortedBlock V) V) (batchSize : ℕ) :
    List KeyAccess :=
  let maxNumRows := min batchSize (p.limit - m.numTotalOutputRows)
  mergeLoopReads maxNumRows m.cursors ++
    match mergeLoop p.isAllPruned maxNumRows m.cursors false [] (KeyCollector.default : KC) 0 with
    | (.ok (true, _, _, _), t) => comparesReads (adjustCompares t)
    | _ => []

/-- The accesses of `while let Some(..) = merger.next(batch_size)?`. -/
def Merger.drainReads (KC : Type) [KeyCollector KC] (p : MergeParams) (batchSize : ℕ) :
    ℕ → Merger (InMemSortedBlock V) V → List KeyAccess
  | 0, _ => []
  | fuel + 1, m =>
    m.nextReads KC p batchSize ++
      match m.next KC p batchSize with
      | (.ok (some _), m) => m.drainReads KC p batchSize fuel
      | _ => []

def Merger.skipRowsReads (KC : Type) [KeyCollector KC] (p : MergeParams) (suggestedBatchSize : ℕ) :
    ℕ → ℕ → Merger (InMemSortedBlock V) V → List KeyAccess
  | 0, _, _ => []
  | fuel + 1, remaining, m =>
    if 0 < remaining then
      let batchSize := min remaining suggestedBatchSize
      m.nextReads KC p batchSize ++
        match m.next KC p batchSize with
        | (.ok (some _), m) => m.skipRowsReads KC p suggestedBatchSize fuel (remaining - batchSize)
        | _ => []
    else []

/-- The accesses of `try_new`: those of `LoserTree::new`. -/
def tryNewReads (blocks : List (InMemSortedBlock V)) : List KeyAccess :=
  match (cursorsOf 0 blocks : Except Fault (List (SortedBlockCursor (InMemSortedBlock V) V))) with
  | .error _ => []
  | .ok cursors => comparesReads (initCompares cursors)

def mergeBlocksReads (p : MergeParams) (subBatchSize : ℕ) (blocks : List (InMemSortedBlock V)) : List KeyAccess :=
  if 1 ≤ blocks.length then
    tryNewReads blocks ++
      match Merger.tryNew blocks with
      | .error _ => []
      | .ok m => m.drainReads SqueezeKeyCollector p subBatchSize (p.limit + 1)
  else []

namespace ExternalSorter

variable {cfg : SorterConfig V n}

section Sorter

variable (s : ExternalSorter cfg)

/-- The accesses of `spill`.  Spills are merged from their own key readers, without a collector in memory. -/
def spillReads (subBatchSize : ℕ) : List KeyAccess :=
  mergeBlocksReads cfg.params subBatchSize s.inMemBlocks

/-- The accesses of the part of `output` that merges and sends the blocks in memory. -/
def outputBlocksReads (cfg : SorterConfig V n) (outputBatchSize : ℕ) (blocks : List (InMemSortedBlock V)) :
    List KeyAccess :=
  tryNewReads blocks ++
    match Merger.tryNew blocks with
    | .error _ => []
    | .ok m =>
      if 0 < cfg.skip then
        m.skipRowsReads InMemRowsKeyCollector cfg.params outputBatchSize (cfg.skip + 1) cfg.skip ++
          (m.skipRows InMemRowsKeyCollector cfg.params outputBatchSize (cfg.skip + 1) cfg.skip).2.drainReads
            InMemRowsKeyCollector cfg.params outputBatchSize (cfg.limitNum + 1)
      else m.drainReads InMemRowsKeyCollector cfg.params outputBatchSize (cfg.limitNum + 1)

/-- The accesses of `output`: what is in memory is spilled if there are spills, and output if there are none. -/
def outputReads (subBatchSize outputBatchSize : ℕ) : List KeyAccess :=
  if s.inMemBlocks.isEmpty then []
  else if s.spills.isEmpty then outputBlocksReads cfg outputBatchSize s.inMemBlocks
  else s.spillReads subBatchSize

/-- The accesses of a call; `insert_batch` only adds keys. -/
def stepReads : Op V n → List KeyAccess
  | .insertBatch _ => []
  | .spill subBatchSize => s.spillReads subBatchSize

end Sorter

/-- The accesses of a sequence of calls and of the output after them. -/
def stepsReads (subBatchSize outputBatchSize : ℕ+) : ExternalSorter cfg → List (Op V n) → List KeyAccess
  | s, [] => s.outputReads subBatchSize outputBatchSize
  | s, op :: ops =>
    s.stepReads op ++
      match s.step op with
      | .error _ => []
      | .ok s => stepsReads subBatchSize outputBatchSize s ops

def runReads (cfg : SorterConfig V n) (ops : List (Op V n)) (subBatchSize outputBatchSize : ℕ+) : List KeyAccess :=
  stepsReads subBatchSize outputBatchSize ({} : ExternalSorter cfg) ops

end ExternalSorter

/-! ### Cursors stay on their keys -/

/-- A cursor over a block of `insert_batch` is finished, or stands on a key of its batch; the batch is loaded, or the row
cursor has left it behind. -/
def KeyOk (c : SortedBlockCursor (InMemSortedBlock V) V) : Prop :=
  c.finished = true ∨ ∃ ks i, c.input = ⟨[InMemRowsKeyCollector.ofKeys ks], [], i⟩ ∧ i < ks.length ∧
    ks.length ≤ usizeMax ∧ c.curKeyRowIdx = i + 1 ∧
    (c.curBatches = [] ∨ ∃ batch, c.curBatches = [batch] ∧ batch.length = ks.length)

def TreeOk (t : LoserTree (SortedBlockCursor (InMemSortedBlock V) V)) : Prop := ∀ c ∈ t.values, KeyOk c

lemma numKeys_ofKeys (ks : List Bytes) : (InMemRowsKeyCollector.ofKeys ks).numKeys = ks.length := by
  rw [InMemRowsKeyCollector.numKeys, InMemRowsKeyCollector.length_offsets_ofKeys, Nat.add_sub_cancel]

section Cursors

variable {c : SortedBlockCursor (InMemSortedBlock V) V}

lemma KeyOk.curKeyReads_inBounds (h : KeyOk c) (hf : c.finished = false) : ∀ a ∈ curKeyReads c.input, a.InBounds := by
  obtain ⟨ks, i, hin, hi, -⟩ := h.resolve_left (by simp [hf])
  intro a ha
  obtain rfl : a = ⟨InMemRowsKeyCollector.ofKeys ks, i⟩ := by simpa [curKeyReads, keyReads, hin] using ha
  rw [KeyAccess.InBounds, numKeys_ofKeys]
  exact hi

lemma KeyOk.prevKeyReads_inBounds (h : KeyOk c) (hf : c.finished = false) :
    ∀ a ∈ prevKeyReads c.input, a.InBounds := by
  obtain ⟨ks, i, hin, hi, -⟩ := h.resolve_left (by simp [hf])
  intro a ha
  have ha' : 0 < i ∧ (a = ⟨InMemRowsKeyCollector.ofKeys ks, i - 1⟩ ∨ a = ⟨InMemRowsKeyCollector.ofKeys ks, i⟩) := by
    unfold prevKeyReads at ha
    split at ha
    · rename_i h0
      rw [hin] at h0
      exact ⟨h0, by simpa [keyReads, hin] using ha⟩
    · cases ha
  rcases ha' with ⟨h0, rfl | rfl⟩
  · rw [KeyAccess.InBounds, numKeys_ofKeys]
    exact (Nat.sub_le i 1).trans_lt hi
  · rw [KeyAccess.InBounds, numKeys_ofKeys]
    exact hi

variable {d : SortedBlockCursor (InMemSortedBlock V) V}

lemma ltReads_inBounds (hc : KeyOk c) (hd : KeyOk d) : ∀ a ∈ ltReads c d, a.InBounds := by
  unfold ltReads
  split
  · simp
  · rename_i hf
    simp only [Bool.or_eq_true, not_or, Bool.not_eq_true] at hf
    exact forall_mem_append.2 ⟨hc.curKeyReads_inBounds hf.2, hd.curKeyReads_inBounds hf.1⟩

lemma KeyOk.nextKey (h : KeyOk c) (hf : c.finished = false) : ∃ c', c.nextKey = (.ok (), c') ∧ KeyOk c' := by
  obtain ⟨ks, i, hin, hi, hsmall, hidx, hbatches⟩ := h.resolve_left (by simp [hf])
  unfold SortedBlockCursor.nextKey
  rw [if_neg (by simp [hf])]
  by_cases hlast : c.lastNumRows ≤ c.curKeyRowIdx
  · rw [if_pos hlast]
    have hload : c.loadNextBatch = (.ok false, { c with finished := true }) := by
      simp [loadNextBatch, SortedBlock.nextBatch, InMemSortedBlock.nextBatch, hin]
    simp only [hload]
    exact ⟨_, rfl, .inl rfl⟩
  · rw [if_neg hlast]
    rcases hbatches with hnil | ⟨batch, hbatch, hlen⟩
    · exact absurd (show c.lastNumRows ≤ c.curKeyRowIdx by simp [lastNumRows, hnil]) hlast
    · have hnext : i + 1 < ks.length := by
        rw [lastNumRows, hbatch, hidx] at hlast
        simpa [hlen] using hlast
      have hmod : (i + 1) % 2 ^ 64 = i + 1 := by
        refine Nat.mod_eq_of_lt ?_
        unfold usizeMax at hsmall
        omega
      refine ⟨{ c with input := ⟨[InMemRowsKeyCollector.ofKeys ks], [], i + 1⟩, curKeyRowIdx := c.curKeyRowIdx + 1 }, ?_,
        .inr ⟨ks, i + 1, rfl, hnext, hsmall, by rw [hidx], .inr ⟨batch, hbatch, hlen⟩⟩⟩
      simp only [advanceKey, SortedBlock.nextKey, InMemSortedBlock.nextKey, hin, hmod]

lemma KeyOk.congr (h : KeyOk c) (h1 : d.finished = c.finished)
    (h2 : d.input = c.input) (h3 : d.curKeyRowIdx = c.curKeyRowIdx) (h4 : d.curBatches = c.curBatches) : KeyOk d := by
  unfold KeyOk
  rw [h1, h2, h3, h4]
  exact h

lemma KeyOk.clear (h : KeyOk c) : KeyOk c.clearFinishedBatches := by
  rcases h with h | ⟨ks, i, hin, hi, hsmall, hidx, hbatches⟩
  · exact .inl (by rw [finished_clear, h])
  · unfold clearFinishedBatches
    split
    · rename_i h0
      refine .inr ⟨ks, i, hin, hi, hsmall, hidx, .inl ?_⟩
      refine drop_eq_nil_of_le ?_
      rcases hbatches with hnil | ⟨batch, hbatch, -⟩
      · simp [hnil]
      · rw [hbatch]
        exact h0
    · exact .inr ⟨ks, i, hin, hi, hsmall, hidx, hbatches⟩

lemma KeyOk.nextRow {x : ℕ × ℕ} (h : KeyOk c) (hd : c.nextRow = some (x, d)) : KeyOk d := by
  obtain ⟨_, -, hbatch⟩ := Option.map_eq_some_iff.1 hd
  obtain ⟨-, hd'⟩ := Prod.mk.inj hbatch
  subst hd'
  split
  · exact h.congr rfl rfl rfl rfl
  · exact h.congr rfl rfl rfl rfl

end Cursors

/-! ### Merges stay in bounds -/

section Merges

variable [KeyCollector KC] {t : LoserTree (SortedBlockCursor (InMemSortedBlock V) V)}
  {m : Merger (InMemSortedBlock V) V} {p : MergeParams}

lemma comparesReads_inBounds {values : List (SortedBlockCursor (InMemSortedBlock V) V)} (h : ∀ c ∈ values, KeyOk c)
    {xs : List (SortedBlockCursor (InMemSortedBlock V) V × SortedBlockCursor (InMemSortedBlock V) V)}
    (hxs : ∀ x ∈ xs, x.1 ∈ values ∧ x.2 ∈ values) : ∀ a ∈ comparesReads xs, a.InBounds := by
  intro a ha
  obtain ⟨x, hx, ha⟩ := mem_flatMap.1 ha
  exact ltReads_inBounds (h _ (hxs x hx).1) (h _ (hxs x hx).2) a ha

lemma TreeOk.adjustReads (h : TreeOk t) : ∀ a ∈ comparesReads (adjustCompares t), a.InBounds :=
  comparesReads_inBounds h fun _ hx => mem_adjustCompares hx

lemma TreeOk.adjustTree (h : TreeOk t) : TreeOk t.adjustTree := by
  unfold TreeOk
  rw [values_adjustTree]
  exact h

lemma TreeOk.setWinner (h : TreeOk t) {c : SortedBlockCursor (InMemSortedBlock V) V} (hc : KeyOk c) :
    TreeOk (t.setWinner c) := by
  unfold LoserTree.setWinner
  split
  · exact h
  · exact forall_mem_set h hc _

lemma TreeOk.peekMut (h : TreeOk t) {c : SortedBlockCursor (InMemSortedBlock V) V} (hc : t.peekMut = some c) :
    KeyOk c := by
  obtain ⟨w, -, hw⟩ := Option.bind_eq_some_iff.1 hc
  exact h c (mem_of_getElem? hw)

/-- **The loop of `next`** reads in bounds, and leaves the cursors on their keys. -/
theorem mergeLoop_keyOk (KC : Type) [KeyCollector KC] (ap : Bool) (remaining : ℕ) :
    ∀ {t : LoserTree (SortedBlockCursor (InMemSortedBlock V) V)},
    TreeOk t → (∀ a ∈ mergeLoopReads remaining t, a.InBounds) ∧
      ∀ (dirty : Bool) (ids : List ℕ) (kc : KC) (k : ℕ), TreeOk (mergeLoop ap remaining t dirty ids kc k).2 := by
  induction remaining with
  | zero => exact fun h => ⟨by simp [mergeLoopReads], fun _ _ _ _ => h⟩
  | succ remaining ih =>
    intro t h
    cases hpeek : t.peekMut with
    | none => exact ⟨by simp [mergeLoopReads, hpeek], fun _ _ _ _ => by simpa [mergeLoop, hpeek] using h⟩
    | some c =>
      have hc := h.peekMut hpeek
      cases hf : c.finished with
      | true => exact ⟨by simp [mergeLoopReads, hpeek, hf], fun _ _ _ _ => by simpa [mergeLoop, hpeek, hf] using h⟩
      | false =>
        obtain ⟨_, hnext, hc'⟩ := hc.nextKey hf
        have ht := h.setWinner hc'
        obtain ⟨hreads, htree⟩ := ih ht.adjustTree
        obtain ⟨hreads', htree'⟩ := ih ht
        refine ⟨fun a ha => ?_, fun dirty ids kc k => ?_⟩
        · rw [mergeLoopReads] at ha
          simp only [hpeek, hf, Bool.false_eq_true, if_false, hnext, mem_append] at ha
          rcases ha with ha | ha | ha
          · exact hc.curKeyReads_inBounds hf a ha
          · split at ha
            · cases ha
            · rename_i hf'
              exact hc'.prevKeyReads_inBounds (by simpa using hf') a ha
          · split at ha
            · rcases mem_append.1 ha with ha | ha
              · exact ht.adjustReads a ha
              · exact hreads a ha
            · exact hreads' a ha
        · rw [mergeLoop]
          simp only [hpeek, hf, Bool.false_eq_true, if_false, hnext]
          split
          · exact htree _ _ _ _
          · exact htree' _ _ _ _

lemma stageRows_keyOk {single : Bool} {bases : List ℕ} (ids : List ℕ) :
    ∀ {cs cs' : List (SortedBlockCursor (InMemSortedBlock V) V)} {idxs : List (ℕ × ℕ)}, (∀ c ∈ cs, KeyOk c) →
    stageRows single bases ids cs = some (idxs, cs') → ∀ c ∈ cs', KeyOk c := by
  induction ids with
  | nil =>
    intro cs cs' idxs h hs
    obtain ⟨-, rfl⟩ := Prod.mk.inj (Option.some.inj hs)
    exact h
  | cons id ids ih =>
    intro cs _ _ h hs
    rw [stageRows] at hs
    split at hs
    · cases hs
    · rename_i c hc
      split at hs
      · cases hs
      · rename_i b r c' hrow
        have hset := forall_mem_set h ((h c (mem_of_getElem? hc)).nextRow hrow) id
        split at hs
        · rename_i idx idxs' cs'' _ hrest
          obtain ⟨-, rfl⟩ := Prod.mk.inj (Option.some.inj hs)
          exact ih hset hrest
        · cases hs

lemma collectPruned_keyOk {ids : List ℕ} {rows : List (List V)} {m' : Merger (InMemSortedBlock V) V}
    (h : TreeOk m.cursors) (hm : m.collectPruned ids = some (rows, m')) : TreeOk m'.cursors := by
  unfold Merger.collectPruned at hm
  split at hm
  · cases hm
  · rename_i m1 hm1
    have h₁ : TreeOk m1.cursors := by
      split at hm1
      · unfold Merger.rebuildInterleaver at hm1
        dsimp only at hm1
        split at hm1
        · cases hm1
        · obtain rfl := Option.some.inj hm1
          intro c hc
          obtain ⟨d, hd, rfl⟩ := mem_map.1 hc
          exact (h d hd).congr rfl rfl rfl rfl
      · obtain rfl := Option.some.inj hm1
        exact h
    split at hm
    · cases hm
    · rename_i idxs cs hstage
      split at hm
      · cases hm
      · obtain ⟨-, rfl⟩ := Prod.mk.inj (Option.some.inj hm)
        exact stageRows_keyOk ids h₁ hstage

/-- **`next`** reads in bounds, and leaves the cursors on their keys. -/
theorem next_keyOk (KC : Type) [KeyCollector KC] (p : MergeParams) (h : TreeOk m.cursors) (batchSize : ℕ) :
    (∀ a ∈ m.nextReads KC p batchSize, a.InBounds) ∧ TreeOk (m.next KC p batchSize).2.cursors := by
  obtain ⟨hreads, htree⟩ :=
    mergeLoop_keyOk KC p.isAllPruned (min batchSize (p.limit - m.numTotalOutputRows)) h
  have ht := htree false [] KeyCollector.default 0
  refine ⟨forall_mem_append.2 ⟨hreads, ?_⟩, ?_⟩
  · split
    · rename_i t hloop
      rw [hloop] at ht
      exact ht.adjustReads
    · simp
  · unfold Merger.next
    dsimp only
    split
    · rename_i e t hloop
      rw [hloop] at ht
      exact ht
    · rename_i dirty ids kc k t hloop
      rw [hloop] at ht
      split
      · exact ht
      · have ht' : TreeOk (if dirty then t.adjustTree else t) := by
          split
          · exact ht.adjustTree
          · exact ht
        split
        · exact ht'
        · rename_i rows m' hrows
          have hm' : TreeOk m'.cursors := by
            split at hrows
            · obtain ⟨-, rfl⟩ := Prod.mk.inj (Option.some.inj hrows)
              exact ht'
            · exact collectPruned_keyOk ht' hrows
          intro c hc
          obtain ⟨d, hd, rfl⟩ := mem_map.1 hc
          exact (hm' d hd).clear

/-- **Merging to the end** reads in bounds. -/
theorem drain_keyOk (KC : Type) [KeyCollector KC] (p : MergeParams) (batchSize fuel : ℕ) :
    ∀ {m : Merger (InMemSortedBlock V) V}, TreeOk m.cursors → ∀ a ∈ m.drainReads KC p batchSize fuel, a.InBounds := by
  induction fuel with
  | zero => simp [Merger.drainReads]
  | succ fuel ih =>
    intro m h
    obtain ⟨hreads, htree⟩ := next_keyOk KC p h batchSize
    refine forall_mem_append.2 ⟨hreads, ?_⟩
    split
    · rename_i out m' hnext
      rw [hnext] at htree
      exact ih htree
    · simp

/-- **Skipping** reads in bounds, and leaves the cursors on their keys. -/
theorem skipRows_keyOk (KC : Type) [KeyCollector KC] (p : MergeParams) (batchSize fuel : ℕ) :
    ∀ {m : Merger (InMemSortedBlock V) V} (remaining : ℕ), TreeOk m.cursors →
    (∀ a ∈ m.skipRowsReads KC p batchSize fuel remaining, a.InBounds) ∧
      TreeOk (m.skipRows KC p batchSize fuel remaining).2.cursors := by
  induction fuel with
  | zero => exact fun _ h => ⟨by simp [Merger.skipRowsReads], h⟩
  | succ fuel ih =>
    intro m remaining h
    by_cases hr : 0 < remaining
    · obtain ⟨hreads, htree⟩ := next_keyOk KC p h (min remaining batchSize)
      rw [Merger.skipRowsReads, Merger.skipRows, if_pos hr, if_pos hr]
      dsimp only
      cases hnext : m.next KC p (min remaining batchSize) with
      | mk res m' =>
        rw [hnext] at htree
        rcases res with e | _ | out
        · exact ⟨by simpa using hreads, htree⟩
        · exact ⟨by simpa using hreads, htree⟩
        · obtain ⟨hreads', htree'⟩ := ih (remaining - min remaining batchSize) htree
          exact ⟨forall_mem_append.2 ⟨hreads, hreads'⟩, htree'⟩
    · rw [Merger.skipRowsReads, Merger.skipRows, if_neg hr, if_neg hr]
      exact ⟨by simp, h⟩

end Merges

/-! ### Runs stay in bounds -/

/-- A block `insert_batch` built from at least one record. -/
def Built (b : InMemSortedBlock V) : Prop := ∃ c, b = InMemSortedBlock.ofRecs c ∧ c ≠ [] ∧ c.length ≤ usizeMax

lemma cursorsOf_keyOk {blocks : List (InMemSortedBlock V)} (h : ∀ b ∈ blocks, Built b) :
    ∃ cs : List (SortedBlockCursor (InMemSortedBlock V) V), cursorsOf 0 blocks = .ok cs ∧ ∀ c ∈ cs, KeyOk c := by
  refine cursorsOf_ok (fun b hb id => ?_) 0
  obtain ⟨c, rfl, hne, hlen⟩ := h b hb
  refine ⟨_, tryFromBlock_ofRecs c id, .inr ⟨c.map Prod.fst, 0, rfl, ?_, by simpa using hlen, rfl, .inr ⟨_, rfl, by simp⟩⟩⟩
  simpa using length_pos_of_ne_nil hne

lemma tryNew_keyOk {blocks : List (InMemSortedBlock V)} (h : ∀ b ∈ blocks, Built b) :
    (∀ a ∈ tryNewReads blocks, a.InBounds) ∧
      ∀ m : Merger (InMemSortedBlock V) V, Merger.tryNew blocks = .ok m → TreeOk m.cursors := by
  obtain ⟨_, hcs, hok⟩ := cursorsOf_keyOk h
  refine ⟨?_, fun m hm => ?_⟩
  · rw [tryNewReads, hcs]
    exact comparesReads_inBounds hok fun _ hx => mem_initCompares hx
  · rw [Merger.tryNew, hcs] at hm
    dsimp only at hm
    split at hm
    · split at hm
      · cases hm
      · obtain rfl := Except.ok.inj hm
        exact hok
    · obtain rfl := Except.ok.inj hm
      exact hok

namespace ExternalSorter

variable {cfg : SorterConfig V n}

lemma spillReads_inBounds {s : ExternalSorter cfg} (h : ∀ b ∈ s.inMemBlocks, Built b) (subBatchSize : ℕ) :
    ∀ a ∈ s.spillReads subBatchSize, a.InBounds := by
  obtain ⟨hreads, htree⟩ := tryNew_keyOk h
  rw [spillReads, mergeBlocksReads]
  split
  · refine forall_mem_append.2 ⟨hreads, ?_⟩
    split
    · simp
    · rename_i m hm
      exact drain_keyOk _ _ _ _ (htree m hm)
  · simp

lemma outputBlocksReads_inBounds (cfg : SorterConfig V n) {blocks : List (InMemSortedBlock V)}
    (h : ∀ b ∈ blocks, Built b) (outputBatchSize : ℕ) : ∀ a ∈ outputBlocksReads cfg outputBatchSize blocks, a.InBounds := by
  obtain ⟨hreads, htree⟩ := tryNew_keyOk h
  refine forall_mem_append.2 ⟨hreads, ?_⟩
  split
  · simp
  · rename_i m hm
    split
    · obtain ⟨hskip, htree'⟩ :=
        skipRows_keyOk InMemRowsKeyCollector cfg.params outputBatchSize (cfg.skip + 1) cfg.skip (htree m hm)
      exact forall_mem_append.2 ⟨hskip, drain_keyOk _ _ _ _ htree'⟩
    · exact drain_keyOk _ _ _ _ (htree m hm)

lemma step_built (hL : 0 < cfg.limitNum) {s s' : ExternalSorter cfg} (h : ∀ b ∈ s.inMemBlocks, Built b) {op : Op V n}
    (hop : op.rows ≠ [] → numbered op.rows ≠ []) (hs : s.step op = .ok s') : ∀ b ∈ s'.inMemBlocks, Built b := by
  cases op with
  | insertBatch batch =>
    by_cases hne : batch = []
    · subst hne
      obtain rfl := Except.ok.inj (show Except.ok s = Except.ok s' from hs)
      exact h
    · have hkeys : cfg.prune.keyExprs ≠ [] := fun hnil => by
        rw [step, insertBatch_without_keys s hnil hne] at hs
        cases hs
      obtain ⟨c, h1, h2, h3⟩ := insertBatch_recs hkeys s hne
      obtain rfl := Except.ok.inj (h1.symm.trans hs)
      have hnum : numbered batch ≠ [] := hop hne
      have hc : c ≠ [] := h3.toKeeps.ne_nil hL (by simpa using hnum)
      intro b hb
      rcases mem_append.1 hb with hb | hb
      · exact h b hb
      · exact ⟨c, mem_singleton.1 hb, hc, h2.small⟩
  | spill subBatchSize =>
    have hnil : s'.inMemBlocks = [] := by
      simp only [step, spill] at hs
      split at hs
      · cases hs
      · split at hs
        · cases hs
        · obtain rfl := Except.ok.inj hs
          rfl
    simp [hnil]

lemma stepsReads_inBounds (hL : 0 < cfg.limitNum) (subBatchSize outputBatchSize : ℕ+) (ops : List (Op V n)) :
    ∀ {s : ExternalSorter cfg}, (∀ b ∈ s.inMemBlocks, Built b) → (∀ op ∈ ops, op.rows ≠ [] → numbered op.rows ≠ []) →
    ∀ a ∈ stepsReads subBatchSize outputBatchSize s ops, a.InBounds := by
  induction ops with
  | nil =>
    intro s h _
    rw [stepsReads, outputReads]
    split
    · simp
    · split
      · exact outputBlocksReads_inBounds cfg h _
      · exact spillReads_inBounds h _
  | cons op ops ih =>
    intro s h hops
    refine forall_mem_append.2 ⟨?_, ?_⟩
    · cases op with
      | insertBatch batch => exact forall_mem_nil _
      | spill size => exact spillReads_inBounds h _
    · split
      · simp
      · rename_i s' hs
        exact ih (step_built hL h (hops op mem_cons_self) hs) fun o ho => hops o (mem_cons_of_mem _ ho)

/-- **Every access to a key is in bounds**, in every run with a limit of at least one whose batches keep a row when their
row numbers are cast to `u32`: whatever the batches, the offset, the batch sizes and the spills. -/
theorem runReads_inBounds (cfg : SorterConfig V n) (hL : 0 < cfg.limitNum) (ops : List (Op V n))
    (hops : ∀ op ∈ ops, op.rows ≠ [] → op.rows.length % 2 ^ 32 ≠ 0) (subBatchSize outputBatchSize : ℕ+) :
    ∀ a ∈ runReads cfg ops subBatchSize outputBatchSize, a.InBounds := by
  refine stepsReads_inBounds hL subBatchSize outputBatchSize ops (by simp) fun op hop hne hnum => ?_
  have hlen := congrArg length hnum
  have hmod : op.rows.length % 2 ^ 32 ≤ op.rows.length := Nat.mod_le _ _
  rw [numbered, length_take, min_eq_left hmod] at hlen
  exact hops op hop hne hlen

/-- A run that merges two blocks in memory. -/
theorem runReads_inBounds_byteSorter :
    0 < byteSorter.limitNum ∧
      ∀ a ∈ runReads byteSorter [.insertBatch [#v[3, 0], #v[1, 1]], .insertBatch [#v[2, 2]]] 1 2, a.InBounds :=
  ⟨by decide, runReads_inBounds byteSorter (by decide) [.insertBatch [#v[3, 0], #v[1, 1]], .insertBatch [#v[2, 2]]]
    (by simp [Op.rows]) 1 2⟩

def byteSorterZero : SorterConfig UInt8 2 := { byteSorter with limit := some 0 }

/-- **With a limit of zero** the output of two batches reads a key of a collector without keys: the loser tree compares
two cursors over empty batches. -/
theorem runReads_limit_zero :
    ∃ a ∈ runReads byteSorterZero [.insertBatch [#v[1, 0]], .insertBatch [#v[2, 0]]] 1 1,
      a.keys.numKeys = 0 ∧ a.i = 0 ∧ ¬ a.InBounds := by
  exact ⟨⟨InMemRowsKeyCollector.ofKeys [], 0⟩, by decide, by decide, rfl, by decide⟩

/-- **Spills outside of `spillAll_spec`.**  Without a block in memory `spill` panics, and with a limit of zero its merge of
two batches reads a key of a collector without keys. -/
theorem spill_counterexample :
    ({} : ExternalSorter byteSorter).spill 1 = .error .panic ∧
      ∃ a ∈ runReads byteSorterZero [.insertBatch [#v[1, 0]], .insertBatch [#v[2, 0]], .spill 1] 1 1, ¬ a.InBounds :=
  ⟨rfl, ⟨InMemRowsKeyCollector.ofKeys [], 0⟩, by decide, by decide⟩

end ExternalSorter

end Auron.Sort
