import Auron.Sort.ExternalSorter
import Mathlib.Data.List.SplitBy

/-!
# The external sorter sorts

The invariant of a run is `Holds`: the blocks of the sorter deliver, each in ascending order of the keys, certain
records; and these keep the `limit` smallest keys of all that was inserted (`Keeps`).  A merge that stops at the limit
keeps it (`mergeBlocks_spec`), so inserting (`insertBatch_spec`), spilling with any number of merges of spills
(`spill_spec`) and hence every sequence of calls (`steps_spec`) keep it too.  The output then is the merge of what is
held, without the records skipped (`outputBlocks_spec`), restored to rows (`run_correct`).

`spill` asserts that there is something to merge.  `SpillsReady` says that every `spill` of a sequence of calls finds a
block in memory; the code calls it on a sorter that uses memory, but nothing in `spill` itself ensures it
(`run_spill_empty`).  Row numbers are cast to `u32` when a batch is sorted, so a batch has to have fewer than `2 ^ 32` rows
(`run_oversized`).
-/

namespace Auron.Sort

open Auron.Io Auron.Lib SortedBlockCursor InMemSortedBlock
open List hiding Vector

variable {V B KC : Type} {n : ℕ}

section Loops

variable [SortedBlock B V] [LawfulSortedBlock B V]

/-- The key collector `next` returns for the records it popped. -/
def collectKeys (KC : Type) [KeyCollector KC] (out : List (Rec V)) : KC :=
  KeyCollector.freeze ((out.map Prod.fst).foldl KeyCollector.addKey KeyCollector.default)

variable {p : MergeParams}

/-- **Merging to the end** pops records of minimal key up to the limit. -/
theorem drain_spec (KC : Type) [KeyCollector KC] {batchSize : ℕ} (hb : 0 < batchSize) (fuel : ℕ) :
    ∀ {m : Merger B V} {qs : List (List (Rec V))}, MergerRep p m qs →
    min (p.limit - m.numTotalOutputRows) qs.flatten.length < fuel →
    ∃ (ids : List ℕ) (outs qs' : List (List (Rec V))),
      m.drain KC p batchSize fuel = .ok (outs.map fun out => (collectKeys KC out, out.map Prod.snd)) ∧
      MergePops Prod.fst qs ids outs.flatten qs' ∧
      outs.flatten.length = min (p.limit - m.numTotalOutputRows) qs.flatten.length ∧ ∀ out ∈ outs, out ≠ [] := by
  induction fuel with
  | zero => intro m qs _ hf; omega
  | succ fuel ih =>
    intro m qs h _
    obtain ⟨ids, out, _, _, h1, h2, h3, _, h5⟩ := Merger.next_spec KC h batchSize
    have htotal := h1.pops.perm.length_eq
    rw [length_append] at htotal
    rw [Merger.drain, h5]
    by_cases hout : out = []
    · subst hout
      refine ⟨[], [], qs, rfl, .nil qs, ?_, by simp⟩
      simp only [length_nil] at h2
      simp only [flatten_nil, length_nil]
      omega
    · have hpos := length_pos_of_ne_nil hout
      rw [if_neg hout]
      obtain ⟨ids', outs, qs'', g1, g2, _, g4⟩ := ih h3 (by omega)
      refine ⟨ids ++ ids', out :: outs, qs'', ?_, ?_, ?_, ?_⟩
      · simp only [g1]
        rfl
      · rw [flatten_cons]
        exact h1.append g2
      · rw [flatten_cons, length_append]
        omega
      · exact forall_mem_cons.2 ⟨hout, g4⟩

/-- **Skipping** pops records of minimal key, as many as asked for if the limit and the blocks allow. -/
theorem skipRows_spec (KC : Type) [KeyCollector KC] {batchSize : ℕ} (hb : 0 < batchSize) (fuel : ℕ) :
    ∀ {m : Merger B V} {qs : List (List (Rec V))} (remaining : ℕ), MergerRep p m qs → remaining < fuel →
    ∃ ids out qs' m', m.skipRows KC p batchSize fuel remaining = (.ok (), m') ∧ MergePops Prod.fst qs ids out qs' ∧
      out.length = min remaining (min (p.limit - m.numTotalOutputRows) qs.flatten.length) ∧ MergerRep p m' qs' ∧
      m'.numTotalOutputRows = m.numTotalOutputRows + out.length := by
  induction fuel with
  | zero => intro m qs remaining _ hf; omega
  | succ fuel ih =>
    intro m qs remaining h _
    rw [Merger.skipRows]
    by_cases hr : 0 < remaining
    · rw [if_pos hr]
      obtain ⟨ids, out, qs', m', h1, h2, h3, h4, h5⟩ := Merger.next_spec KC h (min remaining batchSize)
      have htotal := h1.pops.perm.length_eq
      rw [length_append] at htotal
      simp only [h5]
      by_cases hout : out = []
      · subst hout
        refine ⟨ids, [], qs', m', by simp, h1, ?_, h3, h4⟩
        simp only [length_nil] at h2 ⊢
        omega
      · have hpos := length_pos_of_ne_nil hout
        rw [if_neg hout]
        obtain ⟨ids', out', qs'', m'', g1, g2, _, g4, _⟩ := ih (remaining - min remaining batchSize) h3 (by omega)
        refine ⟨ids ++ ids', out ++ out', qs'', m'', g1, h1.append g2, ?_, g4, ?_⟩
        · rw [length_append]
          omega
        · rw [length_append]
          omega
    · rw [if_neg hr]
      exact ⟨[], [], qs, m, rfl, .nil qs, by simp; omega, h, rfl⟩

/-! ### What blocks hold -/

/-- The blocks deliver, each in ascending order of the keys, the given records. -/
inductive Holds (isAllPruned : Bool) : List B → List (Rec V) → Prop
  | nil : Holds isAllPruned [] []
  | cons {b : B} {chunks : List (List (Rec V))} {bs : List B} {rs : List (Rec V)} (rep : BlockRep b chunks)
      (sorted : chunks.flatten.Pairwise fun a b => a.1 ≤ b.1)
      (pruned : isAllPruned = true → ∀ r ∈ chunks.flatten, r.2 = []) (rest : Holds isAllPruned bs rs) :
      Holds isAllPruned (b :: bs) (chunks.flatten ++ rs)

namespace Holds

variable {ap : Bool} {bs bs' : List B} {rs rs' : List (Rec V)}

lemma append (h : Holds ap bs rs) (h' : Holds ap bs' rs') : Holds ap (bs ++ bs') (rs ++ rs') := by
  induction h with
  | nil => exact h'
  | cons rep sorted pruned _ ih =>
    rw [append_assoc]
    exact .cons rep sorted pruned ih

lemma chunks (h : Holds ap bs rs) : ∃ css : List (List (List (Rec V))), Forall₂ BlockRep bs css ∧
    css.flatten.flatten = rs ∧ QueuesSorted (css.map flatten) ∧ (ap = true → ∀ r ∈ css.flatten.flatten, r.2 = []) := by
  induction h with
  | nil => exact ⟨[], .nil, rfl, by simp [QueuesSorted], by simp⟩
  | @cons b chunks bs rs rep sorted pruned _ ih =>
    obtain ⟨css, h1, h2, h3, h4⟩ := ih
    refine ⟨chunks :: css, .cons rep h1, by simp [h2], ?_, ?_⟩
    · exact forall_mem_cons.2 ⟨sorted, h3⟩
    · intro hap r hr
      rw [flatten_cons, flatten_append, mem_append] at hr
      rcases hr with hr | hr
      · exact pruned hap r hr
      · exact h4 hap r hr

lemma tryNew {p : MergeParams} (h : Holds p.isAllPruned bs rs) (hne : bs ≠ []) :
    ∃ m qs, Merger.tryNew bs = .ok m ∧ MergerRep p m qs ∧ qs.flatten = rs ∧
      m.numTotalOutputRows = 0 := by
  obtain ⟨css, h1, h2, h3, h4⟩ := h.chunks
  obtain ⟨m, g1, g2, g3⟩ := Merger.tryNew_spec p h1 hne h3 h4
  exact ⟨m, css.map flatten, g1, g2, by rw [← h2, flatten_flatten], g3⟩

lemma ne_nil (h : Holds ap bs rs) (hne : bs ≠ []) : rs ≠ [] := by
  cases h with
  | nil => exact absurd rfl hne
  | @cons b chunks _ rs' rep =>
    obtain ⟨c, _, rfl⟩ := exists_cons_of_ne_nil rep.ne_nil
    have hc := rep.nonempty c mem_cons_self
    intro hnil
    simp only [flatten_cons, append_eq_nil_iff] at hnil
    exact hc hnil.1.1

end Holds

/-- **A merge into a spill** keeps the smallest keys up to the limit. -/
theorem mergeBlocks_spec (io : SpillIo V) {subBatchSize : ℕ} (hb : 0 < subBatchSize) (hL : 0 < p.limit) {bs : List B}
    {rs : List (Rec V)} (h : Holds p.isAllPruned bs rs) (hne : bs ≠ []) :
    ∃ b rs', mergeBlocks p io subBatchSize bs = .ok b ∧ Holds p.isAllPruned [b] rs' ∧ Keeps Prod.fst p.limit rs rs' ∧
      rs'.length = min p.limit rs.length := by
  obtain ⟨m, qs, h1, h2, h3, h4⟩ := h.tryNew hne
  have hlen : 1 ≤ bs.length := length_pos_of_ne_nil hne
  have hrs : 0 < qs.flatten.length := by
    rw [h3]
    exact length_pos_of_ne_nil (h.ne_nil hne)
  obtain ⟨_, outs, _, g1, g2, g3, g4⟩ := drain_spec SqueezeKeyCollector hb (p.limit + 1) h2 (by omega)
  rw [h4, Nat.sub_zero] at g3
  have hsorted : (outs.flatten.map Prod.fst).Pairwise (· ≤ ·) := pairwise_map.2 g2.sorted
  have hrep := SpillSortedBlock.rep_finish io hsorted
  refine ⟨_, outs.flatten ++ [], ?_, .cons ⟨hrep, ?_, g4⟩ g2.sorted ?_ .nil, ?_, by rw [append_nil, g3, h3]⟩
  · rw [mergeBlocks, if_pos hlen, h1]
    simp only [g1, foldl_map]
    rfl
  · rintro rfl
    simp only [flatten_nil, length_nil] at g3
    omega
  · intro hap r hr
    exact h2.pruned hap r (g2.mem_of_mem_out hr)
  · rw [append_nil, ← h3]
    exact g2.keeps g3

end Loops

lemma Holds.inMem {ap : Bool} {c : List (Rec V)} (hne : c ≠ []) (hlen : c.length ≤ usizeMax)
    (hsorted : c.Pairwise fun a b => a.1 ≤ b.1) (hpruned : ap = true → ∀ r ∈ c, r.2 = []) :
    Holds ap [ofRecs c] c := by
  have hrep : BlockRep (ofRecs c) [c] :=
    ⟨rep_ofRecs hlen, by simp, by simpa using hne⟩
  have h : Holds ap [_] ([c].flatten ++ []) := .cons hrep (by simpa using hsorted) (by simpa using hpruned) .nil
  simpa using h

namespace ExternalSorter

variable {cfg : SorterConfig V n}

section Records

variable (cfg : SorterConfig V n)

def recOf (row : Vector V n) : Rec V := (cfg.prune.keyOf row, cfg.prune.pruneRow row)

/-! ### `insert_batch` -/

lemma sortedIndices_spec (keys : List Bytes) :
    ∃ idxs : List ℕ, sortedIndices cfg keys = idxs.take cfg.limitNum ∧
      idxs.Perm (range (keys.length % 2 ^ 32)) ∧ idxs.Pairwise fun a b => keys.getD a [] ≤ keys.getD b [] := by
  unfold sortedIndices
  split
  · exact ⟨_, rfl, cfg.sort.perm _ _, cfg.sort.sorted _ _⟩
  · exact ⟨_, rfl, mergeSort_perm _ _, pairwise_mergeSort' _ _⟩

/-- The record of row number `i` of a batch. -/
def recAt (batch : List (Vector V n)) (i : ℕ) : Rec V :=
  ((batch.map cfg.prune.keyOf).getD i [], (batch.map cfg.prune.pruneRow).getD i [])

end Records

variable {batch : List (Vector V n)}

lemma map_recAt_range {k : ℕ} (hk : k ≤ batch.length) :
    (range k).map (recAt cfg batch) = (batch.take k).map (recOf cfg) := by
  refine ext_getElem (by simpa using hk) fun i h1 h2 => ?_
  have hi : i < batch.length := by
    simp only [length_map, length_range] at h1
    omega
  simp [recAt, recOf, getElem?_eq_getElem hi]

lemma gather_of_lt {α : Type} {xs : List α} {idxs : List ℕ} (h : ∀ i ∈ idxs, i < xs.length) (d : α) :
    gather xs idxs = some (idxs.map fun i => xs.getD i d) :=
  collect_eq_map fun i hi => by simp [getElem?_eq_getElem (h i hi)]

lemma insertBatch_without_keys (s : ExternalSorter cfg) (hkeys : cfg.prune.keyExprs = []) (hne : batch ≠ []) :
    s.insertBatch batch = .error .panic := by
  have h0 : batch.length ≠ 0 := fun h => hne (eq_nil_of_length_eq_zero h)
  simp [insertBatch, PruneSortKeysFromBatch.keyRows, hkeys, h0]

lemma insertBatch_eq (hkeyExprs : cfg.prune.keyExprs ≠ []) (s : ExternalSorter cfg) (hne : batch ≠ []) {idxs : List ℕ}
    (h : sortedIndices cfg (batch.map cfg.prune.keyOf) = idxs) (hlt : ∀ i ∈ idxs, i < batch.length) :
    s.insertBatch batch = .ok { s with inMemBlocks := s.inMemBlocks ++ [ofRecs (idxs.map (recAt cfg batch))] } := by
  have h0 : batch.length ≠ 0 := fun h => hne (eq_nil_of_length_eq_zero h)
  have hkeys : gather (batch.map cfg.prune.keyOf) idxs = some ((idxs.map (recAt cfg batch)).map Prod.fst) := by
    rw [gather_of_lt (by simpa using hlt) [], map_map]
    rfl
  have hrows : (if !cfg.prune.isAllPruned then gather (batch.map cfg.prune.pruneRow) idxs
      else some (replicate idxs.length [])) = some ((idxs.map (recAt cfg batch)).map Prod.snd) := by
    cases hap : cfg.prune.isAllPruned with
    | false =>
      rw [gather_of_lt (by simpa using hlt) [], map_map]
      rfl
    | true =>
      have hnil : ∀ i ∈ idxs, (recAt cfg batch i).2 = [] := by
        intro i hi
        simp [recAt, getElem?_eq_getElem (hlt i hi), cfg.prune.pruneRow_eq_nil hap]
      rw [map_map, ← map_const']
      exact congrArg some (map_congr_left fun i hi => (hnil i hi).symm)
  have hrowsOf : cfg.prune.keyRows batch = batch.map cfg.prune.keyOf := if_neg (by simpa using hkeyExprs)
  unfold insertBatch
  simp only [hrowsOf, length_map, h0, if_false, h, hkeys, hrows]
  rfl

/-- The rows of a batch whose number survives the cast to `u32`. -/
def numbered (batch : List (Vector V n)) : List (Vector V n) := batch.take (batch.length % 2 ^ 32)

/-- What `insert_batch` asks of the records of a block: sorted, counted by `usize`, and without cells if every column is
pruned. -/
structure Sorted (ap : Bool) (c : List (Rec V)) : Prop where
  sorted : c.Pairwise fun a b => a.1 ≤ b.1
  small : c.length ≤ usizeMax
  pruned : ap = true → ∀ r ∈ c, r.2 = []

lemma insertBatch_recs (hkeys : cfg.prune.keyExprs ≠ []) (s : ExternalSorter cfg) (hne : batch ≠ []) :
    ∃ c, s.insertBatch batch = .ok { s with inMemBlocks := s.inMemBlocks ++ [ofRecs c] } ∧
      Sorted cfg.prune.isAllPruned c ∧ Cut Prod.fst cfg.limitNum ((numbered batch).map (recOf cfg)) c := by
  obtain ⟨idxs, h1, h2, h3⟩ := sortedIndices_spec cfg (batch.map cfg.prune.keyOf)
  rw [length_map] at h2
  have hmod : batch.length % 2 ^ 32 ≤ batch.length := Nat.mod_le _ _
  have hnum : (numbered batch).length = batch.length % 2 ^ 32 := by
    rw [numbered, length_take]
    omega
  have hlt : ∀ i ∈ idxs.take cfg.limitNum, i < batch.length := by
    intro i hi
    have := mem_range.1 (h2.subset (mem_of_mem_take hi))
    omega
  have hperm : (idxs.map (recAt cfg batch)).Perm ((numbered batch).map (recOf cfg)) := map_recAt_range hmod ▸ h2.map _
  have hsorted : (idxs.map (recAt cfg batch)).Pairwise fun a b => a.1 ≤ b.1 := pairwise_map.2 h3
  have hlenc : ((idxs.map (recAt cfg batch)).take cfg.limitNum).length = min cfg.limitNum (batch.length % 2 ^ 32) := by
    rw [length_take, hperm.length_eq, length_map, hnum]
  refine ⟨(idxs.map (recAt cfg batch)).take cfg.limitNum, ?_, ⟨hsorted.sublist (take_sublist _ _), ?_, ?_⟩, ?_, ?_⟩
  · rw [insertBatch_eq hkeys s hne h1 hlt, map_take]
  · rw [hlenc]
    unfold usizeMax
    omega
  · intro hap r hr
    obtain ⟨row, -, rfl⟩ := mem_map.1 (hperm.subset (mem_of_mem_take hr))
    exact cfg.prune.pruneRow_eq_nil hap row
  · exact (Keeps.of_perm hperm.symm).trans (Keeps.take hsorted)
  · rw [hlenc, length_map, hnum]

/-- **`insert_batch`** adds a block that keeps the smallest keys up to the limit, of the rows it numbers. -/
theorem insertBatch_spec (hkeys : cfg.prune.keyExprs ≠ []) (hL : 0 < cfg.limitNum) (s : ExternalSorter cfg)
    (hne : numbered batch ≠ []) :
    ∃ b rs, s.insertBatch batch = .ok { s with inMemBlocks := s.inMemBlocks ++ [b] } ∧
      Holds cfg.prune.isAllPruned [b] rs ∧ Keeps Prod.fst cfg.limitNum ((numbered batch).map (recOf cfg)) rs := by
  have hbatch : batch ≠ [] := by
    rintro rfl
    simp [numbered] at hne
  obtain ⟨c, h1, ⟨h2, h3, h4⟩, h5⟩ := insertBatch_recs hkeys s hbatch
  have hc : c ≠ [] := h5.toKeeps.ne_nil hL (by simpa using hne)
  exact ⟨_, c, h1, Holds.inMem hc h3 h2 h4, h5.toKeeps⟩

lemma numbered_of_lt (h : batch.length < 2 ^ 32) : numbered batch = batch := by
  rw [numbered, Nat.mod_eq_of_lt h, take_length]

/-! ### `spill` -/

variable {subBatchSize : ℕ}

/-- **Merging the spills of full levels** never runs out of levels: behind the last level in use there is an empty one.
`P b share` says of a block that it stands for certain records; if a merged block stands for the records of all its
inputs, the spills left at the end stand for all records, each for its own. -/
theorem levelLoop_inv {p : MergeParams} {io : SpillIo V} {P : SpillSortedBlock io → List (Rec V) → Prop}
    (hmerge : ∀ {bs shares}, Forall₂ P bs shares → bs ≠ [] →
      ∃ b, mergeBlocks p io subBatchSize bs = .ok b ∧ P b shares.flatten)
    (levels : List (List (SpillSortedBlock io))) : ∀ (level : ℕ) (pushed : List (SpillSortedBlock io))
    (spills : List (LevelSpill io)) {sl sp ss : List (List (Rec V))}, pushed.length ≤ 1 →
    Forall₂ P levels.flatten sl → Forall₂ P pushed sp → Forall₂ P (spills.map LevelSpill.block) ss →
    ∃ spills' ss', levelLoop p subBatchSize level pushed (levels ++ [[]]) spills = .ok spills' ∧
      Forall₂ P (spills'.map LevelSpill.block) ss' ∧ ss'.flatten.Perm (ss ++ (sp ++ sl)).flatten := by
  induction levels with
  | nil =>
    intro level pushed spills sl sp ss hp hl hpu hs
    cases hl
    have hsmall : ¬ numMaxMergingBatches ≤ pushed.length := by
      unfold numMaxMergingBatches
      omega
    rw [nil_append, levelLoop, if_neg (by simpa using hsmall)]
    refine ⟨_, ss ++ sp, rfl, ?_, by rw [append_nil]⟩
    have := rel_append hs hpu
    simpa [Function.comp_def] using this
  | cons blocks levels ih =>
    intro level pushed spills sl sp ss _ hl hpu hs
    obtain ⟨sb, sl', rfl, hb, hl'⟩ : ∃ sb sl', sl = sb ++ sl' ∧ Forall₂ P blocks sb ∧
        Forall₂ P levels.flatten sl' := by
      refine ⟨_, _, (take_append_drop blocks.length sl).symm, ?_, ?_⟩
      · exact (forall₂_take_append sl blocks levels.flatten hl.flip).flip
      · exact (forall₂_drop_append sl blocks levels.flatten hl.flip).flip
    have hboth := rel_append hb hpu
    have hperm : (ss ++ (sb ++ (sp ++ sl'))).flatten.Perm (ss ++ (sp ++ (sb ++ sl'))).flatten :=
      ((perm_append_comm_assoc _ _ _).append_left _).flatten
    rw [cons_append, levelLoop]
    split
    · rename_i hfull
      have hne : blocks ++ pushed ≠ [] := by
        rw [← length_pos_iff_ne_nil]
        unfold numMaxMergingBatches at hfull
        omega
      obtain ⟨b, g1, g2⟩ := hmerge hboth hne
      obtain ⟨spills', ss', e1, e2, e3⟩ := ih (level + 1) [b] spills (by simp) hl' (.cons g2 .nil) hs
      exact ⟨spills', ss', by rw [g1]; exact e1, e2, e3.trans (by simpa using hperm)⟩
    · have hs' : Forall₂ P ((spills ++ (blocks ++ pushed).map (LevelSpill.mk · level)).map LevelSpill.block)
          (ss ++ (sb ++ sp)) := by
        have := rel_append hs hboth
        simpa [Function.comp_def] using this
      obtain ⟨spills', ss', e1, e2, e3⟩ := ih (level + 1) [] _ (by simp) hl' .nil hs'
      exact ⟨spills', ss', e1, e2, e3.trans (by simpa using hperm)⟩

variable {s : ExternalSorter cfg}

lemma spill_inv {P : SpillSortedBlock cfg.io → List (Rec V) → Prop}
    (hmerge : ∀ {bs shares}, Forall₂ P bs shares → bs ≠ [] →
      ∃ b, mergeBlocks cfg.params cfg.io subBatchSize bs = .ok b ∧ P b shares.flatten)
    {b : SpillSortedBlock cfg.io} {share : List (Rec V)} {shares : List (List (Rec V))}
    (hb : mergeBlocks cfg.params cfg.io subBatchSize s.inMemBlocks = .ok b) (hshare : P b share)
    (hs : Forall₂ P (s.spills.map LevelSpill.block) shares) :
    ∃ spills shares', s.spill subBatchSize = .ok ⟨[], spills⟩ ∧
      levelLoop cfg.params subBatchSize 0 []
        ((chunkByLevel (cfg.sort.sortedUnstableByKey LevelSpill.level (s.spills ++ [⟨b, 0⟩]))).map
          (·.map LevelSpill.block) ++ [[]]) [] = .ok spills ∧
      Forall₂ P (spills.map LevelSpill.block) shares' ∧ shares'.flatten.Perm (share ++ shares.flatten) := by
  have hall : Forall₂ P ((s.spills ++ [LevelSpill.mk b 0]).map LevelSpill.block) (shares ++ [share]) := by
    rw [map_append]
    exact rel_append hs (.cons hshare .nil)
  -- sorted by level and cut into runs, the spills are the same
  have hperm : ((chunkByLevel (cfg.sort.sortedUnstableByKey LevelSpill.level (s.spills ++ [LevelSpill.mk b 0]))).map
      (·.map LevelSpill.block)).flatten.Perm ((s.spills ++ [LevelSpill.mk b 0]).map LevelSpill.block) := by
    rw [← map_flatten, chunkByLevel, flatten_splitBy]
    exact (cfg.sort.perm _ _).map _
  obtain ⟨sl, h1, h2⟩ := perm_comp_forall₂ hperm hall
  obtain ⟨spills, shares', g1, g2, g3⟩ := levelLoop_inv hmerge _ 0 [] [] (by simp) h1 .nil .nil
  refine ⟨spills, shares', ?_, g1, g2, ?_⟩
  · unfold spill
    rw [hb]
    simp only [g1]
  · have hsl : sl.flatten.Perm (shares ++ [share]).flatten := h2.flatten
    refine g3.trans (hsl.trans ?_)
    rw [flatten_append, flatten_singleton]
    exact perm_append_comm

/-- A block stands for records of which it holds those of smallest keys. -/
def HoldsOf (cfg : SorterConfig V n) (b : SpillSortedBlock cfg.io) (share : List (Rec V)) : Prop :=
  ∃ rs, Holds cfg.prune.isAllPruned [b] rs ∧ Keeps Prod.fst cfg.limitNum share rs

lemma HoldsOf.all {bs : List (SpillSortedBlock cfg.io)} {shares : List (List (Rec V))}
    (h : Forall₂ (HoldsOf cfg) bs shares) :
    ∃ rs, Holds cfg.prune.isAllPruned bs rs ∧ Keeps Prod.fst cfg.limitNum shares.flatten rs := by
  induction h with
  | nil => exact ⟨[], .nil, Keeps.refl _⟩
  | cons hb _ ih =>
    obtain ⟨rb, h1, h2⟩ := hb
    obtain ⟨rs, h3, h4⟩ := ih
    exact ⟨rb ++ rs, h1.append h3, h2.append h4⟩

variable {rs : List (Rec V)}

lemma HoldsOf.of_holds {bs : List (SpillSortedBlock cfg.io)} (h : Holds cfg.prune.isAllPruned bs rs) :
    ∃ shares, Forall₂ (HoldsOf cfg) bs shares ∧ shares.flatten = rs := by
  induction h with
  | nil => exact ⟨[], .nil, rfl⟩
  | @cons b chunks _ _ rep sorted pruned _ ih =>
    obtain ⟨shares, h1, rfl⟩ := ih
    refine ⟨chunks.flatten :: shares, .cons ⟨chunks.flatten ++ [], .cons rep sorted pruned .nil, ?_⟩ h1, rfl⟩
    rw [append_nil]
    exact Keeps.refl _

/-- **`spill`** moves what is in memory to the spills. -/
theorem spill_spec (hb : 0 < subBatchSize) (hL : 0 < cfg.limitNum) {rm : List (Rec V)}
    (hm : Holds cfg.prune.isAllPruned s.inMemBlocks rm) (hne : s.inMemBlocks ≠ [])
    (hs : Holds cfg.prune.isAllPruned (s.spills.map LevelSpill.block) rs) :
    ∃ spills rs', s.spill subBatchSize = .ok ⟨[], spills⟩ ∧ spills ≠ [] ∧
      Holds cfg.prune.isAllPruned (spills.map LevelSpill.block) rs' ∧ Keeps Prod.fst cfg.limitNum (rm ++ rs) rs' := by
  have hmerge : ∀ {bs : List (SpillSortedBlock cfg.io)} {shares : List (List (Rec V))},
      Forall₂ (HoldsOf cfg) bs shares → bs ≠ [] →
      ∃ b, mergeBlocks cfg.params cfg.io subBatchSize bs = .ok b ∧ HoldsOf cfg b shares.flatten := by
    intro _ shares h hne
    obtain ⟨_, h1, h2⟩ := HoldsOf.all h
    obtain ⟨b, rs', h3, h4, h5, -⟩ := mergeBlocks_spec (p := cfg.params) cfg.io hb hL h1 hne
    exact ⟨b, h3, rs', h4, h2.trans h5⟩
  obtain ⟨b, rb, h1, h2, h3, -⟩ := mergeBlocks_spec (p := cfg.params) cfg.io hb hL hm hne
  obtain ⟨shares, h4, rfl⟩ := HoldsOf.of_holds hs
  obtain ⟨spills, _, g1, -, g2, g3⟩ := spill_inv hmerge h1 ⟨rb, h2, h3⟩ h4
  obtain ⟨rs', g4, g5⟩ := HoldsOf.all g2
  have hkeeps : Keeps Prod.fst cfg.limitNum (rm ++ shares.flatten) rs' := (Keeps.of_perm g3.symm).trans g5
  refine ⟨spills, rs', g1, ?_, g4, hkeeps⟩
  rintro rfl
  cases g4
  exact hkeeps.ne_nil hL (by simp [hm.ne_nil hne]) rfl

/-! ### Sequences of calls -/

/-- Every `spill` finds a block in memory: since the `spill` before it, or since the start, a batch with a row was
inserted.  `inMem` says that there is such a block already. -/
def spillsReady : Bool → List (Op V n) → Bool
  | _, [] => true
  | inMem, .insertBatch batch :: ops => spillsReady (inMem || !batch.isEmpty) ops
  | inMem, .spill _ :: ops => inMem && spillsReady false ops

/-- The blocks of the sorter keep the smallest keys of the records `rs`, up to the limit. -/
def SorterRep (s : ExternalSorter cfg) (rs : List (Rec V)) : Prop :=
  ∃ rm rsp, Holds cfg.prune.isAllPruned s.inMemBlocks rm ∧
    Holds cfg.prune.isAllPruned (s.spills.map LevelSpill.block) rsp ∧ Keeps Prod.fst cfg.limitNum rs (rm ++ rsp)

/-- **Every sequence of calls** keeps the smallest keys of what it inserts. -/
theorem steps_spec (hkeys : cfg.prune.keyExprs ≠ []) (hL : 0 < cfg.limitNum) (ops : List (Op V n)) :
    ∀ {s : ExternalSorter cfg} {rs : List (Rec V)}, SorterRep s rs →
      spillsReady (!s.inMemBlocks.isEmpty) ops = true → (∀ op ∈ ops, op.rows.length < 2 ^ 32) →
    ∃ s', s.steps ops = .ok s' ∧ SorterRep s' (rs ++ (ops.flatMap Op.rows).map (recOf cfg)) := by
  induction ops with
  | nil => exact fun h _ _ => ⟨_, rfl, by simpa using h⟩
  | cons op ops ih =>
    intro s rs h hready hsmall
    have hsmall' : ∀ op ∈ ops, op.rows.length < 2 ^ 32 := fun o ho => hsmall o (mem_cons_of_mem _ ho)
    obtain ⟨rm, rsp, hm, hsp, hk⟩ := h
    cases op with
    | insertBatch batch =>
      by_cases hne : batch = []
      · subst hne
        obtain ⟨s', h1, h2⟩ := ih ⟨rm, rsp, hm, hsp, hk⟩ (by simpa [spillsReady] using hready) hsmall'
        exact ⟨s', by simpa [steps, step, insertBatch] using h1, by simpa [Op.rows] using h2⟩
      · have hnum : numbered batch = batch := numbered_of_lt (hsmall _ mem_cons_self)
        obtain ⟨b, rb, h1, h2, h3⟩ := insertBatch_spec hkeys hL s (show numbered batch ≠ [] by rw [hnum]; exact hne)
        rw [hnum] at h3
        have hrep : SorterRep { s with inMemBlocks := s.inMemBlocks ++ [b] } (rs ++ batch.map (recOf cfg)) := by
          refine ⟨rm ++ rb, rsp, hm.append h2, hsp, (hk.append h3).trans (Keeps.of_perm ?_)⟩
          rw [append_assoc, append_assoc]
          exact perm_append_comm.append_left rm
        have hready' : spillsReady (!(s.inMemBlocks ++ [b]).isEmpty) ops = true := by
          rw [spillsReady, isEmpty_eq_false_iff.2 hne, Bool.not_false, Bool.or_true] at hready
          rwa [isEmpty_eq_false_iff.2 (by simp)]
        obtain ⟨s', g1, g2⟩ := ih hrep hready' hsmall'
        refine ⟨s', by rw [steps, step, h1]; exact g1, ?_⟩
        rw [flatMap_cons, map_append, ← append_assoc]
        exact g2
    | spill subBatchSize =>
      simp only [spillsReady, Bool.and_eq_true, Bool.not_eq_true', isEmpty_eq_false_iff] at hready
      obtain ⟨spills, rs', h1, -, h2, h3⟩ := spill_spec subBatchSize.pos hL hm hready.1 hsp
      obtain ⟨s', g1, g2⟩ := ih (s := ⟨[], spills⟩) ⟨[], rs', .nil, h2, hk.trans h3⟩ hready.2 hsmall'
      exact ⟨s', by rw [steps, step, h1]; exact g1, by simpa [Op.rows] using g2⟩

/-! ### `output` -/

def sentOf (cfg : SorterConfig V n) (rows : List (Vector V n)) : Sent V :=
  ⟨rows.map cfg.prune.projectRow, if cfg.withKeyRows then some (rows.map cfg.prune.keyOf) else none⟩

lemma flatMap_batch_sentOf (rowss : List (List (Vector V n))) :
    (rowss.map (sentOf cfg)).flatMap Sent.batch = rowss.flatten.map cfg.prune.projectRow := by
  rw [flatMap_map, map_flatten]
  rfl

lemma sendOutputBatch_spec (hrestores : cfg.prune.Restores) (rows : List (Vector V n)) :
    sendOutputBatch cfg (collectKeys InMemRowsKeyCollector (rows.map (recOf cfg))) ((rows.map (recOf cfg)).map Prod.snd) =
      some (sentOf cfg rows) := by
  have hkeys : collectKeys InMemRowsKeyCollector (rows.map (recOf cfg)) =
      InMemRowsKeyCollector.ofKeys (rows.map cfg.prune.keyOf) := by
    unfold collectKeys
    rw [map_map]
    rfl
  have hinto := InMemRowsKeyCollector.intoRows_ofKeys (rows.map cfg.prune.keyOf)
  rw [length_map] at hinto
  have hrestore : cfg.prune.restoreFromExistedKeyRows (rows.map cfg.prune.pruneRow) (rows.map cfg.prune.keyOf) =
      some (rows.map cfg.prune.projectRow) := by
    unfold PruneSortKeysFromBatch.restoreFromExistedKeyRows
    rw [zip_map', collect_eq_some_iff, forall₂_map_left_iff, forall₂_map_right_iff, forall₂_same]
    exact fun row _ => hrestores row
  have hmap : (rows.map (recOf cfg)).map Prod.snd = rows.map cfg.prune.pruneRow := by
    rw [map_map]
    rfl
  unfold sendOutputBatch
  rw [hkeys, hmap, length_map, hinto, Option.bind_some, hrestore]
  rfl

lemma map_fst_recOf (rows : List (Vector V n)) : (rows.map (recOf cfg)).map Prod.fst = rows.map cfg.prune.keyOf := by
  rw [map_map]
  rfl

variable {rows : List (Vector V n)}

lemma exists_rows_chunks {outs : List (List (Rec V))} (h : outs.flatten = rows.map (recOf cfg)) :
    ∃ rowss : List (List (Vector V n)), rowss.flatten = rows ∧ outs = rowss.map (·.map (recOf cfg)) := by
  induction outs generalizing rows with
  | nil => exact ⟨[], by simpa using h.symm, rfl⟩
  | cons out outs ih =>
    obtain ⟨r₁, _, rfl, rfl, h2⟩ := append_eq_map_iff.1 h
    obtain ⟨rowss, rfl, rfl⟩ := ih h2.symm
    exact ⟨r₁ :: rowss, rfl, rfl⟩

lemma exists_rows_of_subperm (h : rs.Subperm (rows.map (recOf cfg))) :
    ∃ rows' : List (Vector V n), rows'.Subperm rows ∧ rs = rows'.map (recOf cfg) := by
  obtain ⟨l, h1, h2⟩ := h
  obtain ⟨rows₁, h3, rfl⟩ := sublist_map_iff.1 h2
  have hrel : Forall₂ (fun r row => r = recOf cfg row) (rows₁.map (recOf cfg)) rows₁ := by
    rw [forall₂_map_left_iff, forall₂_same]
    exact fun _ _ => rfl
  obtain ⟨rows', _, h5⟩ := perm_comp_forall₂ h1.symm hrel
  refine ⟨rows', h5.subperm.trans h3.subperm, ?_⟩
  rwa [← map_id rs, ← forall₂_eq_eq_eq, forall₂_map_left_iff, forall₂_map_right_iff]

/-- The batches a sequence of records is sent as; a record that cannot be restored panics. -/
def sendAll (cfg : SorterConfig V n) (outs : List (List (Rec V))) : Except Fault (List (Sent V)) :=
  match collect (fun out => sendOutputBatch cfg (collectKeys InMemRowsKeyCollector out) (out.map Prod.snd)) outs with
  | none => .error .panic
  | some sent => .ok sent

variable {outputBatchSize : ℕ}

/-- **Merging and skipping**: what is sent are the records of the merged order from the offset to the limit. -/
theorem outputBlocks_merged [SortedBlock B V] [LawfulSortedBlock B V] (hb : 0 < outputBatchSize) {bs : List B}
    (h : Holds cfg.prune.isAllPruned bs rs) (hne : bs ≠ []) :
    ∃ (merged : List (Rec V)) (outs : List (List (Rec V))), merged.Perm rs ∧ (merged.Pairwise fun a b => a.1 ≤ b.1) ∧
      outs.flatten = (merged.take cfg.limitNum).drop cfg.skip ∧ outputBlocks cfg outputBatchSize bs = sendAll cfg outs := by
  obtain ⟨m, qs, h1, h2, h3, h4⟩ := Holds.tryNew (p := cfg.params) h hne
  -- the records skipped
  obtain ⟨ids, out, qs', m', g1, g2, g3, g4, _⟩ := skipRows_spec InMemRowsKeyCollector hb (cfg.skip + 1) cfg.skip h2
    (Nat.lt_succ_self _)
  rw [SorterConfig.params_limit] at g3
  have hskip : (if 0 < cfg.skip then m.skipRows InMemRowsKeyCollector cfg.params outputBatchSize (cfg.skip + 1) cfg.skip
      else (.ok (), m)) = (.ok (), m') := by
    split
    · exact g1
    · rename_i hzero
      rwa [Merger.skipRows, if_neg hzero] at g1
  -- the records sent
  obtain ⟨_, outs, qs'', e1, e2, e3, -⟩ := drain_spec InMemRowsKeyCollector hb (cfg.limitNum + 1) g4
    (by rw [SorterConfig.params_limit]; omega)
  rw [SorterConfig.params_limit] at e3
  have hall := g2.append e2
  have htotal := g2.pops.perm.length_eq
  rw [length_append] at htotal
  -- the merged order: what was popped, and behind it what is left, sorted
  refine ⟨(out ++ outs.flatten) ++ qs''.flatten.mergeSort (fun a b => decide (a.1 ≤ b.1)), outs, ?_, ?_, ?_, ?_⟩
  · rw [← h3]
    exact ((mergeSort_perm _ _).append_left _).trans hall.pops.perm
  · refine pairwise_append.2 ⟨hall.sorted, pairwise_mergeSort' _ _, fun a ha b hb => ?_⟩
    exact hall.le_rest a ha b ((mergeSort_perm _ _).subset hb)
  · have hlen : (out ++ outs.flatten).length = min cfg.limitNum qs.flatten.length := by
      rw [length_append]
      omega
    have hrest : (out ++ outs.flatten).length + qs''.flatten.length = qs.flatten.length := by
      rw [← length_append, hall.pops.perm.length_eq]
    have htake : ((out ++ outs.flatten) ++ qs''.flatten.mergeSort (fun a b => decide (a.1 ≤ b.1))).take cfg.limitNum =
        out ++ outs.flatten := by
      rcases le_total cfg.limitNum qs.flatten.length with hle | hle
      · exact take_left' (by omega)
      · have hnil : qs''.flatten = [] := eq_nil_of_length_eq_zero (by omega)
        rw [hnil, mergeSort_nil, append_nil, take_of_length_le (by omega)]
    rw [htake]
    rcases le_total cfg.skip (min cfg.limitNum qs.flatten.length) with hle | hle
    · rw [drop_left' (by omega)]
    · -- everything was skipped
      have hnil : outs.flatten = [] := eq_nil_of_length_eq_zero (by omega)
      rw [hnil, append_nil, drop_eq_nil_of_le (by omega)]
  · unfold outputBlocks
    rw [h1]
    simp only [hskip, e1, collect_map]
    rfl

/-- **Merging, skipping and sending.** -/
theorem outputBlocks_spec [SortedBlock B V] [LawfulSortedBlock B V] (hrestores : cfg.prune.Restores)
    (hb : 0 < outputBatchSize) {bs : List B} (h : Holds cfg.prune.isAllPruned bs rs) (hne : bs ≠ [])
    (hk : Keeps Prod.fst cfg.limitNum (rows.map (recOf cfg)) rs) :
    ∃ rowss : List (List (Vector V n)), outputBlocks cfg outputBatchSize bs = .ok (rowss.map (sentOf cfg)) ∧
      rowss.flatten.Subperm rows ∧
      rowss.flatten.map cfg.prune.keyOf = (smallest cfg.limitNum (rows.map cfg.prune.keyOf)).drop cfg.skip := by
  obtain ⟨_, outs, h1, h2, h3, h4⟩ := outputBlocks_merged hb h hne
  have hsub : outs.flatten.Subperm rs := by
    rw [h3]
    exact ((drop_sublist _ _).trans (take_sublist _ _)).subperm.trans h1.subperm
  obtain ⟨_, r1, r2⟩ := exists_rows_of_subperm (hsub.trans hk.sub)
  obtain ⟨rowss, rfl, rfl⟩ := exists_rows_chunks r2
  refine ⟨rowss, ?_, r1, ?_⟩
  · have hsend : collect (fun out => sendOutputBatch cfg (collectKeys InMemRowsKeyCollector out) (out.map Prod.snd))
        (rowss.map (·.map (recOf cfg))) = some (rowss.map (sentOf cfg)) := by
      rw [collect_eq_some_iff, forall₂_map_left_iff, forall₂_map_right_iff, forall₂_same]
      exact fun rows _ => sendOutputBatch_spec hrestores rows
    rw [h4, sendAll, hsend]
  · rw [← map_fst_recOf, ← r2, h3, map_drop, map_take, ← smallest_of_pairwise _ (pairwise_map.2 h2),
      smallest_eq_of_perm _ (h1.map _),
      hk.keys, map_fst_recOf]

/-- **`output`** sends the smallest keys of what the sorter keeps, without the records skipped. -/
theorem output_spec (hrestores : cfg.prune.Restores) (hL : 0 < cfg.limitNum) (hb : 0 < subBatchSize)
    (hb' : 0 < outputBatchSize) (h : SorterRep s (rows.map (recOf cfg))) :
    ∃ rowss : List (List (Vector V n)), s.output subBatchSize outputBatchSize = .ok (rowss.map (sentOf cfg)) ∧
      rowss.flatten.Subperm rows ∧
      rowss.flatten.map cfg.prune.keyOf = (smallest cfg.limitNum (rows.map cfg.prune.keyOf)).drop cfg.skip := by
  obtain ⟨_, _, hm, hsp, hk⟩ := h
  unfold output
  by_cases hs : s.spills = []
  · simp only [hs, isEmpty_nil, Bool.not_true, Bool.false_and, Bool.false_eq_true, if_false, if_true]
    rw [hs] at hsp
    cases hsp
    rw [append_nil] at hk
    by_cases hi : s.inMemBlocks = []
    · rw [hi] at hm ⊢
      cases hm
      refine ⟨[], rfl, by simp, ?_⟩
      rw [← map_fst_recOf rows, ← hk.keys]
      simp [smallest]
    · rw [if_pos (by simpa using hi)]
      exact outputBlocks_spec hrestores hb' hm hi hk
  · by_cases hi : s.inMemBlocks = []
    · rw [hi] at hm
      cases hm
      simp only [hi, isEmpty_nil, Bool.not_true, Bool.and_false, Bool.false_eq_true, if_false, List.isEmpty_iff, hs]
      exact outputBlocks_spec hrestores hb' hsp (by simpa using hs) hk
    · -- the rest is spilled first
      obtain ⟨_, _, h1, h2, h3, h4⟩ := spill_spec hb hL hm hi hsp
      rw [if_pos (by simp [hs, hi]), h1]
      simp only [List.isEmpty_iff, h2]
      exact outputBlocks_spec hrestores hb' h3 (by simpa using h2) (hk.trans h4)

/-! ### Whole runs -/

lemma limitNum_pos (hL : ∀ L, cfg.limit = some L → 1 ≤ L) : 0 < cfg.limitNum := by
  unfold SorterConfig.limitNum
  cases hl : cfg.limit with
  | none => simp [usizeMax]
  | some L => exact hL L hl

section Runs

variable (cfg : SorterConfig V n)

lemma run_spec (hkeys : cfg.prune.keyExprs ≠ []) (hrestores : cfg.prune.Restores) (hL : ∀ L, cfg.limit = some L → 1 ≤ L)
    (ops : List (Op V n)) (hsmall : ∀ op ∈ ops, op.rows.length < 2 ^ 32) (hready : spillsReady false ops = true)
    (subBatchSize outputBatchSize : ℕ+) :
    ∃ rowss : List (List (Vector V n)), run cfg ops subBatchSize outputBatchSize = .ok (rowss.map (sentOf cfg)) ∧
      rowss.flatten.map cfg.prune.keyOf =
        ((ascending ((ops.flatMap Op.rows).map cfg.prune.keyOf)).take cfg.limitNum).drop cfg.skip ∧
      rowss.flatten.Subperm (ops.flatMap Op.rows) := by
  have hinit : SorterRep ({} : ExternalSorter cfg) [] := ⟨[], [], .nil, .nil, Keeps.refl _⟩
  obtain ⟨s, h1, h2⟩ := steps_spec hkeys (limitNum_pos hL) ops hinit hready hsmall
  obtain ⟨rowss, g1, g2, g3⟩ := output_spec hrestores (limitNum_pos hL) subBatchSize.pos outputBatchSize.pos h2
  refine ⟨rowss, ?_, g3, g2⟩
  unfold run
  rw [h1]
  exact g1

/-- **The external sorter sorts.**  With at least one sort expression, for every sequence of `insert_batch` and `spill`
calls in which each `spill` finds something to spill and no batch has `2 ^ 32` rows, the rows sent have the keys at the
positions from the offset to the limit of the ascending order of all keys inserted, and they are among the rows inserted,
none more often than it was. -/
theorem run_correct (hkeys : cfg.prune.keyExprs ≠ []) (hid : cfg.prune.IsIdentity) (hL : ∀ L, cfg.limit = some L → 1 ≤ L)
    (ops : List (Op V n)) (hsmall : ∀ op ∈ ops, op.rows.length < 2 ^ 32) (hready : spillsReady false ops = true)
    (subBatchSize outputBatchSize : ℕ+) :
    ∃ (sent : List (Sent V)) (rows : List (Vector V n)), run cfg ops subBatchSize outputBatchSize = .ok sent ∧
      sent.flatMap Sent.batch = rows.map Vector.toList ∧
      rows.map cfg.prune.keyOf =
        ((ascending ((ops.flatMap Op.rows).map cfg.prune.keyOf)).take cfg.limitNum).drop cfg.skip ∧
      rows.Subperm (ops.flatMap Op.rows) ∧
      (cfg.withKeyRows = true → sent.flatMap (fun s => s.keyRows.getD []) = rows.map cfg.prune.keyOf) := by
  obtain ⟨rowss, hrun, hsent, hsub⟩ := run_spec cfg hkeys (cfg.prune.restores_of_identity hid) hL ops hsmall hready
    subBatchSize outputBatchSize
  refine ⟨rowss.map (sentOf cfg), rowss.flatten, hrun, ?_, hsent, hsub, fun hk => ?_⟩
  · rw [flatMap_batch_sentOf]
    exact map_congr_left fun row _ => cfg.prune.projectRow_of_identity hid row
  · rw [flatMap_map, map_flatten, flatMap_def]
    congr 1
    refine map_congr_left fun rows _ => ?_
    simp [sentOf, hk]

/-! ### A sorter of bytes -/

/-- The stable sort is one of the sorts `sorted_unstable_by_key` may be. -/
def stableSort : SortUnstable where
  sortedUnstableByKey key xs := xs.mergeSort fun a b => decide (key a ≤ key b)
  perm _ _ := mergeSort_perm _ _
  sorted _ xs := pairwise_mergeSort' _ xs

def byteConverter (k : ℕ) : RowConverter UInt8 k := ⟨id, id, fun keys => keys.flatten.length, fun _ _ => rfl⟩

def readRows : ℕ → Bytes → Read (List Bytes)
  | 0, input => .ok ([], input)
  | numRows + 1, input =>
    match readLen input with
    | .error e => .error e
    | .ok (len, input) =>
      match readExact len input with
      | .error e => .error e
      | .ok (row, input) =>
        match readRows numRows input with
        | .error e => .error e
        | .ok (rows, input) => .ok (row :: rows, input)

lemma readRows_append (rows : List Bytes) (rest : Bytes) :
    readRows rows.length (rows.flatMap (fun row => writeLen row.length ++ row) ++ rest) = .ok (rows, rest) := by
  induction rows with
  | nil => rfl
  | cons row rows ih =>
    rw [length_cons, readRows, flatMap_cons, append_assoc, append_assoc, readLen_writeLen]
    simp only [readExact_append, ih]

/-- Batches of bytes behind their lengths, uncompressed. -/
def byteIo : SpillIo UInt8 where
  writeOneBatch batch := writeLen batch.length ++ batch.flatMap fun row => writeLen row.length ++ row
  readOneBatch input :=
    if input = [] then (.ok none, [])
    else
      match readLen input with
      | .error e => (.error e, [])
      | .ok (numRows, input) =>
        match readRows numRows input with
        | .error e => (.error e, [])
        | .ok (rows, input) => (.ok (some rows), input)
  compress := id
  decompress := id
  read_write batch rest := by
    rw [if_neg (by simp [writeLen_ne_nil]), append_assoc, readLen_writeLen]
    simp only [readRows_append]
  read_nil := rfl
  decompress_compress _ := rfl

/-- A sorter of rows of two bytes by the first, without a limit. -/
def byteSorter : SorterConfig UInt8 2 where
  prune := ⟨finRange 2, [.column ⟨0, Nat.two_pos⟩], byteConverter 1⟩
  skip := 0
  limit := none
  withKeyRows := false
  io := byteIo
  sort := stableSort

/-- `run_correct` on a run that inserts, spills and inserts again. -/
theorem run_correct_byteSorter :
    ∃ (sent : List (Sent UInt8)) (rows : List (Vector UInt8 2)),
      run byteSorter [.insertBatch [#v[3, 0], #v[1, 1]], .spill 1, .insertBatch [#v[2, 2]]] 1 2 = .ok sent ∧
      sent.flatMap Sent.batch = rows.map Vector.toList ∧
      rows.map byteSorter.prune.keyOf = ((ascending [[3], [1], [2]]).take byteSorter.limitNum).drop 0 ∧
      rows.Subperm [#v[3, 0], #v[1, 1], #v[2, 2]] ∧
      (byteSorter.withKeyRows = true → sent.flatMap (fun s => s.keyRows.getD []) = rows.map byteSorter.prune.keyOf) :=
  run_correct byteSorter (cons_ne_nil _ _) rfl (fun _ h => by cases h)
    [.insertBatch [#v[3, 0], #v[1, 1]], .spill 1, .insertBatch [#v[2, 2]]]
    (by simp [Op.rows]) rfl 1 2

/-! ### Three runs outside of this -/

lemma run_spill_empty (ops : List (Op V n)) (size subBatchSize outputBatchSize : ℕ+) :
    run cfg (.spill size :: ops) subBatchSize outputBatchSize = .error .panic := rfl

lemma run_oversized (hkeys : cfg.prune.keyExprs ≠ []) (hid : cfg.prune.IsIdentity) (hL : 0 < cfg.limitNum)
    (hne : numbered batch ≠ []) (subBatchSize outputBatchSize : ℕ+) : ∃ rowss : List (List (Vector V n)),
      run cfg [.insertBatch batch] subBatchSize outputBatchSize = .ok (rowss.map (sentOf cfg)) ∧
      rowss.flatten.map cfg.prune.keyOf = (smallest cfg.limitNum ((numbered batch).map cfg.prune.keyOf)).drop cfg.skip := by
  obtain ⟨b, rs, h1, h2, h3⟩ := insertBatch_spec hkeys hL ({} : ExternalSorter cfg) hne
  have hrep : SorterRep (⟨[b], []⟩ : ExternalSorter cfg) ((numbered batch).map (recOf cfg)) :=
    ⟨rs, [], h2, .nil, by rw [append_nil]; exact h3⟩
  obtain ⟨rowss, g1, -, g3⟩ := output_spec (cfg.prune.restores_of_identity hid) hL subBatchSize.pos outputBatchSize.pos hrep
  refine ⟨rowss, ?_, g3⟩
  unfold run
  rw [steps, step, h1]
  exact g1

end Runs

/-- The same sorter without a sort expression. -/
def keylessSorter : SorterConfig UInt8 2 := { byteSorter with prune := ⟨finRange 2, [], byteConverter 0⟩ }

/-- A `spill` before the first batch panics, a batch without sort expressions makes `insert_batch` divide by zero, and of
a batch of `2 ^ 32 + 1` rows one is sent. -/
theorem run_counterexample :
    run byteSorter [.spill 1] 1 1 = .error .panic ∧
    run keylessSorter [.insertBatch [#v[3, 0]]] 1 1 = .error .panic ∧
    ∃ sent, run byteSorter [.insertBatch (replicate (2 ^ 32 + 1) #v[3, 0])] 1 1 = .ok sent ∧
      (sent.flatMap Sent.batch).length = 1 := by
  refine ⟨run_spill_empty byteSorter [] 1 1 1, rfl, ?_⟩
  have hmod : (2 ^ 32 + 1) % 2 ^ 32 = 1 := by norm_num
  have hlen : (numbered (replicate (2 ^ 32 + 1) (#v[3, 0] : Vector UInt8 2))).length = 1 := by
    rw [numbered, length_replicate, hmod]
    norm_num
  obtain ⟨_, h1, h2⟩ := run_oversized byteSorter (cons_ne_nil _ _) rfl
    (by norm_num [SorterConfig.limitNum, byteSorter, usizeMax])
    (ne_nil_of_length_pos (by rw [hlen]; norm_num)) 1 1
  refine ⟨_, h1, ?_⟩
  have hrows := congrArg length h2
  rw [length_map, length_drop, smallest, length_take, length_ascending, length_map, hlen] at hrows
  rw [flatMap_batch_sentOf, length_map, hrows]
  norm_num [SorterConfig.limitNum, byteSorter, usizeMax]

end ExternalSorter

end Auron.Sort
