import Auron.Lib.Levels
import Auron.Sort.Correct

/-!
# The levels of the spills

`ExternalSorter::spill` keeps spills by level: thirty-two spills of one level are merged into one of the next.  The
levels are rebuilt in every call: the spills are sorted by level, runs of equal level are collected, and the *position*
of a run is then stored as its level, so a label moves down when the level below it is empty.

* Labels: `levelLoop_weight` and `levelLoop_count` follow the labels through the loop.  A merge replaces thirty-two
  spills of weight `32 ^ l` by one of weight `32 ^ (l + 1)`, and relabelling never moves a label up, so the weight of all
  spills grows by at most one per call.
* Records: `Stored` says what a spill keeps of the records that went into it, everything the limit allows; a merge of
  stored blocks is stored (`mergeBlocks_stored`), for every limit of at least one.
* `spillAll_spec` is the whole: any number of calls on a sorter without spills.
-/

namespace Auron.Sort

open Auron.Io Auron.Lib SortedBlockCursor List

variable {V : Type} {n : ℕ}

/-! ### The labels -/

def labels {io : SpillIo V} (spills : List (LevelSpill io)) : List ℕ := spills.map LevelSpill.level

namespace ExternalSorter

variable {p : MergeParams} {io : SpillIo V} {subBatchSize : ℕ}

lemma labels_append_map (spills : List (LevelSpill io)) (blocks : List (SpillSortedBlock io)) (level : ℕ) :
    labels (spills ++ blocks.map (⟨·, level⟩)) = labels spills ++ replicate blocks.length level := by
  simp [labels, Function.comp_def]

/-- **No round of the loop adds weight**: at least thirty-two blocks of a level become one of the next. -/
theorem levelLoop_weight (levels : List (List (SpillSortedBlock io))) : ∀ {level : ℕ} {pushed : List (SpillSortedBlock io)}
    {spills spills' : List (LevelSpill io)}, levelLoop p subBatchSize level pushed levels spills = .ok spills' →
    weight numMaxMergingBatches (labels spills') ≤ weight numMaxMergingBatches (labels spills) +
      pushed.length * numMaxMergingBatches ^ level + posWeight numMaxMergingBatches level levels := by
  induction levels with
  | nil =>
    intro level pushed spills spills' h
    cases pushed with
    | nil =>
      rw [levelLoop, Except.ok.injEq] at h
      rw [h]
      omega
    | cons b pushed => cases h
  | cons blocks levels ih =>
    intro level pushed _ _ h
    rw [levelLoop] at h
    have hlen : (blocks ++ pushed).length * numMaxMergingBatches ^ level =
        blocks.length * numMaxMergingBatches ^ level + pushed.length * numMaxMergingBatches ^ level := by
      rw [length_append, add_mul]
    rw [posWeight]
    split at h
    · rename_i hfull
      cases hm : mergeBlocks p io subBatchSize (blocks ++ pushed) with
      | error e => simp [hm] at h
      | ok merged =>
        rw [hm] at h
        have hrest := ih h
        have hcarry : numMaxMergingBatches ^ (level + 1) ≤ (blocks ++ pushed).length * numMaxMergingBatches ^ level := by
          rw [pow_succ, mul_comm]
          exact Nat.mul_le_mul_right _ hfull
        rw [length_singleton] at hrest
        omega
    · have hrest := ih h
      rw [labels_append_map, weight_append, weight_replicate, length_nil] at hrest
      omega

/-- **A level keeps fewer than thirty-two spills**: the loop comes to each label once. -/
theorem levelLoop_count (levels : List (List (SpillSortedBlock io))) : ∀ {level : ℕ} {pushed : List (SpillSortedBlock io)}
    {spills spills' : List (LevelSpill io)}, levelLoop p subBatchSize level pushed levels spills = .ok spills' →
    (∀ l ∈ labels spills, l < level) → (∀ l, (labels spills).count l < numMaxMergingBatches) →
    ∀ l, (labels spills').count l < numMaxMergingBatches := by
  induction levels with
  | nil =>
    intro level pushed spills spills' h _ hcount
    cases pushed with
    | nil =>
      rw [levelLoop, Except.ok.injEq] at h
      exact h ▸ hcount
    | cons b pushed => cases h
  | cons blocks levels ih =>
    intro level pushed spills _ h hlt hcount
    rw [levelLoop] at h
    split at h
    · cases hm : mergeBlocks p io subBatchSize (blocks ++ pushed) with
      | error e => simp [hm] at h
      | ok merged =>
        rw [hm] at h
        exact ih h (fun l hl => (hlt l hl).trans (Nat.lt_succ_self level)) hcount
    · rename_i hroom
      refine ih h (fun l hl => ?_) (fun l => ?_)
      · rw [labels_append_map, mem_append, mem_replicate] at hl
        rcases hl with hl | ⟨-, rfl⟩
        · exact (hlt l hl).trans (Nat.lt_succ_self level)
        · exact Nat.lt_succ_self l
      · rw [labels_append_map, count_append, count_replicate]
        by_cases hl : level = l
        · have hnot : (labels spills).count l = 0 :=
            count_eq_zero.2 fun hmem => absurd (hlt l hmem) (by omega)
          simp only [hl, beq_self_eq_true, if_true]
          omega
        · simpa [hl] using hcount l

variable {cfg : SorterConfig V n}

lemma posWeight_chunkByLevel (cfg : SorterConfig V n) (spills : List (LevelSpill cfg.io)) :
    posWeight numMaxMergingBatches 0 ((chunkByLevel (cfg.sort.sortedUnstableByKey LevelSpill.level spills)).map
      (·.map LevelSpill.block) ++ [[]]) ≤ weight numMaxMergingBatches (labels spills) := by
  rw [posWeight_append_nil, posWeight_map]
  refine (posWeight_le (by decide) (ascending_splitBy (cfg.sort.sorted _ _)) (le_refl 0)).trans ?_
  rw [flatten_splitBy]
  exact le_of_eq (((cfg.sort.perm _ _).map _).map _).sum_eq

end ExternalSorter

/-! ### The records of a spill -/

/-- A block delivers the records `rs`, in ascending order of the keys and in batches that are not empty. -/
def Delivers {B : Type} [SortedBlock B V] [LawfulSortedBlock B V] (ap : Bool) (b : B) (rs : List (Rec V)) : Prop :=
  ∃ chunks, LawfulSortedBlock.Rep b none [] chunks ∧ (∀ c ∈ chunks, c ≠ []) ∧ chunks.flatten = rs ∧
    (rs.Pairwise fun a b => a.1 ≤ b.1) ∧ (ap = true → ∀ r ∈ rs, r.2 = [])

/-- What a spill keeps of the records that went into it: as many as the limit allows, those of smallest keys. -/
structure Stored (p : MergeParams) {io : SpillIo V} (b : SpillSortedBlock io) (share rs : List (Rec V)) : Prop where
  delivers : Delivers p.isAllPruned b rs
  cut : Cut Prod.fst p.limit share rs
  ne_nil : share ≠ []

section Records

variable {p : MergeParams} {io : SpillIo V} {subBatchSize : ℕ}

variable {rs : List (Rec V)}

lemma Stored.of_holds {b : SpillSortedBlock io} {share : List (Rec V)} (h : Holds p.isAllPruned [b] rs)
    (hcut : Cut Prod.fst p.limit share rs) : Stored p b share rs := by
  have hne : rs ≠ [] := h.ne_nil (by simp)
  refine ⟨?_, hcut, ?_⟩
  · cases h with
    | @cons _ chunks _ _ rep sorted pruned rest =>
      cases rest
      rw [append_nil]
      exact ⟨chunks, rep.rep, rep.nonempty, rfl, sorted, pruned⟩
  · rintro rfl
    exact hne (eq_nil_of_length_eq_zero (by simpa using hcut.length))

variable {bs : List (SpillSortedBlock io)} {shares : List (List (Rec V))}

lemma Stored.holds (hL : 0 < p.limit) (h : Forall₂ (fun b share => ∃ rs, Stored p b share rs) bs shares) :
    ∃ rs, Holds p.isAllPruned bs rs ∧ Keeps Prod.fst p.limit shares.flatten rs ∧
      min p.limit rs.length = min p.limit shares.flatten.length := by
  induction h with
  | nil => exact ⟨[], .nil, Keeps.refl _, rfl⟩
  | @cons b share bs shares hb _ ih =>
    obtain ⟨_, ⟨chunks, h1, h2, rfl, h4, h5⟩, hcut, hne⟩ := hb
    obtain ⟨rs, h6, h7, _⟩ := ih
    have hchunks : chunks ≠ [] := by
      rintro rfl
      exact hcut.toKeeps.ne_nil hL hne rfl
    refine ⟨chunks.flatten ++ rs, .cons ⟨h1, hchunks, h2⟩ h4 h5 h6, hcut.toKeeps.append h7, ?_⟩
    have hlen := hcut.length
    rw [flatten_cons, length_append, length_append]
    omega

lemma cursorsOf_ok {B : Type} [SortedBlock B V] {P : SortedBlockCursor B V → Prop} {bs : List B}
    (h : ∀ b ∈ bs, ∀ id, ∃ c : SortedBlockCursor B V, tryFromBlock id b = .ok c ∧ P c) :
    ∀ id, ∃ cs : List (SortedBlockCursor B V), cursorsOf id bs = .ok cs ∧ ∀ c ∈ cs, P c := by
  induction bs with
  | nil => exact fun id => ⟨[], rfl, by simp⟩
  | cons b bs ih =>
    intro id
    obtain ⟨c, hc, hP⟩ := h b mem_cons_self id
    obtain ⟨cs, hcs, hPs⟩ := ih (fun b hb => h b (mem_cons_of_mem _ hb)) (id + 1)
    exact ⟨c :: cs, by simp [cursorsOf, hc, hcs], forall_mem_cons.2 ⟨hP, hPs⟩⟩

lemma tryFromBlock_ofRecs (c : List (Rec V)) (id : ℕ) :
    tryFromBlock id (InMemSortedBlock.ofRecs c) = .ok
      { id := id
        input := ⟨[InMemRowsKeyCollector.ofKeys (c.map Prod.fst)], [], 0⟩
        curBatches := [c.map Prod.snd]
        curBatchesChanged := true
        curKeyRowIdx := 1 } := by
  simp [tryFromBlock, nextKey, lastNumRows, loadNextBatch, advanceKey, SortedBlock.nextBatch, SortedBlock.nextKey,
    InMemSortedBlock.nextBatch, InMemSortedBlock.nextKey, InMemSortedBlock.ofRecs, InMemSortedBlockBuilder.finish,
    InMemSortedBlockBuilder.addBatchAndKeys, usizeMax]

/-! ### Merging stored blocks -/

/-- **A merge of spills is stored**, and stands for what its inputs stood for. -/
theorem mergeBlocks_stored (hL : 0 < p.limit) (hb : 0 < subBatchSize)
    (h : Forall₂ (fun b share => ∃ rs, Stored p b share rs) bs shares) (hne : bs ≠ []) :
    ∃ b, mergeBlocks p io subBatchSize bs = .ok b ∧ ∃ rs, Stored p b shares.flatten rs := by
  obtain ⟨_, h1, h2, h3⟩ := Stored.holds hL h
  obtain ⟨b, rs', g1, g2, g3, g4⟩ := mergeBlocks_spec io hb hL h1 hne
  exact ⟨b, g1, rs', .of_holds g2 ⟨h2.trans g3, by rw [g4, h3]⟩⟩

lemma holds_ofRecs {ap : Bool} {cs : List (List (Rec V))} (hne : ∀ c ∈ cs, c ≠ [])
    (h : ∀ c ∈ cs, ExternalSorter.Sorted ap c) : Holds ap (cs.map InMemSortedBlock.ofRecs) cs.flatten := by
  induction cs with
  | nil => exact .nil
  | cons c cs ih =>
    obtain ⟨h1, h2, h3⟩ := h c mem_cons_self
    exact (Holds.inMem (hne c mem_cons_self) h2 h1 h3).append
      (ih (fun c hc => hne c (mem_cons_of_mem _ hc)) fun c hc => h c (mem_cons_of_mem _ hc))

/-- **A merge of the blocks in memory is stored.** -/
theorem mergeBlocks_ofRecs_stored {p : MergeParams} (hL : 0 < p.limit) (io : SpillIo V) (hb : 0 < subBatchSize)
    {cs : List (List (Rec V))} (hcs : cs ≠ []) (hne : ∀ c ∈ cs, c ≠ [])
    (h : ∀ c ∈ cs, ExternalSorter.Sorted p.isAllPruned c) :
    ∃ b, mergeBlocks p io subBatchSize (cs.map InMemSortedBlock.ofRecs) = .ok b ∧ ∃ rs, Stored p b cs.flatten rs := by
  have hbs : cs.map InMemSortedBlock.ofRecs ≠ [] := by simpa using hcs
  obtain ⟨b, rs, g1, g2, g3, g4⟩ := mergeBlocks_spec io hb hL (holds_ofRecs hne h) hbs
  exact ⟨b, g1, rs, .of_holds g2 ⟨g3, g4⟩⟩

end Records

/-! ### Any number of calls -/

namespace ExternalSorter

variable {cfg : SorterConfig V n}

/-- A call of `spill`: the sorted records of the batches it finds in memory, and the batch size of its merges. -/
structure SpillCall (V : Type) where
  batches : List (List (Rec V))
  subBatchSize : ℕ+

/-- What `insert_batch` leaves in memory for a call (`insertBatch_recs`): at least one batch, and in a batch at least one
record. -/
structure SpillCall.Ready (cfg : SorterConfig V n) (call : SpillCall V) : Prop where
  ne_nil : call.batches ≠ []
  nonempty : ∀ c ∈ call.batches, c ≠ []
  sorted : ∀ c ∈ call.batches, Sorted cfg.prune.isAllPruned c

def spillAll (s : ExternalSorter cfg) : List (SpillCall V) → Except Fault (ExternalSorter cfg)
  | [] => .ok s
  | call :: calls =>
    match spill { s with inMemBlocks := call.batches.map InMemSortedBlock.ofRecs } call.subBatchSize with
    | .error e => .error e
    | .ok s => s.spillAll calls

def spilled (calls : List (SpillCall V)) : List (Rec V) := calls.flatMap fun call => call.batches.flatten

/-- The spills stand for the records `full`, each for a share of its own. -/
def SpillsStand (s : ExternalSorter cfg) (full : List (Rec V)) : Prop :=
  ∃ shares, Forall₂ (fun b share => ∃ rs, Stored cfg.params b share rs) (s.spills.map LevelSpill.block) shares ∧
    shares.flatten.Perm full

structure Levelled (s : ExternalSorter cfg) (calls : ℕ) : Prop where
  weight_le : weight numMaxMergingBatches (labels s.spills) ≤ calls
  count_lt : ∀ l, (labels s.spills).count l < numMaxMergingBatches

lemma spill_stand (hL : 0 < cfg.limitNum) {s : ExternalSorter cfg} {full : List (Rec V)}
    {k : ℕ} (hs : SpillsStand s full) (hl : Levelled s k)
    {call : SpillCall V} (hcall : call.Ready cfg) :
    ∃ s', spill { s with inMemBlocks := call.batches.map InMemSortedBlock.ofRecs } call.subBatchSize = .ok s' ∧
      SpillsStand s' (full ++ call.batches.flatten) ∧ Levelled s' (k + 1) := by
  obtain ⟨_, h1, h2⟩ := hs
  obtain ⟨b, hb, hshare⟩ := mergeBlocks_ofRecs_stored (p := cfg.params) hL cfg.io call.subBatchSize.pos hcall.ne_nil
    hcall.nonempty hcall.sorted
  obtain ⟨spills, shares', g1, g2, g3, g4⟩ :=
    spill_inv (s := { s with inMemBlocks := call.batches.map InMemSortedBlock.ofRecs })
      (mergeBlocks_stored hL call.subBatchSize.pos) hb hshare h1
  refine ⟨⟨[], spills⟩, g1, ⟨shares', g3, ?_⟩, ?_, ?_⟩
  · exact g4.trans (perm_append_comm.trans (h2.append_right _))
  · have hw := levelLoop_weight _ g2
    have hpos := posWeight_chunkByLevel cfg (s.spills ++ [⟨b, 0⟩])
    have hnew : weight numMaxMergingBatches (labels (s.spills ++ [LevelSpill.mk b 0])) =
        weight numMaxMergingBatches (labels s.spills) + 1 := by
      simp [labels, weight]
    have hk := hl.weight_le
    have hnil : weight numMaxMergingBatches (labels ([] : List (LevelSpill cfg.io))) = 0 := rfl
    rw [length_nil] at hw
    dsimp only at hw
    show weight numMaxMergingBatches (labels spills) ≤ k + 1
    omega
  · exact levelLoop_count _ g2 (by simp [labels]) (by simp [labels, numMaxMergingBatches])

lemma spillAll_stand (hL : 0 < cfg.limitNum) (calls : List (SpillCall V)) :
    ∀ {s : ExternalSorter cfg} {full : List (Rec V)} {k : ℕ}, SpillsStand s full → Levelled s k →
      (∀ call ∈ calls, call.Ready cfg) →
    ∃ s', s.spillAll calls = .ok s' ∧ SpillsStand s' (full ++ spilled calls) ∧ Levelled s' (k + calls.length) := by
  induction calls with
  | nil => exact fun hs hl _ => ⟨_, rfl, by simpa [spilled] using hs, hl⟩
  | cons call calls ih =>
    intro s _ k hs hl hready
    obtain ⟨_, h1, h2, h3⟩ := spill_stand hL hs hl (hready call mem_cons_self)
    obtain ⟨s₂, h4, h5, h6⟩ := ih h2 h3 fun c hc => hready c (mem_cons_of_mem _ hc)
    refine ⟨s₂, by simp only [spillAll, h1, h4], ?_, ?_⟩
    · simpa [spilled] using h5
    · rw [length_cons, show k + (calls.length + 1) = k + 1 + calls.length by omega]
      exact h6

def numLevels {io : SpillIo V} (spills : List (LevelSpill io)) : ℕ := (labels spills).dedup.length

lemma SpillsStand.exists_kept {s : ExternalSorter cfg} {full : List (Rec V)} (h : SpillsStand s full) :
    ∃ shares kept, Forall₂ (fun sp rs => Delivers cfg.prune.isAllPruned sp.block rs) s.spills kept ∧
      Forall₂ (Cut Prod.fst cfg.limitNum) shares kept ∧ shares.flatten.Perm full := by
  obtain ⟨shares, h, hperm⟩ := h
  rw [forall₂_map_left_iff] at h
  generalize s.spills = spills at h ⊢
  suffices hkept : ∃ kept, Forall₂ (fun sp rs => Delivers cfg.prune.isAllPruned sp.block rs) spills kept ∧
      Forall₂ (Cut Prod.fst cfg.limitNum) shares kept by
    obtain ⟨kept, h1, h2⟩ := hkept
    exact ⟨shares, kept, h1, h2, hperm⟩
  clear hperm
  induction h with
  | nil => exact ⟨[], .nil, .nil⟩
  | cons hsp _ ih =>
    obtain ⟨rs, hrs⟩ := hsp
    obtain ⟨kept, h1, h2⟩ := ih
    exact ⟨rs :: kept, .cons hrs.delivers h1, .cons hrs.cut h2⟩

lemma perm_of_cuts {L : ℕ} {shares kept : List (List (Rec V))} (h : Forall₂ (Cut Prod.fst L) shares kept)
    (hL : shares.flatten.length ≤ L) : kept.flatten.Perm shares.flatten := by
  induction h with
  | nil => exact .refl _
  | cons hcut _ ih =>
    rw [flatten_cons, length_append] at hL
    exact (hcut.perm (by omega)).append (ih (by omega))

/-- **Spill levelling.**  With a limit of at least one, no number of calls of `spill` on a sorter without spills indexes
the levels out of their range.
Every record spilled belongs to exactly one spill, and a spill delivers of its records as many as the limit allows, those
of smallest keys, hence all of them if the limit is not reached; there are at most 31 spills per level, and the number of
levels is at most logarithmic in the number of calls. -/
theorem spillAll_spec (cfg : SorterConfig V n) (hL : 0 < cfg.limitNum) (calls : List (SpillCall V))
    (hready : ∀ call ∈ calls, call.Ready cfg) :
    ∃ s, ({} : ExternalSorter cfg).spillAll calls = .ok s ∧
      (∃ shares kept, Forall₂ (fun sp rs => Delivers cfg.prune.isAllPruned sp.block rs) s.spills kept ∧
        Forall₂ (Cut Prod.fst cfg.limitNum) shares kept ∧ shares.flatten.Perm (spilled calls) ∧
        ((spilled calls).length ≤ cfg.limitNum → kept.flatten.Perm (spilled calls))) ∧
      s.spills.length ≤ 31 * numLevels s.spills ∧ numLevels s.spills ≤ Nat.log 32 calls.length + 1 := by
  have hstand : SpillsStand ({} : ExternalSorter cfg) [] := ⟨[], .nil, .nil⟩
  have hlevelled : Levelled ({} : ExternalSorter cfg) 0 := ⟨le_refl 0, by simp [labels, numMaxMergingBatches]⟩
  obtain ⟨s, h1, h2, h3⟩ := spillAll_stand hL calls hstand hlevelled hready
  rw [zero_add] at h3
  obtain ⟨shares, kept, g1, g2, g3⟩ := h2.exists_kept
  refine ⟨s, h1, ⟨shares, kept, g1, g2, g3, fun hlen => ?_⟩, ?_, ?_⟩
  · exact (perm_of_cuts g2 (g3.length_eq ▸ hlen)).trans g3
  · have hlen := length_le_mul_dedup (k := 31) fun l => Nat.le_of_lt_succ (h3.count_lt l)
    rwa [labels, length_map] at hlen
  · exact length_dedup_le fun l hl => le_log_of_weight_le (by decide) h3.weight_le hl

/-- Three calls, the second with two batches in memory. -/
theorem spillAll_spec_byteSorter :
    let call : SpillCall UInt8 := ⟨[[([1], [7]), ([2], [8])], [([1], [9])]], 1⟩
    ∃ s, ({} : ExternalSorter byteSorter).spillAll [call, call, call] = .ok s ∧
      (∃ shares kept, Forall₂ (fun sp rs => Delivers byteSorter.prune.isAllPruned sp.block rs) s.spills kept ∧
        Forall₂ (Cut Prod.fst byteSorter.limitNum) shares kept ∧
        shares.flatten.Perm (spilled [call, call, call]) ∧
        ((spilled [call, call, call]).length ≤ byteSorter.limitNum → kept.flatten.Perm (spilled [call, call, call]))) ∧
      s.spills.length ≤ 31 * numLevels s.spills ∧ numLevels s.spills ≤ Nat.log 32 3 + 1 := by
  intro call
  refine spillAll_spec byteSorter (by decide) [call, call, call] ?_
  have hcall : call.Ready byteSorter := by
    refine ⟨by simp, by simp [call], ?_⟩
    intro c hc
    have hc' : c = [([1], [7]), ([2], [8])] ∨ c = [([1], [9])] := by simpa [call] using hc
    rcases hc' with rfl | rfl
    · exact ⟨by decide, by decide, by decide⟩
    · exact ⟨by decide, by decide, by decide⟩
  intro c hc
  have hc' : c = call := by simpa using hc
  exact hc' ▸ hcall

end ExternalSorter

end Auron.Sort
