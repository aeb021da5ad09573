import Auron.Lib.Pops
import Auron.Sort.Cursor

/-!
# The k-way merge of `sort_exec.rs`

`SortedBlockCursor` walks one block with *two* positions: the key cursor (`next_key`) runs one record ahead, on the key
that takes part in the comparisons, and the row cursor (`next_row`) follows when the rows are gathered.  `Merger::next`
first pops keys from the loser tree and notes the cursor of each, and then fetches the row for each note.  The tree is
not consulted again as long as the block itself says that its next key equals the one before.

* `Merger.next` and what it calls are the code; a function on `&mut self` returns the state after it, also when it
  fails.
* `SortedBlockCursor.KeyState` and `RowState` say where the two positions of a cursor stand in the records it has still
  to deliver; they share the batches not loaded yet.
* `mergeLoop_spec` is the first half of `next` (the keys), `stageRows_spec` the second (the rows), `Merger.next_spec`
  the whole: the records output are popped from the heads of the blocks, each time one of minimal key.
-/

namespace Auron.Sort

open Auron.Io Auron.Lib Auron.Algorithm List SortedBlock

variable {V B KC : Type}

class KeyCollector (KC : Type) where
  default : KC
  addKey : KC → Bytes → KC
  freeze : KC → KC

instance : KeyCollector InMemRowsKeyCollector := ⟨{}, InMemRowsKeyCollector.addKey, InMemRowsKeyCollector.freeze⟩

instance : KeyCollector SqueezeKeyCollector := ⟨{}, SqueezeKeyCollector.addKey, id⟩

/-! ### The merger -/

/-- What the merger reads of the sorter: `limit`, and whether every column is pruned. -/
structure MergeParams where
  limit : ℕ
  isAllPruned : Bool

/-- `Merger`; the interleaver is kept as the batches it gathers from. -/
structure Merger (B V : Type) where
  cursors : LoserTree (SortedBlockCursor B V)
  batchInterleaver : List (List (List V))
  singleBatchMode : Bool
  batchesBaseIndices : List ℕ := []
  numTotalOutputRows : ℕ := 0

section Defs

variable [SortedBlock B V]

/-- The cursors of `try_new`. -/
def cursorsOf : ℕ → List B → Except Fault (List (SortedBlockCursor B V))
  | _, [] => .ok []
  | id, block :: blocks =>
    match SortedBlockCursor.tryFromBlock id block with
    | .error e => .error e
    | .ok c =>
      match cursorsOf (id + 1) blocks with
      | .error e => .error e
      | .ok cs => .ok (c :: cs)

def Merger.tryNew (blocks : List B) : Except Fault (Merger B V) :=
  match cursorsOf 0 blocks with
  | .error e => .error e
  | .ok cursors =>
    if blocks.all isSingleBatch then
      match collect (fun c : SortedBlockCursor B V => c.curBatches[0]?) cursors with
      | none => .error .panic
      | some batches => .ok ⟨.new cursors, batches, true, [], 0⟩
    else .ok ⟨.new cursors, [[]], false, [], 0⟩

/-- The loop of `next` that pops keys.  `remaining` is the number of rows it may still take; the tree is adjusted when
the `LoserTreePeekMut` is dropped by the `?`. -/
def mergeLoop [KeyCollector KC] (isAllPruned : Bool) : ℕ → LoserTree (SortedBlockCursor B V) → Bool → List ℕ → KC → ℕ →
    Except Fault (Bool × List ℕ × KC × ℕ) × LoserTree (SortedBlockCursor B V)
  | 0, t, dirty, cursorIds, keyCollector, numRows => (.ok (dirty, cursorIds, keyCollector, numRows), t)
  | remaining + 1, t, dirty, cursorIds, keyCollector, numRows =>
    match t.peekMut with
    | none => (.error .panic, t)
    | some c =>
      if c.finished then (.ok (dirty, cursorIds, keyCollector, numRows), t)
      else
        let cursorIds := if isAllPruned then cursorIds else cursorIds ++ [c.id]
        let keyCollector := KeyCollector.addKey keyCollector (curKey c.input)
        match c.nextKey with
        | (.error e, c) => (.error e, (t.setWinner c).adjustTree)
        | (.ok (), c) =>
          if c.finished || !isEqualToPrevKey c.input then
            mergeLoop isAllPruned remaining (t.setWinner c).adjustTree false cursorIds keyCollector (numRows + 1)
          else mergeLoop isAllPruned remaining (t.setWinner c) true cursorIds keyCollector (numRows + 1)

def baseIndices : ℕ → List (SortedBlockCursor B V) → List ℕ
  | _, [] => []
  | base, c :: cs => base :: baseIndices (base + c.curBatches.length) cs

/-- The rebuilding of the interleaver; `create_batch_interleaver` reads the schema of the first batch. -/
def Merger.rebuildInterleaver (m : Merger B V) : Option (Merger B V) :=
  let cs := m.cursors.values
  if cs.flatMap (·.curBatches) = [] then none
  else some { m with
    cursors := { m.cursors with values := cs.map fun c => { c with curBatchesChanged := false } }
    batchInterleaver := cs.flatMap (·.curBatches)
    batchesBaseIndices := baseIndices 0 cs }

/-- The staging indices: each noted cursor moves on by one row. -/
def stageRows (singleBatchMode : Bool) (baseIndices : List ℕ) : List ℕ → List (SortedBlockCursor B V) →
    Option (List (ℕ × ℕ) × List (SortedBlockCursor B V))
  | [], cs => some ([], cs)
  | cursorId :: cursorIds, cs =>
    match cs[cursorId]? with
    | none => none
    | some c =>
      match c.nextRow with
      | none => none
      | some ((batchIdx, rowIdx), c') =>
        match (if singleBatchMode then some (c.id, rowIdx) else baseIndices[c.id]?.map fun b => (b + batchIdx, rowIdx)),
          stageRows singleBatchMode baseIndices cursorIds (cs.set cursorId c') with
        | some idx, some (idxs, cs) => some (idx :: idxs, cs)
        | _, _ => none

/-- The part of `next` that gathers the rows of the noted cursors. -/
def Merger.collectPruned (m : Merger B V) (cursorIds : List ℕ) : Option (List (List V) × Merger B V) :=
  match (if !m.singleBatchMode && m.cursors.values.any (·.curBatchesChanged) then m.rebuildInterleaver else some m) with
  | none => none
  | some m =>
    match stageRows m.singleBatchMode m.batchesBaseIndices cursorIds m.cursors.values with
    | none => none
    | some (idxs, cs) =>
      match gather₂ m.batchInterleaver idxs with
      | none => none
      | some rows => some (rows, { m with cursors := { m.cursors with values := cs } })

def Merger.next (KC : Type) [KeyCollector KC] (p : MergeParams) (m : Merger B V) (batchSize : ℕ) :
    Except Fault (Option (KC × List (List V))) × Merger B V :=
  let maxNumRows := min batchSize (p.limit - m.numTotalOutputRows)
  match mergeLoop p.isAllPruned maxNumRows m.cursors false [] (KeyCollector.default : KC) 0 with
  | (.error e, t) => (.error e, { m with cursors := t })
  | (.ok (dirty, cursorIds, keyCollector, numRows), t) =>
    if numRows = 0 then (.ok none, { m with cursors := t })
    else
      let m := { m with cursors := if dirty then t.adjustTree else t }
      match (if p.isAllPruned then some (replicate numRows [], m) else m.collectPruned cursorIds) with
      | none => (.error .panic, m)
      | some (rows, m) =>
        (.ok (some (KeyCollector.freeze keyCollector, rows)),
          { m with
            numTotalOutputRows := m.numTotalOutputRows + numRows
            cursors := { m.cursors with values := m.cursors.values.map (·.clearFinishedBatches) } })

end Defs

/-! ### The interleaver -/

section Batches

open SortedBlockCursor

variable {single : Bool} {cs cs' : List (SortedBlockCursor B V)} {m : Merger B V}

structure LaterAll (single : Bool) (cs cs' : List (SortedBlockCursor B V)) : Prop where
  len : cs'.length = cs.length
  later : ∀ (i : ℕ) (c c' : SortedBlockCursor B V), cs[i]? = some c → cs'[i]? = some c' → Later single c c'

lemma LaterAll.refl : LaterAll single cs cs := by
  refine ⟨rfl, fun i c c' hc hc' => ?_⟩
  rw [hc] at hc'
  rw [← Option.some.inj hc']
  exact Later.refl single c

lemma LaterAll.trans {cs'' : List (SortedBlockCursor B V)} (h : LaterAll single cs cs') (h' : LaterAll single cs' cs'') :
    LaterAll single cs cs'' := by
  refine ⟨h'.len.trans h.len, fun i c c'' hc hc'' => ?_⟩
  obtain ⟨c', hc'⟩ := exists_getElem? h.len hc
  exact (h.later i c c' hc hc').trans (h'.later i c' c'' hc' hc'')

lemma LaterAll.set {i : ℕ} {c c' : SortedBlockCursor B V} (hc : cs[i]? = some c) (h : Later single c c') :
    LaterAll single cs (cs.set i c') := by
  refine ⟨by simp, fun j d d' hd hd' => ?_⟩
  by_cases hij : i = j
  · subst hij
    rw [getElem?_set_self (lt_of_getElem? hc)] at hd'
    rw [hc] at hd
    obtain rfl := Option.some.inj hd
    obtain rfl := Option.some.inj hd'
    exact h
  · rw [getElem?_set_ne hij, hd] at hd'
    rw [← Option.some.inj hd']
    exact Later.refl single d

/-- The row indices the staging writes down lead the interleaver to the rows of the cursors. -/
def Look (single : Bool) (bases : List ℕ) (inter : List (List (List V))) (cs : List (SortedBlockCursor B V)) : Prop :=
  ∀ (i : ℕ) (c : SortedBlockCursor B V) (b r : ℕ) (x : List V), cs[i]? = some c → at₂ c.curBatches (b, r) = some x →
    ∃ idx, (if single then some (i, r) else bases[i]?.map fun base => (base + b, r)) = some idx ∧ at₂ inter idx = some x

lemma Look.congr {bases : List ℕ} {inter : List (List (List V))} (h : Look single bases inter cs)
    (hcs : cs'.map (·.curBatches) = cs.map (·.curBatches)) :
    Look single bases inter cs' := by
  intro i c b r x hc hx
  obtain ⟨d, hd, hdc⟩ := exists_of_map_eq hcs.symm hc
  exact h i d b r x hd (hdc ▸ hx)

def Frame (cs cs' : List (SortedBlockCursor B V)) : Prop :=
  cs'.map (fun c => (c.input, c.finished, c.curBatches, c.curBatchesChanged)) =
    cs.map fun c => (c.input, c.finished, c.curBatches, c.curBatchesChanged)

lemma Frame.map_eq {α : Type} (h : Frame cs cs') (f : B × Bool × List (List (List V)) × Bool → α) :
    cs'.map (fun c => f (c.input, c.finished, c.curBatches, c.curBatchesChanged)) =
      cs.map fun c => f (c.input, c.finished, c.curBatches, c.curBatchesChanged) := by
  have := congrArg (map f) h
  simpa [Function.comp_def] using this

lemma flatMap_congr_batches (h : cs'.map (·.curBatches) = cs.map (·.curBatches)) :
    cs.flatMap (·.curBatches) = cs'.flatMap (·.curBatches) := by
  rw [flatMap_def, flatMap_def, h]

lemma baseIndices_congr (base : ℕ) (h : cs'.map (·.curBatches) = cs.map (·.curBatches)) :
    baseIndices base cs = baseIndices base cs' := by
  induction cs generalizing base cs' with
  | nil =>
    obtain rfl : cs' = [] := by simpa using h
    rfl
  | cons c cs ih =>
    cases cs' with
    | nil => cases h
    | cons c' cs' =>
      obtain ⟨h1, h2⟩ := cons.inj h
      simp only at h1
      rw [baseIndices, baseIndices, ih _ h2, h1]

/-- The interleaver gathers from the right batches: of single-batch blocks, the batch of each; otherwise, as long as no
cursor says that its batches changed, all batches in order. -/
structure InterOk (m : Merger B V) : Prop where
  single : m.singleBatchMode = true → ∀ (i : ℕ) (c : SortedBlockCursor B V), m.cursors.values[i]? = some c →
    ∃ b, m.batchInterleaver[i]? = some b ∧ (c.curBatches = [b] ∨ c.curBatches = [])
  multi : m.singleBatchMode = false → (∀ c ∈ m.cursors.values, c.curBatchesChanged = false) →
    m.batchInterleaver = m.cursors.values.flatMap (·.curBatches) ∧ m.batchesBaseIndices = baseIndices 0 m.cursors.values

lemma baseIndices_spec (cs : List (SortedBlockCursor B V)) : ∀ (base i : ℕ) (c : SortedBlockCursor B V), cs[i]? = some c →
    ∃ k, (baseIndices base cs)[i]? = some (base + k) ∧
      ∀ b batch, c.curBatches[b]? = some batch →
        (cs.flatMap (·.curBatches))[k + b]? = some batch := by
  induction cs with
  | nil => intro base i c hc; simp at hc
  | cons d cs ih =>
    intro base i c hc
    cases i with
    | zero =>
      obtain rfl : d = c := by simpa using hc
      refine ⟨0, by simp [baseIndices], fun b batch hb => ?_⟩
      rw [zero_add, flatMap_cons, getElem?_append_left (lt_of_getElem? hb), hb]
    | succ i =>
      obtain ⟨k, h1, h2⟩ := ih (base + d.curBatches.length) i c (by simpa using hc)
      refine ⟨d.curBatches.length + k, by simpa [baseIndices, add_assoc] using h1, fun b batch hb => ?_⟩
      rw [flatMap_cons, getElem?_append_right (by omega), ← h2 b batch hb]
      congr 1
      omega

section Inter

variable (h : InterOk m)

include h

lemma InterOk.look (hc : m.singleBatchMode = false → ∀ c ∈ m.cursors.values, c.curBatchesChanged = false) :
    Look m.singleBatchMode m.batchesBaseIndices m.batchInterleaver m.cursors.values := by
  intro i c b r x hci hx
  obtain ⟨batch, hb, hrx⟩ := Option.bind_eq_some_iff.1 hx
  cases hs : m.singleBatchMode with
  | true =>
    obtain ⟨b', h1, h2⟩ := h.single hs i c hci
    refine ⟨(i, r), by simp, ?_⟩
    rcases h2 with h2 | h2
    · rw [h2] at hb
      obtain rfl : b = 0 := by simpa using lt_of_getElem? hb
      obtain rfl : b' = batch := by simpa using hb
      simp [at₂, h1, hrx]
    · rw [h2] at hb
      simp at hb
  | false =>
    obtain ⟨h1, h2⟩ := h.multi hs (hc hs)
    obtain ⟨k, h3, h4⟩ := baseIndices_spec m.cursors.values 0 i c hci
    refine ⟨(k + b, r), by simp [h2, h3], ?_⟩
    simp [at₂, h1, h4 b batch hb, hrx]

lemma InterOk.of_batches {t : LoserTree (SortedBlockCursor B V)} (n : ℕ)
    (hsingle : m.singleBatchMode = true → ∀ (i : ℕ) (c' : SortedBlockCursor B V), t.values[i]? = some c' →
      ∃ c, m.cursors.values[i]? = some c ∧ (c'.curBatches = c.curBatches ∨ c'.curBatches = []))
    (hmulti : (∀ c ∈ t.values, c.curBatchesChanged = false) →
      (∀ c ∈ m.cursors.values, c.curBatchesChanged = false) ∧
        t.values.map (·.curBatches) = m.cursors.values.map (·.curBatches)) :
    InterOk { m with numTotalOutputRows := n, cursors := t } := by
  refine ⟨fun hs i c' hc' => ?_, fun hs hun => ?_⟩
  · obtain ⟨c, hc, hb⟩ := hsingle hs i c' hc'
    obtain ⟨b, h1, h2⟩ := h.single hs i c hc
    rcases hb with hb | hb
    · exact ⟨b, h1, hb ▸ h2⟩
    · exact ⟨b, h1, .inr hb⟩
  · obtain ⟨hall, hb⟩ := hmulti hun
    obtain ⟨h1, h2⟩ := h.multi hs hall
    exact ⟨by rw [h1, flatMap_congr_batches hb], by rw [h2, baseIndices_congr 0 hb]⟩

lemma InterOk.frame (hf : Frame m.cursors.values cs) :
    InterOk { m with cursors := { m.cursors with values := cs } } := by
  have hb : cs.map (·.curBatches) = m.cursors.values.map (·.curBatches) := hf.map_eq fun x => x.2.2.1
  refine h.of_batches _ (fun hs i c hc => ?_) fun hun => ⟨fun c hc => ?_, hb⟩
  · obtain ⟨d, hd, hdc⟩ := exists_of_map_eq hb.symm hc
    exact ⟨d, hd, .inl hdc.symm⟩
  · have hch : cs.map (·.curBatchesChanged) = m.cursors.values.map (·.curBatchesChanged) := hf.map_eq fun x => x.2.2.2
    have hmem : c.curBatchesChanged ∈ cs.map (·.curBatchesChanged) := hch ▸ mem_map_of_mem hc
    obtain ⟨d, hd, hdc⟩ := mem_map.1 hmem
    rw [← hdc]
    exact hun d hd

lemma InterOk.later {t : LoserTree (SortedBlockCursor B V)}
    (hl : LaterAll m.singleBatchMode m.cursors.values t.values) : InterOk { m with cursors := t } := by
  have hback : ∀ (i : ℕ) (c' : SortedBlockCursor B V), t.values[i]? = some c' →
      ∃ c, m.cursors.values[i]? = some c ∧ Later m.singleBatchMode c c' := by
    intro i c' hc'
    obtain ⟨c, hc⟩ := exists_getElem? hl.len.symm hc'
    exact ⟨c, hc, hl.later i c c' hc hc'⟩
  refine h.of_batches _ (fun hs i c' hc' => ?_) fun hun => ⟨fun c hc => ?_, ext_getElem? fun i => ?_⟩
  · obtain ⟨c, hc, hlater⟩ := hback i c' hc'
    exact ⟨c, hc, .inl (hlater.single hs)⟩
  · obtain ⟨i, hi⟩ := mem_iff_getElem?.1 hc
    obtain ⟨c', hc'⟩ := exists_getElem? hl.len hi
    exact ((hl.later i c c' hi hc').unchanged (hun c' (mem_of_getElem? hc'))).1
  · rw [getElem?_map, getElem?_map]
    cases hc' : t.values[i]? with
    | none => rw [getElem?_eq_none (by rw [← hl.len]; exact getElem?_eq_none_iff.1 hc')]
    | some c' =>
      obtain ⟨c, hc, hlater⟩ := hback i c' hc'
      rw [hc, Option.map_some, Option.map_some, (hlater.unchanged (hun c' (mem_of_getElem? hc'))).2]

lemma InterOk.clear (n : ℕ) :
    InterOk { m with
      numTotalOutputRows := n
      cursors := { m.cursors with values := m.cursors.values.map (·.clearFinishedBatches) } } := by
  refine h.of_batches n (fun hs i c hc => ?_) fun hun => ?_
  · rw [getElem?_map] at hc
    obtain ⟨d, hd, rfl⟩ := Option.map_eq_some_iff.1 hc
    obtain ⟨b, -, h2⟩ := h.single hs i d hd
    refine ⟨d, hd, ?_⟩
    unfold clearFinishedBatches
    split
    · rename_i h0
      refine .inr ?_
      rcases h2 with h2 | h2
      · simp only [h2]
        exact drop_eq_nil_of_le h0
      · simp [h2]
    · exact .inl rfl
  · have hun' : ∀ c ∈ m.cursors.values, c.curBatchesChanged = false ∧ c.clearFinishedBatches.curBatches = c.curBatches :=
      fun c hc => unchanged_clear (hun _ (mem_map_of_mem hc))
    refine ⟨fun c hc => (hun' c hc).1, ?_⟩
    rw [map_map]
    exact map_congr_left fun c hc => (hun' c hc).2

end Inter

def QueuesSorted (qs : List (List (Rec V))) : Prop := ∀ q ∈ qs, q.Pairwise fun a b => a.1 ≤ b.1

lemma QueuesSorted.set {qs : List (List (Rec V))} (h : QueuesSorted qs) {i : ℕ} {r : Rec V} {q : List (Rec V)}
    (hq : qs[i]? = some (r :: q)) : QueuesSorted (qs.set i q) :=
  forall_mem_set h (pairwise_cons.1 (h _ (mem_of_getElem? hq))).2 i

end Batches

/-! ### Families of cursors -/

section Family

open SortedBlockCursor

variable [SortedBlock B V] [LawfulSortedBlock B V]

/-- Cursor number `i` has the number `i`, and has still to deliver the queues number `i`. -/
structure CursorsRep (ap single : Bool) (cs : List (SortedBlockCursor B V)) (kqs rqs : List (List (Rec V))) : Prop where
  lenK : kqs.length = cs.length
  lenR : rqs.length = cs.length
  rep : ∀ (i : ℕ) (c : SortedBlockCursor B V) (kq rq : List (Rec V)), cs[i]? = some c → kqs[i]? = some kq →
    rqs[i]? = some rq → c.id = i ∧ c.CursorRep ap single kq rq

namespace CursorsRep

variable {ap single : Bool} {cs : List (SortedBlockCursor B V)} {kqs rqs : List (List (Rec V))}

section Rep

variable (h : CursorsRep ap single cs kqs rqs)

include h

lemma exists_queues {i : ℕ} {c : SortedBlockCursor B V} (hc : cs[i]? = some c) :
    ∃ kq rq, kqs[i]? = some kq ∧ rqs[i]? = some rq ∧ c.id = i ∧ c.CursorRep ap single kq rq := by
  obtain ⟨kq, hk⟩ := exists_getElem? h.lenK hc
  obtain ⟨rq, hr⟩ := exists_getElem? h.lenR hc
  exact ⟨kq, rq, hk, hr, h.rep i c kq rq hc hk hr⟩

lemma of_rowQueue {i : ℕ} {rq : List (Rec V)} (hr : rqs[i]? = some rq) :
    ∃ c kq, cs[i]? = some c ∧ kqs[i]? = some kq ∧ c.id = i ∧ c.CursorRep ap single kq rq := by
  obtain ⟨c, hc⟩ := exists_getElem? h.lenR.symm hr
  obtain ⟨kq, _, hk, hr', hrep⟩ := h.exists_queues hc
  rw [hr] at hr'
  obtain rfl := Option.some.inj hr'
  exact ⟨c, kq, hc, hk, hrep⟩

lemma set {i : ℕ} {c' : SortedBlockCursor B V} {kq rq : List (Rec V)}
    (hid : c'.id = i) (hrep : c'.CursorRep ap single kq rq) :
    CursorsRep ap single (cs.set i c') (kqs.set i kq) (rqs.set i rq) := by
  refine ⟨by simpa using h.lenK, by simpa using h.lenR, fun j d kq' rq' hd hk hr => ?_⟩
  by_cases hij : i = j
  · subst hij
    have hi : i < cs.length := by simpa using lt_of_getElem? hd
    rw [getElem?_set_self hi] at hd
    rw [getElem?_set_self (by rw [h.lenK]; exact hi)] at hk
    rw [getElem?_set_self (by rw [h.lenR]; exact hi)] at hr
    obtain rfl := Option.some.inj hd
    obtain rfl := Option.some.inj hk
    obtain rfl := Option.some.inj hr
    exact ⟨hid, hrep⟩
  · rw [getElem?_set_ne hij] at hd hk hr
    exact h.rep j d kq' rq' hd hk hr

lemma map_congr : CursorsRep ap single (cs.map fun c => { c with curBatchesChanged := false }) kqs rqs := by
  refine ⟨by simpa using h.lenK, by simpa using h.lenR, fun i c kq rq hc hk hr => ?_⟩
  rw [getElem?_map] at hc
  obtain ⟨d, hd, rfl⟩ := Option.map_eq_some_iff.1 hc
  obtain ⟨hid, hrep⟩ := h.rep i d kq rq hd hk hr
  exact ⟨hid, hrep.congr _ _⟩

end Rep

lemma of_pruned (h : CursorsRep true single cs kqs rqs) : CursorsRep true single cs kqs kqs := by
  refine ⟨h.lenK, h.lenK, fun i c kq rq hc hk hr => ?_⟩
  rw [hk] at hr
  obtain ⟨_, _, hk', -, hid, rest, g1, -, g3⟩ := h.exists_queues hc
  rw [hk] at hk'
  obtain rfl := Option.some.inj hk'
  exact ⟨hid, rest, g1, by simp, g3⟩

lemma clear (h : CursorsRep ap single cs kqs kqs) :
    CursorsRep ap single (cs.map (·.clearFinishedBatches)) kqs kqs := by
  refine ⟨by simpa using h.lenK, by simpa using h.lenR, fun i c kq rq hc hk hr => ?_⟩
  rw [getElem?_map] at hc
  obtain ⟨d, hd, rfl⟩ := Option.map_eq_some_iff.1 hc
  rw [hk] at hr
  obtain rfl := Option.some.inj hr
  obtain ⟨hid, hrep⟩ := h.rep i d kq kq hd hk hk
  exact ⟨by rw [id_clear, hid], hrep.clear⟩

end CursorsRep

variable {ap single : Bool} {cs : List (SortedBlockCursor B V)} {kqs rqs : List (List (Rec V))} {ids : List ℕ}
  {out : List (Rec V)} {m : Merger B V}

/-! ### Popping keys -/

lemma winner_spec {t : LoserTree (SortedBlockCursor B V)} (hwf : t.Wf curLe)
    (hrep : CursorsRep ap single t.values kqs rqs) (hsorted : QueuesSorted kqs) :
    ∃ w c, t.winner = some w ∧ t.values[w]? = some c ∧ t.peekMut = some c ∧
      (c.finished = true → kqs.flatten = []) ∧
      (c.finished = false → ∃ r kq, kqs[w]? = some (r :: kq) ∧ ∀ b ∈ kqs.flatten, r.1 ≤ b.1) := by
  obtain ⟨w, hw, hlt, hmin⟩ := hwf.winner_le compat_curLe
  have hc : t.values[w]? = some (t.values[w]) := getElem?_eq_getElem hlt
  obtain ⟨kq, _, hk, _, -, hcrep⟩ := hrep.exists_queues hc
  -- the key of the winner is at most the key of any cursor, which is that of the first record of its queue
  have hle : ∀ b ∈ kqs.flatten, t.values[w].ckey ≤ ↑b.1 := by
    intro b hb
    obtain ⟨q, hq, hbq⟩ := mem_flatten.1 hb
    obtain ⟨i, hi⟩ := mem_iff_getElem?.1 hq
    obtain ⟨d, hd⟩ := exists_getElem? hrep.lenK.symm hi
    obtain ⟨_, _, hq', -, -, hdrep⟩ := hrep.exists_queues hd
    obtain ⟨_, _, hx, hy, hxy⟩ := hmin i (lt_of_getElem? hd)
    obtain rfl := Option.some.inj (hi.symm.trans hq')
    obtain rfl := Option.some.inj (hc.symm.trans hx)
    obtain rfl := Option.some.inj (hd.symm.trans hy)
    refine le_trans hxy ?_
    obtain ⟨_, _, rfl⟩ := exists_cons_of_ne_nil (ne_nil_of_mem hbq)
    have hdf : ¬ d.finished = true := by
      rw [hdrep.finished_iff]
      simp
    rw [ckey, if_neg hdf, WithTop.coe_le_coe, hdrep.curKey]
    rcases mem_cons.1 hbq with rfl | hbq
    · exact le_rfl
    · exact (pairwise_cons.1 (hsorted _ hq)).1 b hbq
  refine ⟨w, t.values[w], hw, hc, by simp [LoserTree.peekMut, hw], fun hf => ?_, fun hf => ?_⟩
  · refine eq_nil_iff_forall_not_mem.2 fun b hb => ?_
    have htop := hle b hb
    rw [ckey, if_pos hf, top_le_iff] at htop
    exact WithTop.coe_ne_top htop
  · obtain ⟨r, kq', rfl⟩ : ∃ r kq', kq = r :: kq' := by
      refine exists_cons_of_ne_nil fun hnil => ?_
      rw [hcrep.finished_iff.2 hnil] at hf
      cases hf
    refine ⟨r, kq', hk, fun b hb => ?_⟩
    have hkey := hle b hb
    rwa [ckey, if_neg (by simp [hf]), WithTop.coe_le_coe, hcrep.curKey] at hkey

/-- **The first half of `next`**: the keys it collects are popped from the queues, smallest first. -/
theorem mergeLoop_spec [KeyCollector KC] (remaining : ℕ) :
    ∀ {t : LoserTree (SortedBlockCursor B V)} {kqs : List (List (Rec V))} (dirty : Bool) (ids0 : List ℕ) (kc : KC) (n : ℕ),
    t.Wf curLe → CursorsRep ap single t.values kqs rqs → QueuesSorted kqs →
    ∃ dirty' ids out kqs' t', mergeLoop ap remaining t dirty ids0 kc n =
        (.ok (dirty', (if ap then ids0 else ids0 ++ ids), (out.map Prod.fst).foldl KeyCollector.addKey kc,
          n + out.length), t') ∧
      MergePops Prod.fst kqs ids out kqs' ∧ out.length = min remaining kqs.flatten.length ∧ t'.Wf curLe ∧
      CursorsRep ap single t'.values kqs' rqs ∧ QueuesSorted kqs' ∧ LaterAll single t.values t'.values := by
  induction remaining with
  | zero =>
    intro t kqs dirty ids0 kc n hwf hrep hsorted
    exact ⟨dirty, [], [], kqs, t, by simp [mergeLoop], .nil kqs, by simp, hwf, hrep, hsorted, LaterAll.refl⟩
  | succ remaining ih =>
    intro t kqs dirty ids0 kc n hwf hrep hsorted
    obtain ⟨w, c, hw, hc, hpeek, hfin, hlive⟩ := winner_spec hwf hrep hsorted
    rw [mergeLoop, hpeek]
    cases hf : c.finished with
    | true =>
      refine ⟨dirty, [], [], kqs, t, by simp [hf], .nil kqs, by simp [hfin hf], hwf, hrep, hsorted, LaterAll.refl⟩
    | false =>
      obtain ⟨r, kq, hk, hmin⟩ := hlive hf
      obtain ⟨_, _, hk', hr, hid, hcrep⟩ := hrep.exists_queues hc
      rw [hk] at hk'
      obtain rfl := Option.some.inj hk'
      obtain ⟨c', hnext, hcrep', hlater, heq⟩ := hcrep.nextKey
      have hcur := hcrep.curKey
      have hset : t.setWinner c' = ⟨t.losers, t.values.set w c'⟩ := by simp [LoserTree.setWinner, hw]
      have hrep' : CursorsRep ap single (t.values.set w c') (kqs.set w kq) rqs := by
        have := hrep.set (hlater.id.trans hid) hcrep'
        rwa [set_eq_self hr] at this
      have hsorted' := hsorted.set hk
      have hlaterAll := LaterAll.set hc hlater
      -- the tree after the step, whichever branch is taken
      obtain ⟨t1, dirty1, hwf1, hval1, hstep⟩ : ∃ t1 dirty1, t1.Wf curLe ∧
          t1.values = t.values.set w c' ∧ ∀ (ids : List ℕ) (kc : KC), (if c'.finished || !isEqualToPrevKey c'.input then
            mergeLoop ap remaining (t.setWinner c').adjustTree false ids kc (n + 1)
          else mergeLoop ap remaining (t.setWinner c') true ids kc (n + 1)) =
            mergeLoop ap remaining t1 dirty1 ids kc (n + 1) := by
        by_cases hb : (c'.finished || !isEqualToPrevKey c'.input) = true
        · obtain ⟨h1, h2⟩ := hwf.adjust compat_curLe c'
          exact ⟨_, false, h1, by rw [h2, hset], fun ids kc => by rw [if_pos hb]⟩
        · refine ⟨t.setWinner c', true, ?_, by rw [hset], fun ids kc => by rw [if_neg hb]⟩
          simp only [Bool.or_eq_true, Bool.not_eq_eq_eq_not, Bool.not_true, not_or, Bool.not_eq_true,
            Bool.not_eq_false] at hb
          have hckey : c'.ckey = c.ckey := by
            rw [ckey, ckey, if_neg (by simp [hb.1]), if_neg (by simp [hf]), heq hb.1 hb.2]
          rw [hset]
          refine wf_congr hwf ?_
          rw [map_set, hckey]
          refine set_eq_self ?_
          rw [getElem?_map, hc]
          rfl
      obtain ⟨dirty', ids, out, kqs', t', h1, h2, _, h4, h5, h6, h7⟩ :=
        ih dirty1 (if ap then ids0 else ids0 ++ [c.id]) (KeyCollector.addKey kc r.1) (n + 1) hwf1 (hval1 ▸ hrep') hsorted'
      refine ⟨dirty', w :: ids, r :: out, kqs', t', ?_, .cons hk hmin h2, ?_, h4, h5, h6, ?_⟩
      · simp only [hf, Bool.false_eq_true, hnext]
        have hn : n + 1 + out.length = n + (r :: out).length := by
          simp only [length_cons]
          omega
        rw [hstep, hcur, h1, hn]
        cases ap <;> simp [hid]
      · have := (perm_flatten_set hk).length_eq
        simp only [length_cons] at this ⊢
        omega
      · exact hlaterAll.trans (hval1 ▸ h7)

/-! ### Fetching rows -/

/-- **The second half of `next`**: each noted cursor hands out the row of the record popped from it. -/
theorem stageRows_spec {bases : List ℕ} {inter : List (List (List V))} (hpops : Pops rqs ids out kqs) :
    ∀ {cs : List (SortedBlockCursor B V)}, CursorsRep false single cs kqs rqs → Look single bases inter cs →
    ∃ idxs cs', stageRows single bases ids cs = some (idxs, cs') ∧ gather₂ inter idxs = some (out.map Prod.snd) ∧
      CursorsRep false single cs' kqs kqs ∧ Frame cs cs' := by
  induction hpops with
  | nil qs => exact fun h _ => ⟨[], _, rfl, rfl, h, rfl⟩
  | @cons rqs i a t ids out kqs hi hrest ih =>
    intro cs hrep hlook
    obtain ⟨c, kq, hc, hk, hid, hcrep⟩ := hrep.of_rowQueue hi
    have hlen : kq.length ≤ t.length :=
      hrest.length_le i t kq (getElem?_set_self (lt_of_getElem? hi)) hk
    obtain ⟨b, r, bi, ri, hnext, hat, hcrep'⟩ := hcrep.nextRow hlen
    have hid' : ({ c with curBatchIdx := bi, curRowIdx := ri } : SortedBlockCursor B V).id = i := hid
    have hrep' := hrep.set hid' hcrep'
    rw [set_eq_self hk] at hrep'
    have hframe : Frame cs (cs.set i { c with curBatchIdx := bi, curRowIdx := ri }) := by
      unfold Frame
      rw [map_set]
      exact set_eq_self (by rw [getElem?_map, hc]; rfl)
    obtain ⟨idxs, cs', h1, h2, h3, h4⟩ := ih hrep' (hlook.congr (hframe.map_eq fun x => x.2.2.1))
    obtain ⟨idx, hidx, hatx⟩ := hlook i c b r a.2 hc hat
    refine ⟨idx :: idxs, cs', ?_, ?_, h3, h4.trans hframe⟩
    · rw [← hid] at hidx
      rw [stageRows, hc]
      simp only [hnext]
      rw [hidx, h1]
    · rw [gather₂_eq_some_iff]
      exact .cons hatx (gather₂_eq_some_iff.1 h2)

lemma batches_ne_nil (hrep : CursorsRep false single cs kqs rqs) (hpops : Pops rqs ids out kqs) (hne : out ≠ []) :
    cs.flatMap (·.curBatches) ≠ [] := by
  cases hpops with
  | nil => exact absurd rfl hne
  | @cons _ i a t ids out _ hi hrest =>
    obtain ⟨c, kq, hc, hk, -, hcrep⟩ := hrep.of_rowQueue hi
    have hload := hcrep.loaded_ne_nil
      (hrest.length_le i t kq (getElem?_set_self (lt_of_getElem? hi)) hk)
    intro hnil
    have hb : c.curBatches = [] := (flatMap_eq_nil_iff.1 hnil) c (mem_of_getElem? hc)
    exact hload (by simp [loaded, hb])

/-- **Gathering the rows** of the records popped. -/
theorem collectPruned_spec
    (hrep : CursorsRep false m.singleBatchMode m.cursors.values kqs rqs) (hinter : InterOk m)
    (hpops : Pops rqs ids out kqs) (hne : out ≠ []) :
    ∃ m', m.collectPruned ids = some (out.map Prod.snd, m') ∧
      CursorsRep false m.singleBatchMode m'.cursors.values kqs kqs ∧ InterOk m' ∧
      m'.cursors.losers = m.cursors.losers ∧ m'.cursors.values.map ckey = m.cursors.values.map ckey ∧
      m'.singleBatchMode = m.singleBatchMode ∧ m'.numTotalOutputRows = m.numTotalOutputRows := by
  -- the interleaver is brought up to date
  obtain ⟨m1, h1, h2, h3, h4, h5, h6, h7, h8⟩ : ∃ m1 : Merger B V,
      (if !m.singleBatchMode && m.cursors.values.any (·.curBatchesChanged) then m.rebuildInterleaver else some m) = some m1 ∧
      InterOk m1 ∧ (m1.singleBatchMode = false → ∀ c ∈ m1.cursors.values, c.curBatchesChanged = false) ∧
      CursorsRep false m.singleBatchMode m1.cursors.values kqs rqs ∧ m1.cursors.losers = m.cursors.losers ∧
      m1.cursors.values.map ckey = m.cursors.values.map ckey ∧ m1.singleBatchMode = m.singleBatchMode ∧
      m1.numTotalOutputRows = m.numTotalOutputRows := by
    split
    · rename_i hc
      simp only [Bool.and_eq_true, Bool.not_eq_true'] at hc
      refine ⟨_, if_neg (batches_ne_nil hrep hpops hne), ?_, ?_, ?_, rfl, ?_, rfl, rfl⟩
      · refine ⟨fun hs => absurd hs (by simp [hc.1]), fun _ _ => ⟨?_, ?_⟩⟩
        · exact flatMap_congr_batches (by simp)
        · exact baseIndices_congr 0 (by simp)
      · intro _ c hcm
        obtain ⟨d, -, rfl⟩ := mem_map.1 hcm
        rfl
      · exact hrep.map_congr
      · simp only [map_map]
        rfl
    · rename_i hc
      refine ⟨m, rfl, hinter, fun hs c hcm => ?_, hrep, rfl, rfl, rfl, rfl⟩
      by_contra hch
      refine hc ?_
      simp only [hs, Bool.not_false, Bool.true_and, any_eq_true]
      exact ⟨c, hcm, by simpa using hch⟩
  obtain ⟨_, cs', g1, g2, g3, g4⟩ := stageRows_spec hpops h4 (h7 ▸ h2.look h3)
  refine ⟨{ m1 with cursors := { m1.cursors with values := cs' } }, ?_, g3, ?_, h5, ?_, h7, h8⟩
  · unfold Merger.collectPruned
    rw [h1]
    simp only [h7, g1, g2]
  · exact h2.frame g4
  · exact (g4.map_eq fun x => if x.2.1 then (⊤ : WithTop Bytes) else ↑(curKey x.1)).trans h6

/-! ### `next` -/

/-- A merger that has still to merge the queues `qs`. -/
structure MergerRep (p : MergeParams) (m : Merger B V) (qs : List (List (Rec V))) : Prop where
  wf : m.cursors.Wf curLe
  cursors : CursorsRep p.isAllPruned m.singleBatchMode m.cursors.values qs qs
  sorted : QueuesSorted qs
  inter : InterOk m
  pruned : p.isAllPruned = true → ∀ r ∈ qs.flatten, r.2 = []

omit [LawfulSortedBlock B V] in
lemma map_ckey_clear (cs : List (SortedBlockCursor B V)) : (cs.map (·.clearFinishedBatches)).map ckey = cs.map ckey := by
  rw [map_map]
  refine map_congr_left fun c _ => ?_
  simp [ckey]

/-- **`Merger::next` pops records of minimal key**, as many as the batch size, the limit and the blocks allow. -/
theorem Merger.next_spec (KC : Type) [KeyCollector KC] {p : MergeParams} {m : Merger B V} {qs : List (List (Rec V))}
    (h : MergerRep p m qs) (batchSize : ℕ) :
    ∃ ids out qs' m', MergePops Prod.fst qs ids out qs' ∧
      out.length = min (min batchSize (p.limit - m.numTotalOutputRows)) qs.flatten.length ∧
      MergerRep p m' qs' ∧ m'.numTotalOutputRows = m.numTotalOutputRows + out.length ∧
      m.next KC p batchSize = (.ok (if out = [] then none else
        some (KeyCollector.freeze ((out.map Prod.fst).foldl KeyCollector.addKey KeyCollector.default),
          out.map Prod.snd)), m') := by
  obtain ⟨dirty, ids, out, qs', t, h1, h2, h3, h4, h5, h6, h7⟩ := mergeLoop_spec
    (min batchSize (p.limit - m.numTotalOutputRows)) false [] (KeyCollector.default : KC) 0 h.wf h.cursors h.sorted
  have hpruned : p.isAllPruned = true → ∀ r ∈ qs'.flatten, r.2 = [] := fun hp r hr =>
    h.pruned hp r (h2.mem_of_mem_rest hr)
  simp only [zero_add] at h1
  unfold next
  simp only [h1]
  by_cases hout : out = []
  · -- nothing was popped
    subst hout
    cases h2
    refine ⟨[], [], qs, { m with cursors := t }, .nil _, by simpa using h3, ⟨h4, h5, h6, h.inter.later h7, h.pruned⟩,
      rfl, by simp⟩
  · have hlen : out.length ≠ 0 := fun h0 => hout (eq_nil_of_length_eq_zero h0)
    rw [if_neg hlen]
    -- dropping the `LoserTreePeekMut`
    obtain ⟨t1, ht1, hwf1, hval1⟩ : ∃ t1, (if dirty then t.adjustTree else t) = t1 ∧ t1.Wf curLe ∧ t1.values = t.values := by
      cases dirty with
      | true => exact ⟨_, rfl, h4.adjustTree compat_curLe⟩
      | false => exact ⟨t, rfl, h4, rfl⟩
    simp only [ht1]
    have hinter : InterOk { m with cursors := t1 } := h.inter.later (hval1 ▸ h7)
    cases hp : p.isAllPruned with
    | true =>
      have hrows : replicate out.length [] = out.map Prod.snd := by
        refine (eq_replicate_iff.2 ⟨by simp, fun b hb => ?_⟩).symm
        obtain ⟨r, hr, rfl⟩ := mem_map.1 hb
        exact h.pruned hp r (h2.mem_of_mem_out hr)
      simp only [if_true, hrows]
      refine ⟨ids, out, qs', _, h2, h3, ⟨?_, ?_, h6, hinter.clear _, hpruned⟩, rfl, by rw [if_neg hout]⟩
      · exact wf_congr hwf1 (map_ckey_clear _)
      · rw [hp] at h5 ⊢
        exact (hval1 ▸ h5.of_pruned).clear
    | false =>
      rw [hp] at h5
      obtain ⟨m', g1, g2, g3, g4, g5, g6, g7⟩ :=
        collectPruned_spec (m := { m with cursors := t1 }) (hval1 ▸ h5) hinter h2.pops hout
      simp only [Bool.false_eq_true, if_false, nil_append, g1]
      refine ⟨ids, out, qs', _, h2, h3, ⟨?_, ?_, h6, g3.clear _, hpruned⟩, congrArg (· + out.length) g7,
        by rw [if_neg hout]⟩
      · have hck := (map_ckey_clear m'.cursors.values).trans g5
        show LoserTree.Wf curLe ⟨m'.cursors.losers, m'.cursors.values.map (·.clearFinishedBatches)⟩
        rw [g4]
        exact wf_congr hwf1 hck
      · rw [hp, g6]
        exact g2.clear

/-! ### Starting a merge -/

lemma cursorsOf_spec (ap : Bool) {blocks : List B} {css : List (List (List (Rec V)))}
    (h : Forall₂ BlockRep blocks css) : ∀ id, ∃ cs : List (SortedBlockCursor B V), cursorsOf id blocks = .ok cs ∧
      cs.length = css.length ∧ ∀ i c, cs[i]? = some c → ∃ chunks, css[i]? = some chunks ∧ c.id = id + i ∧
        c.curBatchesChanged = true ∧ (∃ batch, c.curBatches = [batch]) ∧
        c.CursorRep ap (blocks.all isSingleBatch) chunks.flatten chunks.flatten := by
  induction h with
  | nil => exact fun id => ⟨[], rfl, rfl, by simp⟩
  | @cons b chunks blocks css hb hrest ih =>
    intro id
    obtain ⟨c, batch, h1, h2, h3, h4, h5⟩ := tryFromBlock_spec hb ap id
    obtain ⟨cs, g1, g2, g3⟩ := ih (id + 1)
    refine ⟨c :: cs, by rw [cursorsOf, h1]; simp only [g1], by simp [g2], fun i c' hc => ?_⟩
    cases i with
    | zero =>
      obtain rfl : c = c' := by simpa using hc
      exact ⟨chunks, rfl, h2, h4, ⟨batch, h3⟩, h5.weaken (by simp +contextual)⟩
    | succ i =>
      obtain ⟨chunks', e1, _, e3, e4, e5⟩ := g3 i c' hc
      exact ⟨chunks', e1, by omega, e3, e4, e5.weaken (by simp +contextual)⟩

/-- **A fresh merger** has still to merge everything its blocks deliver. -/
theorem Merger.tryNew_spec (p : MergeParams) {blocks : List B} {css : List (List (List (Rec V)))}
    (h : Forall₂ BlockRep blocks css) (hne : blocks ≠ []) (hsorted : QueuesSorted (css.map flatten))
    (hpruned : p.isAllPruned = true → ∀ r ∈ css.flatten.flatten, r.2 = []) :
    ∃ m : Merger B V, tryNew blocks = .ok m ∧ MergerRep p m (css.map flatten) ∧ m.numTotalOutputRows = 0 := by
  obtain ⟨cs, h1, h2, hget⟩ := cursorsOf_spec p.isAllPruned h 0
  have hlen : 0 < cs.length := by
    rw [h2, ← h.length_eq]
    exact length_pos_of_ne_nil hne
  simp only [zero_add] at hget
  have hreps : CursorsRep p.isAllPruned (blocks.all isSingleBatch) cs (css.map flatten)
      (css.map flatten) := by
    refine ⟨by simp [h2], by simp [h2], fun i c kq rq hc hk hr => ?_⟩
    obtain ⟨_, g1, g2, -, -, g5⟩ := hget i c hc
    rw [getElem?_map, g1] at hk hr
    obtain rfl := Option.some.inj hk
    obtain rfl := Option.some.inj hr
    exact ⟨g2, g5⟩
  have hpr : p.isAllPruned = true → ∀ r ∈ (css.map flatten).flatten, r.2 = [] := by
    intro hp r hr
    refine hpruned hp r ?_
    rw [flatten_flatten]
    exact hr
  rw [tryNew, h1]
  simp only
  cases hs : blocks.all isSingleBatch with
  | true =>
    have hcollect : collect (fun c : SortedBlockCursor B V => c.curBatches[0]?) cs =
        some (cs.map fun c => (c.curBatches[0]?).getD []) := by
      refine collect_eq_map fun c hc => ?_
      obtain ⟨i, hi⟩ := mem_iff_getElem?.1 hc
      obtain ⟨-, -, -, -, ⟨batch, hb⟩, -⟩ := hget i c hi
      simp [hb]
    rw [hcollect]
    refine ⟨_, rfl, ⟨LoserTree.new_wf compat_curLe hlen, hs ▸ hreps, hsorted, ⟨fun _ i c hc => ?_, by simp⟩, hpr⟩, rfl⟩
    obtain ⟨-, -, -, -, ⟨batch, hb⟩, -⟩ := hget i c hc
    refine ⟨batch, ?_, .inl hb⟩
    have hc' : cs[i]? = some c := hc
    simp [hc', hb]
  | false =>
    refine ⟨_, rfl, ⟨LoserTree.new_wf compat_curLe hlen, hs ▸ hreps, hsorted, ⟨by simp, fun _ hun => ?_⟩, hpr⟩, rfl⟩
    -- a fresh cursor has always loaded a batch
    exfalso
    have hc : cs[0]? = some (cs[0]) := getElem?_eq_getElem hlen
    obtain ⟨-, -, -, hch, -⟩ := hget 0 _ hc
    rw [hun _ (mem_of_getElem? hc)] at hch
    cases hch

end Family

end Auron.Sort
