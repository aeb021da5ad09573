import Auron.Algorithm.LoserTree
import Auron.Sort.Blocks

/-!
# Block cursors of `sort_exec.rs`

`SortedBlockCursor` walks one block with *two* positions.  The key cursor (`next_key`) runs one record ahead, on the key
that takes part in the comparisons, and loads batches as it goes; the row cursor (`next_row`) follows later, when the
rows are gathered, and `clear_finished_batches` drops what it has left behind.  A function on `&mut self` returns the
state after it, also when it fails.

* `KeyState` and `RowState` say where the two positions stand in the records the block has still to deliver; they share
  the batches that are not loaded yet.
* `nextKey_spec`, `nextRow_spec` and `rep_clearFinishedBatches` say what the three operations do to them, and
  `tryFromBlock_spec` that a fresh cursor has both at the start.
* `ckey` is the key a cursor takes part with, a finished one last of all; `compat_curLe` says that the comparison of the
  loser tree decides its order (two finished cursors are each `lt` the other).
-/

namespace Auron.Sort

open Auron.Io Auron.Lib Auron.Algorithm List

variable {V B : Type}

structure SortedBlockCursor (B V : Type) where
  id : ℕ
  input : B
  curBatches : List (List (List V)) := []
  curBatchesChanged : Bool := false
  curKeyRowIdx : ℕ := 0
  curBatchIdx : ℕ := 0
  curRowIdx : ℕ := 0
  finished : Bool := false

namespace SortedBlockCursor

section Defs

variable [SortedBlock B V]

instance : ComparableForLoserTree (SortedBlockCursor B V) where
  lt a b :=
    if b.finished || a.finished then b.finished
    else decide (SortedBlock.curKey a.input < SortedBlock.curKey b.input)

section Cursor

variable (c : SortedBlockCursor B V)

def loadNextBatch : Except Fault Bool × SortedBlockCursor B V :=
  match SortedBlock.nextBatch c.input with
  | (.error e, input) => (.error e, { c with input := input })
  | (.ok (some batch), input) =>
    (.ok true, { c with
      input := input, curBatches := c.curBatches ++ [batch], curKeyRowIdx := 0, curBatchesChanged := true })
  | (.ok none, input) => (.ok false, { c with input := input, finished := true })

/-- The last lines of `next_key`. -/
def advanceKey : Except Fault Unit × SortedBlockCursor B V :=
  match SortedBlock.nextKey c.input with
  | (.error e, input) => (.error e, { c with input := input })
  | (.ok (), input) => (.ok (), { c with input := input, curKeyRowIdx := c.curKeyRowIdx + 1 })

def lastNumRows : ℕ := (c.curBatches.getLast?.map length).getD 0

def nextKey : Except Fault Unit × SortedBlockCursor B V :=
  if c.finished then (.error .panic, c)
  else if c.lastNumRows ≤ c.curKeyRowIdx then
    match c.loadNextBatch with
    | (.error e, c) => (.error e, c)
    | (.ok false, c) => (.ok (), { c with finished := true })
    | (.ok true, c) => c.advanceKey
  else c.advanceKey

end Cursor

def tryFromBlock (id : ℕ) (block : B) : Except Fault (SortedBlockCursor B V) :=
  match nextKey { id := id, input := block } with
  | (.error e, _) => .error e
  | (.ok (), c) => .ok c

/-- `next_row`; without a current batch it panics. -/
def nextRow (c : SortedBlockCursor B V) : Option ((ℕ × ℕ) × SortedBlockCursor B V) :=
  c.curBatches[c.curBatchIdx]?.map fun batch =>
    ((c.curBatchIdx, c.curRowIdx),
      if batch.length ≤ c.curRowIdx + 1 then { c with curBatchIdx := c.curBatchIdx + 1, curRowIdx := 0 }
      else { c with curRowIdx := c.curRowIdx + 1 })

def clearFinishedBatches (c : SortedBlockCursor B V) : SortedBlockCursor B V :=
  if 0 < c.curBatchIdx then
    { c with
      curBatches := c.curBatches.drop c.curBatchIdx
      curBatchesChanged := c.curBatchesChanged || !(c.curBatches.take c.curBatchIdx).isEmpty
      curBatchIdx := 0 }
  else c

end Defs

/-! ### The row cursor -/

def loaded (c : SortedBlockCursor B V) : List (List V) := ((c.curBatches.drop c.curBatchIdx).flatten).drop c.curRowIdx

/-- Where the row cursor stands: `rq` are the records whose rows are still to be handed out. -/
structure RowState (c : SortedBlockCursor B V) (rq : List (Rec V)) (rest : List (List (Rec V))) : Prop where
  rows : rq.map Prod.snd = c.loaded ++ rest.flatten.map Prod.snd
  inRange : ∀ b, c.curBatches[c.curBatchIdx]? = some b → c.curRowIdx < b.length
  atEnd : c.curBatches.length ≤ c.curBatchIdx → c.curBatchIdx = c.curBatches.length ∧ c.curRowIdx = 0
  nonempty : ∀ b ∈ c.curBatches, b ≠ []

variable {c c' : SortedBlockCursor B V} {rq : List (Rec V)} {rest : List (List (Rec V))}

lemma RowState.congr (h : c.RowState rq rest) (h1 : c'.curBatches = c.curBatches)
    (h2 : c'.curBatchIdx = c.curBatchIdx) (h3 : c'.curRowIdx = c.curRowIdx) : c'.RowState rq rest := by
  obtain ⟨g1, g2, g3, g4⟩ := h
  refine ⟨?_, ?_, ?_, ?_⟩
  · simpa only [loaded, h1, h2, h3] using g1
  · simpa only [h1, h2, h3] using g2
  · simpa only [h1, h2, h3] using g3
  · simpa only [h1] using g4

lemma RowState.load {d : List (Rec V)} (h : c.RowState rq (d :: rest)) (hd : d ≠ [])
    (h1 : c'.curBatches = c.curBatches ++ [d.map Prod.snd]) (h2 : c'.curBatchIdx = c.curBatchIdx)
    (h3 : c'.curRowIdx = c.curRowIdx) : c'.RowState rq rest := by
  obtain ⟨g1, g2, g3, g4⟩ := h
  have hidx : c.curBatchIdx ≤ c.curBatches.length := by
    by_contra hlt
    omega
  have hrow : c.curRowIdx ≤ ((c.curBatches.drop c.curBatchIdx).flatten).length := by
    rcases lt_or_ge c.curBatchIdx c.curBatches.length with hlt | hge
    · have := g2 _ (getElem?_eq_getElem hlt)
      rw [drop_eq_getElem_cons hlt, flatten_cons, length_append]
      omega
    · rw [(g3 hge).2]
      omega
  refine ⟨?_, ?_, ?_, ?_⟩
  · rw [g1]
    simp only [loaded, h1, h2, h3]
    rw [drop_append_of_le_length hidx, flatten_append, drop_append_of_le_length hrow]
    simp
  · intro b hb
    rw [h1, h2] at hb
    rw [h3]
    rcases lt_or_ge c.curBatchIdx c.curBatches.length with hlt | hge
    · rw [getElem?_append_left hlt] at hb
      exact g2 b hb
    · obtain ⟨e1, e2⟩ := g3 hge
      rw [e1, getElem?_append_right (le_refl _)] at hb
      obtain rfl : d.map Prod.snd = b := by simpa using hb
      rw [e2]
      simpa using length_pos_of_ne_nil hd
  · intro hle
    rw [h1, length_append] at hle
    simp only [length_singleton] at hle
    omega
  · intro b hb
    rw [h1, mem_append, mem_singleton] at hb
    rcases hb with hb | rfl
    · exact g4 b hb
    · simpa using hd

/-- **One `next_row`**: the index of the first row loaded. -/
theorem RowState.nextRow {r : Rec V} (h : c.RowState (r :: rq) rest) (hne : c.loaded ≠ []) :
    ∃ b i bi ri, c.nextRow = some ((b, i), { c with curBatchIdx := bi, curRowIdx := ri }) ∧
      at₂ c.curBatches (b, i) = some r.2 ∧
      ({ c with curBatchIdx := bi, curRowIdx := ri } : SortedBlockCursor B V).RowState rq rest := by
  obtain ⟨g1, g2, _, g4⟩ := h
  have hlt : c.curBatchIdx < c.curBatches.length := by
    by_contra hge
    exact hne (by simp [loaded, drop_eq_nil_of_le (by omega : c.curBatches.length ≤ c.curBatchIdx)])
  have hget : c.curBatches[c.curBatchIdx]? = some (c.curBatches[c.curBatchIdx]) := getElem?_eq_getElem hlt
  have hrow := g2 _ hget
  generalize hb : c.curBatches[c.curBatchIdx] = batch at hget hrow
  have hloaded : c.loaded = batch[c.curRowIdx] :: (batch.drop (c.curRowIdx + 1) ++
      (c.curBatches.drop (c.curBatchIdx + 1)).flatten) := by
    unfold loaded
    rw [drop_eq_getElem_cons hlt, flatten_cons, hb, drop_append_of_le_length (by omega),
      drop_eq_getElem_cons hrow, cons_append]
  rw [hloaded, cons_append] at g1
  obtain ⟨hr, hrq⟩ := cons.inj g1
  have hat : at₂ c.curBatches (c.curBatchIdx, c.curRowIdx) = some r.2 := by
    simp [at₂, hget, hr]
  rw [SortedBlockCursor.nextRow, hget, Option.map_some]
  split
  · -- the batch is done
    rename_i hend
    rw [drop_eq_nil_of_le hend] at hrq
    refine ⟨_, _, c.curBatchIdx + 1, 0, rfl, hat, ⟨hrq, fun b hb' => ?_, fun hle => ⟨?_, rfl⟩, g4⟩⟩
    · exact length_pos_of_ne_nil (g4 b (mem_of_getElem? hb'))
    · simp only at hle ⊢
      omega
  · rename_i hmore
    refine ⟨_, _, c.curBatchIdx, c.curRowIdx + 1, rfl, hat, ⟨?_, fun b hb' => ?_, fun hle => ?_, g4⟩⟩
    · rw [hrq]
      simp only [loaded]
      rw [drop_eq_getElem_cons hlt, flatten_cons, hb, drop_append_of_le_length (by omega)]
    · rw [hget] at hb'
      obtain rfl := Option.some.inj hb'
      simp only
      omega
    · simp only at hle
      omega

lemma RowState.clear (h : c.RowState rq rest) : c.clearFinishedBatches.RowState rq rest := by
  unfold clearFinishedBatches
  split
  · obtain ⟨g1, g2, g3, g4⟩ := h
    refine ⟨?_, ?_, ?_, ?_⟩
    · simpa only [loaded, drop_zero] using g1
    · intro b hb
      simp only [getElem?_drop] at hb
      exact g2 b hb
    · intro hle
      simp only [length_drop, Nat.le_zero] at hle
      simp only [length_drop]
      exact ⟨hle.symm, (g3 (by omega)).2⟩
    · exact fun b hb => g4 b (mem_of_mem_drop hb)
  · exact h

section Cleared

variable (c : SortedBlockCursor B V)

@[simp] lemma finished_clear : c.clearFinishedBatches.finished = c.finished := by
  unfold clearFinishedBatches
  split <;> rfl

@[simp] lemma input_clear : c.clearFinishedBatches.input = c.input := by
  unfold clearFinishedBatches
  split <;> rfl

@[simp] lemma id_clear : c.clearFinishedBatches.id = c.id := by
  unfold clearFinishedBatches
  split <;> rfl

end Cleared

lemma unchanged_clear (h : c.clearFinishedBatches.curBatchesChanged = false) :
    c.curBatchesChanged = false ∧ c.clearFinishedBatches.curBatches = c.curBatches := by
  unfold clearFinishedBatches at h ⊢
  split at h
  · rename_i h0
    simp only [Bool.or_eq_false_iff, Bool.not_eq_false', List.isEmpty_iff, take_eq_nil_iff] at h
    rw [if_pos h0]
    refine ⟨h.1, ?_⟩
    rcases h.2 with h2 | h2
    · omega
    · simp [h2]
  · rename_i h0
    rw [if_neg h0]
    exact ⟨h, rfl⟩

structure Later (single : Bool) (c c' : SortedBlockCursor B V) : Prop where
  id : c'.id = c.id
  unchanged : c'.curBatchesChanged = false → c.curBatchesChanged = false ∧ c'.curBatches = c.curBatches
  single : single = true → c'.curBatches = c.curBatches

lemma Later.refl (single : Bool) (c : SortedBlockCursor B V) : Later single c c := ⟨rfl, fun h => ⟨h, rfl⟩, fun _ => rfl⟩

lemma Later.trans {single : Bool} {c'' : SortedBlockCursor B V} (h : Later single c c') (h' : Later single c' c'') :
    Later single c c'' := by
  refine ⟨h'.id.trans h.id, fun hc => ?_, fun hs => (h'.single hs).trans (h.single hs)⟩
  obtain ⟨h1, h2⟩ := h'.unchanged hc
  obtain ⟨h3, h4⟩ := h.unchanged h1
  exact ⟨h3, h2.trans h4⟩

/-! ### The key cursor -/

section Keys

variable [SortedBlock B V] [LawfulSortedBlock B V]

open LawfulSortedBlock (Rep)

/-- A cursor that can be moved: `todo` are the records after the current one, `rest` the batches not loaded. -/
structure Ready (c : SortedBlockCursor B V) (prev : Option Bytes) (todo : List (Rec V)) (rest : List (List (Rec V))) :
    Prop where
  nonempty : ∀ d ∈ rest, d ≠ []
  live : c.finished = false
  pending : ∃ pend, todo = pend ++ rest.flatten ∧ Rep c.input prev (pend.map Prod.fst) rest ∧
    c.curKeyRowIdx + pend.length = c.lastNumRows

/-- Where the key cursor stands: `kq` are the records from the current one on, `rest` the batches not loaded. -/
structure KeyState (c : SortedBlockCursor B V) (kq : List (Rec V)) (rest : List (List (Rec V))) : Prop where
  done : c.finished = true → kq = [] ∧ rest = []
  live : c.finished = false → ∃ r todo, kq = r :: todo ∧ SortedBlock.curKey c.input = r.1 ∧ c.Ready (some r.1) todo rest

/-! ### Moving the key cursor -/

variable {c : SortedBlockCursor B V}

lemma advanceKey_spec {prev : Option Bytes} {k : Bytes} {ks : List Bytes} {rest : List (List (Rec V))}
    (h : Rep c.input prev (k :: ks) rest) :
    ∃ b', c.advanceKey = (.ok (), { c with input := b', curKeyRowIdx := c.curKeyRowIdx + 1 }) ∧
      Rep b' (some k) ks rest ∧ SortedBlock.curKey b' = k ∧
      (SortedBlock.isEqualToPrevKey b' = true → ∀ p, prev = some p → p = k) := by
  obtain ⟨b', h1, h2⟩ := LawfulSortedBlock.nextKey_cons h
  exact ⟨b', by rw [advanceKey, h1], h2⟩

/-- **One `next_key`** on a cursor that can be moved. -/
theorem nextKey_ready {prev : Option Bytes} {todo : List (Rec V)} {rest : List (List (Rec V))}
    (h : c.Ready prev todo rest) :
    ∃ c' rest', c.nextKey = (.ok (), c') ∧ c'.KeyState todo rest' ∧ (∀ rq, c.RowState rq rest → c'.RowState rq rest') ∧
      Later false c c' ∧ ((rest' = rest ∧ c'.curBatches = c.curBatches) ∨
        ∃ d, rest = d :: rest' ∧ c'.curBatches = c.curBatches ++ [d.map Prod.snd] ∧ c'.curBatchesChanged = true) ∧
      c'.curBatchIdx = c.curBatchIdx ∧
      (c'.finished = false → SortedBlock.isEqualToPrevKey c'.input = true →
        ∀ p, prev = some p → SortedBlock.curKey c'.input = p) := by
  obtain ⟨hne, hlive, pend, rfl, hrep, hidx⟩ := h
  unfold nextKey
  rw [if_neg (by simp [hlive])]
  cases pend with
  | cons r pend =>
    simp only [length_cons] at hidx
    rw [if_neg (by omega)]
    obtain ⟨b', h1, h2, h3, h4⟩ := advanceKey_spec (c := c) hrep
    refine ⟨_, rest, h1, ⟨by simp [hlive], fun _ => ?_⟩, fun rq hrq => hrq.congr rfl rfl rfl,
      ⟨rfl, fun hc => ⟨hc, rfl⟩, by simp⟩,
      .inl ⟨rfl, rfl⟩, rfl, fun _ heq p hp => (h3.trans (h4 heq p hp).symm)⟩
    refine ⟨r, pend ++ rest.flatten, rfl, h3, hne, hlive, pend, rfl, h2, ?_⟩
    show c.curKeyRowIdx + 1 + pend.length = c.lastNumRows
    omega
  | nil =>
    simp only [length_nil] at hidx
    rw [if_pos (by omega)]
    cases rest with
    | nil =>
      obtain ⟨b', hb⟩ := LawfulSortedBlock.nextBatch_nil hrep
      simp only [loadNextBatch, hb]
      exact ⟨_, [], rfl, ⟨fun _ => ⟨rfl, rfl⟩, by simp⟩, fun rq hrq => hrq.congr rfl rfl rfl,
        ⟨rfl, fun hc => ⟨hc, rfl⟩, by simp⟩, .inl ⟨rfl, rfl⟩, rfl, by simp⟩
    | cons d rest =>
      obtain ⟨b', hb, hrep'⟩ := LawfulSortedBlock.nextBatch_cons hrep
      have hd : d ≠ [] := hne d mem_cons_self
      obtain ⟨r, d', rfl⟩ := exists_cons_of_ne_nil hd
      simp only [loadNextBatch, hb]
      obtain ⟨_, h1, h2, h3, h4⟩ := advanceKey_spec (c := { c with
        input := b', curBatches := c.curBatches ++ [(r :: d').map Prod.snd], curKeyRowIdx := 0,
        curBatchesChanged := true }) hrep'
      refine ⟨_, rest, h1, ⟨by simp [hlive], fun _ => ?_⟩, fun rq hrq => hrq.load hd rfl rfl rfl, ⟨rfl, by simp, by simp⟩,
        .inr ⟨_, rfl, rfl, rfl⟩, rfl, fun _ heq p hp => (h3.trans (h4 heq p hp).symm)⟩
      refine ⟨r, d' ++ rest.flatten, rfl, h3, fun e he => hne e (mem_cons_of_mem _ he), hlive, d', rfl, h2, ?_⟩
      simp [lastNumRows]
      omega

/-! ### Both cursors -/

/-- A cursor that has still to compare the keys of `kq` and to hand out the rows of `rq`.  With every column pruned
(`ap`) no row is ever handed out; a single batch (`single`) is loaded from the start. -/
def CursorRep (ap single : Bool) (c : SortedBlockCursor B V) (kq rq : List (Rec V)) : Prop :=
  ∃ rest, c.KeyState kq rest ∧ (ap = false → c.RowState rq rest) ∧ (ap = true → c.curBatchIdx = 0) ∧
    (single = true → rest = [])

namespace CursorRep

variable {ap single : Bool} {c : SortedBlockCursor B V} {kq rq : List (Rec V)}

lemma weaken (h : c.CursorRep ap single kq rq) {single' : Bool} (hs : single' = true → single = true) :
    c.CursorRep ap single' kq rq := by
  obtain ⟨rest, h1, h2, h3, h4⟩ := h
  exact ⟨rest, h1, h2, h3, fun h => h4 (hs h)⟩

lemma finished_iff (h : c.CursorRep ap single kq rq) : c.finished = true ↔ kq = [] := by
  obtain ⟨_, hk, -⟩ := h
  constructor
  · exact fun hf => (hk.done hf).1
  · intro hkq
    by_contra hf
    obtain ⟨r, _, hcons, -⟩ := hk.live (by simpa using hf)
    rw [hkq] at hcons
    cases hcons

variable {r : Rec V}

lemma curKey (h : c.CursorRep ap single (r :: kq) rq) : SortedBlock.curKey c.input = r.1 := by
  obtain ⟨_, hk, -⟩ := h
  cases hf : c.finished with
  | true => cases (hk.done hf).1
  | false =>
    obtain ⟨_, _, hcons, hcur, -⟩ := hk.live hf
    rw [hcur, (cons.inj hcons).1]

/-- **`next_key`** passes one record; the block calls two keys equal only if they are. -/
theorem nextKey (h : c.CursorRep ap single (r :: kq) rq) :
    ∃ c', c.nextKey = (.ok (), c') ∧ c'.CursorRep ap single kq rq ∧ Later single c c' ∧
      (c'.finished = false → SortedBlock.isEqualToPrevKey c'.input = true →
        SortedBlock.curKey c'.input = SortedBlock.curKey c.input) := by
  have hcur := h.curKey
  have hf : c.finished = false := by
    have := h.finished_iff
    simpa using this
  obtain ⟨_, hk, hrow, hidx, hsingle⟩ := h
  obtain ⟨_, _, hcons, -, hready⟩ := hk.live hf
  obtain ⟨rfl, rfl⟩ := cons.inj hcons
  obtain ⟨c', rest', h1, h2, h3, h4, h5, h6, h7⟩ := nextKey_ready hready
  have hlast : single = true → rest' = [] ∧ c'.curBatches = c.curBatches := by
    intro hs
    rcases h5 with ⟨h5, h5'⟩ | ⟨d, hd, -⟩
    · exact ⟨h5.trans (hsingle hs), h5'⟩
    · rw [hsingle hs] at hd
      cases hd
  refine ⟨c', h1, ⟨rest', h2, fun hap => h3 rq (hrow hap), fun hap => h6.trans (hidx hap), fun hs => (hlast hs).1⟩,
    ⟨h4.id, h4.unchanged, fun hs => (hlast hs).2⟩, fun hf' heq => ?_⟩
  rw [hcur]
  exact h7 hf' heq _ rfl

lemma loaded_ne_nil (h : c.CursorRep false single kq (r :: rq)) (hlen : kq.length ≤ rq.length) : c.loaded ≠ [] := by
  obtain ⟨rest, hk, hrow, -⟩ := h
  have hrows := congrArg length (hrow rfl).rows
  simp only [length_cons, length_map, length_append] at hrows
  have hrest : rest.flatten.length ≤ kq.length := by
    cases hf : c.finished with
    | true => simp [(hk.done hf).2]
    | false =>
      obtain ⟨_, _, rfl, -, hready⟩ := hk.live hf
      obtain ⟨_, rfl, -⟩ := hready.pending
      simp only [length_cons, length_append]
      omega
  intro hnil
  rw [hnil] at hrows
  simp only [length_nil] at hrows
  omega

end CursorRep

variable {single : Bool}

lemma CursorRep.congr {ap : Bool} {kq rq : List (Rec V)} (h : c.CursorRep ap single kq rq) (id : ℕ) (changed : Bool) :
    ({ c with id := id, curBatchesChanged := changed } : SortedBlockCursor B V).CursorRep ap single kq rq := by
  obtain ⟨rest, ⟨hd, hl⟩, hr, hi, hs⟩ := h
  refine ⟨rest, ⟨hd, fun hf => ?_⟩, fun ha => (hr ha).congr rfl rfl rfl, hi, hs⟩
  obtain ⟨r', todo, g1, g2, g3, g4, pend, g5, g6, g7⟩ := hl hf
  exact ⟨r', todo, g1, g2, g3, g4, pend, g5, g6, g7⟩

lemma CursorRep.nextRow {r : Rec V} {kq rq : List (Rec V)} (h : c.CursorRep false single kq (r :: rq))
    (hlen : kq.length ≤ rq.length) :
    ∃ b i bi ri, c.nextRow = some ((b, i), { c with curBatchIdx := bi, curRowIdx := ri }) ∧
      at₂ c.curBatches (b, i) = some r.2 ∧
      ({ c with curBatchIdx := bi, curRowIdx := ri } : SortedBlockCursor B V).CursorRep false single kq rq := by
  have hne := h.loaded_ne_nil hlen
  obtain ⟨rest, hk, hrow, -, hsingle⟩ := h
  obtain ⟨b, i, bi, ri, h1, h2, h3⟩ := (hrow rfl).nextRow hne
  refine ⟨b, i, bi, ri, h1, h2, rest, ⟨hk.done, fun hf => ?_⟩, fun _ => h3, by simp, hsingle⟩
  obtain ⟨r', todo, g1, g2, g3, g4, pend, g5, g6, g7⟩ := hk.live hf
  exact ⟨r', todo, g1, g2, g3, g4, pend, g5, g6, g7⟩

/-- **`clear_finished_batches`** keeps a cursor whose two positions are at the same record. -/
theorem CursorRep.clear {ap : Bool} {q : List (Rec V)} (h : c.CursorRep ap single q q) :
    c.clearFinishedBatches.CursorRep ap single q q := by
  obtain ⟨rest, hk, hrow, hidx, hsingle⟩ := h
  refine ⟨rest, ⟨by simpa using hk.done, fun hf => ?_⟩, fun hap => (hrow hap).clear, fun hap => ?_, hsingle⟩
  · obtain ⟨r, todo, g1, g2, g3, g4, pend, g5, g6, g7⟩ := hk.live (by simpa using hf)
    -- the batch of the current key is not dropped: its row has not been handed out
    have hlast : c.clearFinishedBatches.lastNumRows = c.lastNumRows ∧
        c.clearFinishedBatches.curKeyRowIdx = c.curKeyRowIdx := by
      unfold clearFinishedBatches
      split
      · rename_i h0
        refine ⟨?_, rfl⟩
        cases ap with
        | true => exact absurd (hidx rfl) (by omega)
        | false =>
          have hrows := congrArg length (hrow rfl).rows
          rw [g1, g5] at hrows
          simp only [map_cons, length_cons, length_map, length_append] at hrows
          have hlt : c.curBatchIdx < c.curBatches.length := by
            by_contra hge
            have : c.loaded = [] := by
              simp [loaded, drop_eq_nil_of_le (by omega : c.curBatches.length ≤ c.curBatchIdx)]
            rw [this] at hrows
            simp only [length_nil] at hrows
            omega
          simp only [lastNumRows]
          rw [getLast?_drop, if_neg (by omega)]
      · exact ⟨rfl, rfl⟩
    refine ⟨r, todo, g1, by simpa using g2, g3, by simpa using g4, pend, g5, by simpa using g6, ?_⟩
    rw [hlast.1, hlast.2]
    exact g7
  · have h0 := hidx hap
    unfold clearFinishedBatches
    rw [if_neg (by omega)]
    exact h0

/-! ### Fresh cursors -/

/-- A block that has still to deliver all of `chunks`, at least one batch and none of them empty. -/
structure BlockRep (b : B) (chunks : List (List (Rec V))) : Prop where
  rep : Rep b none [] chunks
  ne_nil : chunks ≠ []
  nonempty : ∀ c ∈ chunks, c ≠ []

/-- **A fresh cursor** has loaded the first batch of its block and stands on its first record. -/
theorem tryFromBlock_spec {b : B} {chunks : List (List (Rec V))} (h : BlockRep b chunks) (ap : Bool) (id : ℕ) :
    ∃ c batch, tryFromBlock id b = .ok c ∧ c.id = id ∧ c.curBatches = [batch] ∧ c.curBatchesChanged = true ∧
      c.CursorRep ap (SortedBlock.isSingleBatch b) chunks.flatten chunks.flatten := by
  have hready : ({ id := id, input := b } : SortedBlockCursor B V).Ready none chunks.flatten chunks :=
    ⟨h.nonempty, rfl, [], rfl, h.rep, by simp [lastNumRows]⟩
  have hrow : ({ id := id, input := b } : SortedBlockCursor B V).RowState chunks.flatten chunks :=
    ⟨by simp [loaded], by simp, by simp, by simp⟩
  obtain ⟨c', rest', h1, h2, h3, h4, h5, h6, -⟩ := nextKey_ready hready
  rcases h5 with ⟨rfl, -⟩ | ⟨d, rfl, h5, h7⟩
  · -- it cannot be live on a batch it has not loaded
    exfalso
    cases hf : c'.finished with
    | true => exact h.ne_nil (h2.done hf).2
    | false =>
      obtain ⟨r, _, g1, -, g3⟩ := h2.live hf
      obtain ⟨_, rfl, -⟩ := g3.pending
      have := congrArg length g1
      simp only [length_cons, length_append] at this
      omega
  · have hsingle : SortedBlock.isSingleBatch b = true → rest' = [] := by
      intro hs
      simpa using LawfulSortedBlock.single h.rep hs
    exact ⟨c', _, by rw [tryFromBlock, h1], h4.id, by simpa using h5, h7, rest', h2, fun _ => h3 _ hrow, fun _ => h6,
      hsingle⟩

end Keys

section Order

variable [SortedBlock B V]

def ckey (c : SortedBlockCursor B V) : WithTop Bytes := if c.finished then ⊤ else ↑(SortedBlock.curKey c.input)

def curLe (a b : SortedBlockCursor B V) : Prop := a.ckey ≤ b.ckey

lemma lt_iff {a b : SortedBlockCursor B V} : ComparableForLoserTree.lt a b = true ↔ b.ckey = ⊤ ∨ a.ckey < b.ckey := by
  cases ha : a.finished <;> cases hb : b.finished <;> simp [ComparableForLoserTree.lt, ckey, ha, hb]

lemma compat_curLe : Compat (curLe (B := B) (V := V)) := by
  refine ⟨le_trans, fun {a b} h => ?_, fun {a b} h => ?_⟩
  · rcases lt_iff.1 h with htop | hlt
    · exact le_top.trans_eq htop.symm
    · exact hlt.le
  · refine not_lt.1 fun hlt => ?_
    rw [lt_iff.2 (.inr hlt)] at h
    cases h

lemma wf_congr {losers : List (Option ℕ)} {cs cs' : List (SortedBlockCursor B V)}
    (h : LoserTree.Wf curLe ⟨losers, cs⟩) (hv : cs'.map ckey = cs.map ckey) : LoserTree.Wf curLe ⟨losers, cs'⟩ :=
  LoserTree.Wf.congr (f := ckey) (r := (· ≤ ·)) h hv

end Order

end SortedBlockCursor

end Auron.Sort
