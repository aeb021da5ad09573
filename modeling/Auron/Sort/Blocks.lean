import Auron.Sort.KeyCodec

/-!
# Sorted blocks of `sort_exec.rs`

A sorted block is a sequence of batches, each with the encoded keys of its rows, to be read once from the front:
`next_batch` hands out the next batch, `next_key` moves on to the next key of that batch.  There are two of them.

* `InMemSortedBlock` keeps batches and key collectors in memory.  Its row index starts each batch at `usize::MAX`, so
  that the first `next_key` wraps it around to `0`; before the first batch a spare collector stands in front of the
  others, to be popped with the first batch.
* `SpillSortedBlock` reads the stream a `SpillSortedBlockBuilder` wrote: each batch is followed by its squeezed keys.

Rows are lists of cells, a record batch is the list of its rows, and `Rec` is a row with its key.  `LawfulSortedBlock`
says what the merge asks of a block: a relation `Rep` to what the block has still to deliver, and what each operation
does to it.  Both kinds of block are lawful.
-/

namespace Auron.Sort

open Auron.Io List InMemRowsKeyCollector

/-- How an operation ends without a result: with an error its caller sees, or with a panic; or a loop of the model has
used up the rounds it was given. -/
inductive Fault where
  | err (e : IoErr)
  | panic
  | outOfFuel
  deriving DecidableEq

def usizeMax : ℕ := 2 ^ 64 - 1

/-- The trait `SortedBlock`.  The methods on `&mut self` return the block after them, also when they fail. -/
class SortedBlock (B : Type) (V : outParam Type) where
  isSingleBatch : B → Bool
  nextBatch : B → Except Fault (Option (List (List V))) × B
  nextKey : B → Except Fault Unit × B
  curKey : B → Bytes
  isEqualToPrevKey : B → Bool

/-- A record of a sorted block: its encoded key, and its row without the pruned columns. -/
abbrev Rec (V : Type) := Bytes × List V

variable {V : Type}

/-! ### Blocks in memory -/

structure InMemSortedBlock (V : Type) where
  sortedKeys : List InMemRowsKeyCollector
  sortedBatches : List (List (List V))
  curRowIdx : ℕ
  deriving DecidableEq

namespace InMemSortedBlock

section Block

variable (b : InMemSortedBlock V)

def nextBatch : Except Fault (Option (List (List V))) × InMemSortedBlock V :=
  match b.sortedBatches with
  | [] => (.ok none, b)
  | batch :: batches =>
    match b.sortedKeys with
    | [] => (.error .panic, { b with sortedBatches := batches })
    | _ :: keys => (.ok (some batch), ⟨keys, batches, usizeMax⟩)

/-- `next_key`: the addition wraps around. -/
def nextKey : Except Fault Unit × InMemSortedBlock V :=
  (.ok (), { b with curRowIdx := (b.curRowIdx + 1) % 2 ^ 64 })

/-- `self.sorted_keys[0].key(i)`. -/
def keyAt (i : ℕ) : Bytes := (b.sortedKeys.head?.map (·.key i)).getD []

end Block

instance : SortedBlock (InMemSortedBlock V) V where
  isSingleBatch b := b.sortedBatches.length == 1
  nextBatch := nextBatch
  nextKey := nextKey
  curKey b := b.keyAt b.curRowIdx
  isEqualToPrevKey b := decide (0 < b.curRowIdx) && b.keyAt (b.curRowIdx - 1) == b.keyAt b.curRowIdx

end InMemSortedBlock

structure InMemSortedBlockBuilder (V : Type) where
  sortedKeys : List InMemRowsKeyCollector := []
  sortedBatches : List (List (List V)) := []

def InMemSortedBlockBuilder.addBatchAndKeys (bb : InMemSortedBlockBuilder V) (batch : List (List V))
    (keys : InMemRowsKeyCollector) : InMemSortedBlockBuilder V :=
  ⟨bb.sortedKeys ++ [keys], bb.sortedBatches ++ [batch]⟩

def InMemSortedBlockBuilder.finish (bb : InMemSortedBlockBuilder V) : InMemSortedBlock V :=
  ⟨{} :: bb.sortedKeys, bb.sortedBatches, 0⟩

/-! ### Blocks in a spill -/

/-- The serialization of batches and the compression of spills, with the round trips assumed of them: a batch reads
back in front of any further bytes, the end of the stream is no batch, and a compressed stream decompresses. -/
structure SpillIo (V : Type) where
  writeOneBatch : List (List V) → Bytes
  readOneBatch : Bytes → Except IoErr (Option (List (List V))) × Bytes
  compress : Bytes → Bytes
  decompress : Bytes → Bytes
  read_write : ∀ batch rest, readOneBatch (writeOneBatch batch ++ rest) = (.ok (some batch), rest)
  read_nil : readOneBatch [] = (.ok none, [])
  decompress_compress : ∀ bytes, decompress (compress bytes) = bytes

structure SpillSortedBlock (io : SpillIo V) where
  spillReader : Bytes
  curKeyReader : SortedKeysReader

namespace SpillSortedBlock

variable {io : SpillIo V}

def nextBatch (b : SpillSortedBlock io) : Except Fault (Option (List (List V))) × SpillSortedBlock io :=
  match io.readOneBatch b.spillReader with
  | (.error e, rest) => (.error (.err e), { b with spillReader := rest })
  | (.ok batch, rest) => (.ok batch, { b with spillReader := rest })

def nextKey (b : SpillSortedBlock io) : Except Fault Unit × SpillSortedBlock io :=
  match b.curKeyReader.nextKey b.spillReader with
  | (.error e, r, rest) => (.error (.err e), ⟨rest, r⟩)
  | (.ok (), r, rest) => (.ok (), ⟨rest, r⟩)

instance : SortedBlock (SpillSortedBlock io) V where
  isSingleBatch _ := false
  nextBatch := nextBatch
  nextKey := nextKey
  curKey b := b.curKeyReader.curKey
  isEqualToPrevKey b := b.curKeyReader.isEqualToPrev

end SpillSortedBlock

/-- `SpillSortedBlockBuilder`, with what went through its compressed writer. -/
structure SpillSortedBlockBuilder (io : SpillIo V) where
  written : Bytes := []

def SpillSortedBlockBuilder.addBatchAndKeys {io : SpillIo V} (bb : SpillSortedBlockBuilder io) (batch : List (List V))
    (keys : SqueezeKeyCollector) : SpillSortedBlockBuilder io :=
  ⟨bb.written ++ io.writeOneBatch batch ++ keys.store⟩

def SpillSortedBlockBuilder.finish {io : SpillIo V} (bb : SpillSortedBlockBuilder io) : SpillSortedBlock io :=
  ⟨io.decompress (io.compress bb.written), {}⟩

/-! ### What a merge asks of a block -/

open SortedBlock in
/-- A block that delivers what it represents.  `Rep b prev pend rest`: the key delivered last is `prev`, the keys still
to come for the batch handed out last are `pend`, and after it come the batches `rest`. -/
class LawfulSortedBlock (B : Type) (V : outParam Type) [SortedBlock B V] where
  Rep : B → Option Bytes → List Bytes → List (List (Rec V)) → Prop
  single : ∀ {b : B} {chunks}, Rep b none [] chunks → isSingleBatch b = true → chunks.length = 1
  nextBatch_nil : ∀ {b : B} {prev}, Rep b prev [] [] → ∃ b', nextBatch b = (.ok none, b')
  nextBatch_cons : ∀ {b : B} {prev c rest}, Rep b prev [] (c :: rest) →
    ∃ b', nextBatch b = (.ok (some (c.map Prod.snd)), b') ∧ Rep b' prev (c.map Prod.fst) rest
  nextKey_cons : ∀ {b : B} {prev k pend rest}, Rep b prev (k :: pend) rest →
    ∃ b', nextKey b = (.ok (), b') ∧ Rep b' (some k) pend rest ∧ curKey b' = k ∧
      (isEqualToPrevKey b' = true → ∀ p, prev = some p → p = k)

/-! ### Blocks in memory are lawful -/

structure InMemSortedBlock.Rep (b : InMemSortedBlock V) (prev : Option Bytes) (pend : List Bytes)
    (rest : List (List (Rec V))) : Prop where
  batches : b.sortedBatches = rest.map fun c => c.map Prod.snd
  keys : b.sortedKeys.tail = rest.map fun c => ofKeys (c.map Prod.fst)
  head : b.sortedKeys ≠ []
  small : ∀ c ∈ rest, c.length ≤ usizeMax
  /-- The place in the batch handed out last. -/
  place : pend ≠ [] → ∃ keys i, b.sortedKeys.head? = some (ofKeys keys) ∧
    (b.curRowIdx + 1) % 2 ^ 64 = i ∧ keys.drop i = pend ∧ keys.length ≤ usizeMax ∧
    (0 < i → b.curRowIdx = i - 1 ∧ keys[i - 1]? = prev)

namespace InMemSortedBlock.Rep

variable {b : InMemSortedBlock V} {prev : Option Bytes} {pend : List Bytes} {rest : List (List (Rec V))}

lemma nextBatch_cons {c : List (Rec V)} (h : InMemSortedBlock.Rep b prev [] (c :: rest)) :
    ∃ b', b.nextBatch = (.ok (some (c.map Prod.snd)), b') ∧ b'.Rep prev (c.map Prod.fst) rest := by
  obtain ⟨hb, hk, hne, hs, -⟩ := h
  unfold nextBatch
  rw [hb]
  cases hkeys : b.sortedKeys with
  | nil => exact absurd hkeys hne
  | cons k0 keys =>
    rw [hkeys, tail_cons] at hk
    refine ⟨_, rfl, ⟨rfl, by simp [hk], by simp [hk], fun d hd => hs d (mem_cons_of_mem _ hd), fun _ => ?_⟩⟩
    refine ⟨c.map Prod.fst, 0, by simp [hk], by simp [usizeMax], rfl, ?_, by omega⟩
    simpa using hs c mem_cons_self

lemma nextKey_cons {k : Bytes} (h : InMemSortedBlock.Rep b prev (k :: pend) rest) :
    ∃ b', b.nextKey = (.ok (), b') ∧ b'.Rep (some k) pend rest ∧ b'.keyAt b'.curRowIdx = k ∧
      ((decide (0 < b'.curRowIdx) && b'.keyAt (b'.curRowIdx - 1) == b'.keyAt b'.curRowIdx) = true →
        ∀ p, prev = some p → p = k) := by
  obtain ⟨hb, hk, hne, hs, hplace⟩ := h
  obtain ⟨keys, i, hhead, hi, hdrop, hlen, hprev⟩ := hplace (by simp)
  have hlt : i < keys.length := by
    by_contra hge
    rw [drop_eq_nil_of_le (by omega)] at hdrop
    cases hdrop
  have hget : keys[i]? = some k := by
    have := congrArg head? hdrop
    simpa using this
  have hkey : (⟨b.sortedKeys, b.sortedBatches, i⟩ : InMemSortedBlock V).keyAt i = k := by
    simp [keyAt, hhead, key_ofKeys hget]
  refine ⟨⟨b.sortedKeys, b.sortedBatches, i⟩, by rw [nextKey, hi], ?_, hkey, ?_⟩
  · refine ⟨hb, hk, hne, hs, fun hpend => ⟨keys, i + 1, hhead, ?_, ?_, hlen, fun _ => ⟨rfl, hget⟩⟩⟩
    · have : i + 1 < 2 ^ 64 := by
        unfold usizeMax at hlen
        omega
      exact Nat.mod_eq_of_lt this
    · have := congrArg tail hdrop
      simpa using this
  · intro heq p hp
    simp only [Bool.and_eq_true, decide_eq_true_eq] at heq
    obtain ⟨h0, heq⟩ := heq
    rw [hkey] at heq
    have hget' : keys[i - 1]? = some p := by rw [(hprev h0).2, hp]
    simpa [keyAt, hhead, key_ofKeys hget'] using heq

end InMemSortedBlock.Rep

instance : LawfulSortedBlock (InMemSortedBlock V) V where
  Rep := InMemSortedBlock.Rep
  single {b chunks} h hs := by
    have hlen : b.sortedBatches.length = 1 := by simpa [SortedBlock.isSingleBatch] using hs
    rw [h.batches, length_map] at hlen
    exact hlen
  nextBatch_nil {b prev} h := by
    have : b.sortedBatches = [] := by simpa using h.batches
    exact ⟨b, by simp [SortedBlock.nextBatch, InMemSortedBlock.nextBatch, this]⟩
  nextBatch_cons h := h.nextBatch_cons
  nextKey_cons h := h.nextKey_cons

/-- The block `insert_batch` builds from sorted records. -/
def InMemSortedBlock.ofRecs (c : List (Rec V)) : InMemSortedBlock V :=
  (({} : InMemSortedBlockBuilder V).addBatchAndKeys (c.map Prod.snd)
    (ofKeys (c.map Prod.fst))).finish

lemma InMemSortedBlock.rep_ofRecs {c : List (Rec V)} (h : c.length ≤ usizeMax) : (ofRecs c).Rep none [] [c] := by
  refine ⟨rfl, rfl, by simp [ofRecs, InMemSortedBlockBuilder.finish], ?_, by simp⟩
  intro d hd
  obtain rfl := mem_singleton.1 hd
  exact h

/-! ### Blocks in a spill are lawful -/

/-- A batch and its keys, as `add_batch_and_keys` writes them. -/
def SpillIo.chunkBytes (io : SpillIo V) (c : List (Rec V)) : Bytes :=
  io.writeOneBatch (c.map Prod.snd) ++ squeeze {} (c.map Prod.fst)

/-- What a block in a spill has still to deliver: its keys from here on do not decrease, and the writer of the current
batch stood on the key the reader stands on, or at its start. -/
structure SpillSortedBlock.Rep {io : SpillIo V} (b : SpillSortedBlock io) (prev : Option Bytes) (pend : List Bytes)
    (rest : List (List (Rec V))) : Prop where
  sorted : (b.curKeyReader.curKey :: (pend ++ rest.flatten.map Prod.fst)).Pairwise (· ≤ ·)
  cur : ∀ p, prev = some p → b.curKeyReader.curKey = p
  bytes : ∃ w : SortedKeysWriter, (w.curKey = [] ∨ w.curKey = b.curKeyReader.curKey) ∧
    b.spillReader = squeeze w pend ++ rest.flatMap io.chunkBytes

namespace SpillSortedBlock.Rep

variable {io : SpillIo V} {b : SpillSortedBlock io} {prev : Option Bytes} {pend : List Bytes}
  {rest : List (List (Rec V))}

lemma nextBatch_nil (h : SpillSortedBlock.Rep b prev [] []) : ∃ b', b.nextBatch = (.ok none, b') := by
  obtain ⟨w, -, hb⟩ := h.bytes
  refine ⟨b, ?_⟩
  have hnil : b.spillReader = [] := by simpa [squeeze] using hb
  unfold nextBatch
  rw [hnil, io.read_nil, ← hnil]

lemma nextBatch_cons {c : List (Rec V)} (h : SpillSortedBlock.Rep b prev [] (c :: rest)) :
    ∃ b', b.nextBatch = (.ok (some (c.map Prod.snd)), b') ∧ b'.Rep prev (c.map Prod.fst) rest := by
  obtain ⟨hs, hcur, w, -, hb⟩ := h
  have hbytes : b.spillReader =
      io.writeOneBatch (c.map Prod.snd) ++ (squeeze {} (c.map Prod.fst) ++ rest.flatMap io.chunkBytes) := by
    simpa [squeeze, SpillIo.chunkBytes] using hb
  refine ⟨{ b with spillReader := squeeze {} (c.map Prod.fst) ++ rest.flatMap io.chunkBytes }, ?_, ?_⟩
  · unfold nextBatch
    rw [hbytes, io.read_write]
  · exact ⟨by simpa using hs, hcur, {}, .inl rfl, rfl⟩

lemma nextKey_cons {k : Bytes} (h : SpillSortedBlock.Rep b prev (k :: pend) rest) :
    ∃ b', b.nextKey = (.ok (), b') ∧ b'.Rep (some k) pend rest ∧ b'.curKeyReader.curKey = k ∧
      (b'.curKeyReader.isEqualToPrev = true → ∀ p, prev = some p → p = k) := by
  obtain ⟨hs, hcur, w, hw, hb⟩ := h
  obtain ⟨hle, htail⟩ := pairwise_cons.1 hs
  have hk : b.curKeyReader.curKey ≤ k := hle k (by simp)
  have hwk : w.curKey ≤ k := by
    rcases hw with hw | hw
    · rw [hw]
      exact nil_le _
    · rw [hw]
      exact hk
  have hat : ReaderAt b.curKeyReader w k := by
    refine ⟨hwk, ?_⟩
    rcases hw with hw | hw
    · exact .inr ⟨hw, hk⟩
    · exact .inl hw.symm
  obtain ⟨r', hread, hr', heq⟩ := SortedKeysReader.nextKey_writeKey hat
    (squeeze (w.writeKey k).2 pend ++ rest.flatMap io.chunkBytes)
  refine ⟨⟨squeeze (w.writeKey k).2 pend ++ rest.flatMap io.chunkBytes, r'⟩, ?_, ?_, hr', ?_⟩
  · unfold nextKey
    rw [hb, squeeze, append_assoc, hread]
  · refine ⟨?_, fun p hp => ?_, (w.writeKey k).2, .inr ?_, rfl⟩
    · simpa only [hr', cons_append] using htail
    · rw [hr']
      exact Option.some.inj hp
    · rw [SortedKeysWriter.curKey_writeKey hwk, hr']
  · intro he p hp
    rw [← hcur p hp]
    exact heq he

end SpillSortedBlock.Rep

instance {io : SpillIo V} : LawfulSortedBlock (SpillSortedBlock io) V where
  Rep := SpillSortedBlock.Rep
  single _ hs := by cases hs
  nextBatch_nil h := h.nextBatch_nil
  nextBatch_cons h := h.nextBatch_cons
  nextKey_cons h := h.nextKey_cons

lemma written_foldl_addBatchAndKeys {io : SpillIo V} (chunks : List (List (Rec V))) :
    ∀ bb : SpillSortedBlockBuilder io,
    (chunks.foldl (fun bb c => bb.addBatchAndKeys (c.map Prod.snd) (SqueezeKeyCollector.ofKeys (c.map Prod.fst)))
      bb).written = bb.written ++ chunks.flatMap io.chunkBytes := by
  induction chunks with
  | nil => intro bb; simp
  | cons c chunks ih =>
    intro _
    rw [foldl_cons, ih]
    simp [SpillSortedBlockBuilder.addBatchAndKeys, SpillIo.chunkBytes, store_ofKeys]

/-- **A spill delivers the batches it was built from**, if their keys do not decrease. -/
theorem SpillSortedBlock.rep_finish (io : SpillIo V) {chunks : List (List (Rec V))}
    (h : (chunks.flatten.map Prod.fst).Pairwise (· ≤ ·)) :
    (chunks.foldl (fun bb c => bb.addBatchAndKeys (c.map Prod.snd) (SqueezeKeyCollector.ofKeys (c.map Prod.fst)))
      ({} : SpillSortedBlockBuilder io)).finish.Rep none [] chunks := by
  refine ⟨?_, by simp, {}, .inl rfl, ?_⟩
  · exact pairwise_cons.2 ⟨fun k _ => nil_le k, by simpa using h⟩
  · unfold SpillSortedBlockBuilder.finish
    rw [io.decompress_compress, written_foldl_addBatchAndKeys]
    rfl

end Auron.Sort
