import Auron.Algorithm.RadixQueue
import Auron.Lib.Pops
import Mathlib.Algebra.BigOperators.Group.List.Basic
import Mathlib.Data.BitVec

/-!
# Merging partitioned data by offsets (`common/offsetted.rs`)

Each input is cut into partitions by offsets.  A cursor stands at the first partition of its input that is not empty, or
behind the last one; the iterator takes, through a radix queue, the slice of a cursor with the smallest partition and
collects the offsets of the merged data on the way.

What is left of an input is the queue of its slices (`slicesFrom`).  A step of the iterator pops a slice of the smallest
partition (`next_cases`), so a whole run is a merge of these queues (`MergePops`).  The offsets are an invariant of the
slices that have been taken (`Counted`).  The type of the offsets is the unsigned integers of some width, with wrapping
arithmetic; the data of an input are handed out by reference, here by the number of the input.
-/

namespace Auron.Common

open Auron.Algorithm Auron.Lib List
open Option (bind_some map_some)

/-! ### The iterator -/

structure Offsetted (w : ℕ) (T : Type) where
  offsets : List (BitVec w)
  data : T

structure OffsettedCursor (w : ℕ) (T : Type) where
  offsetted : Offsetted w T
  cur : ℕ

structure OffsettedMergeIterator (w : ℕ) (T : Type) where
  numPartitions : ℕ
  cursors : RadixQueue (OffsettedCursor w T)
  curPartitionId : ℕ
  curOffset : BitVec w
  mergedOffsets : List (BitVec w)

/-- What the iterator yields: a partition, the number of the input whose data are referred to, and the range. -/
structure Slice (w : ℕ) where
  partition : ℕ
  input : ℕ
  start : BitVec w
  stop : BitVec w
deriving DecidableEq

variable {w : ℕ} {T : Type}

instance : KeyForRadixQueue (OffsettedCursor w T) := ⟨OffsettedCursor.cur⟩

/-- `Offsetted::offset`; `none` if an index is out of bounds. -/
def Offsetted.offset (o : Offsetted w T) (i : ℕ) : Option (BitVec w × BitVec w) :=
  o.offsets[i]?.bind fun start => o.offsets[i + 1]?.map fun stop => (start, stop)

/-- The loop of `skip_empty_partitions`, which passes each offset at most once. -/
def skipFrom (offsets : List (BitVec w)) : ℕ → ℕ → ℕ
  | 0, cur => cur
  | fuel + 1, cur =>
    if cur + 1 < offsets.length ∧ offsets[cur + 1]? = offsets[cur]? then skipFrom offsets fuel (cur + 1) else cur

def OffsettedCursor.skipEmptyPartitions (c : OffsettedCursor w T) : OffsettedCursor w T :=
  { c with cur := skipFrom c.offsetted.offsets (c.offsetted.offsets.length - c.cur) c.cur }

def OffsettedCursor.new (o : Offsetted w T) : OffsettedCursor w T :=
  (⟨o, 0⟩ : OffsettedCursor w T).skipEmptyPartitions

def resize {α : Type} (l : List α) (n : ℕ) (x : α) : List α := l.take n ++ replicate (n - l.length) x

namespace OffsettedMergeIterator

/-- `OffsettedMergeIterator::new`; `none` if there are no inputs. -/
def new (numPartitions : ℕ) (inputs : List (Offsetted w T)) : Option (OffsettedMergeIterator w T) :=
  if inputs = [] then none
  else
    let cursors := RadixQueue.new (inputs.map OffsettedCursor.new) numPartitions
    cursors.peek.map fun c => ⟨numPartitions, cursors, c.cur, 0, []⟩

def peekNextPartitionId (it : OffsettedMergeIterator w T) : Option ℕ := it.cursors.peek.map OffsettedCursor.cur

def next (it : OffsettedMergeIterator w T) : Option (Option (Slice w) × OffsettedMergeIterator w T) :=
  it.cursors.top.bind fun i =>
    it.cursors.values[i]?.bind fun minCursor =>
      let it := { it with
        curPartitionId := minCursor.cur
        mergedOffsets := resize it.mergedOffsets (minCursor.cur + 1) it.curOffset }
      if it.numPartitions ≤ minCursor.cur then some (none, it)
      else
        (minCursor.offsetted.offset minCursor.cur).bind fun range =>
          (it.cursors.setTop { minCursor with cur := minCursor.cur + 1 }.skipEmptyPartitions).map fun cursors =>
            (some ⟨minCursor.cur, i, range.1, range.2⟩,
              { it with cursors, curOffset := it.curOffset + range.2 - range.1 })

/-- `next` until it returns `None`; `none` also if that takes more calls. -/
def collect : ℕ → OffsettedMergeIterator w T → Option (List (Slice w) × OffsettedMergeIterator w T)
  | 0, _ => none
  | fuel + 1, it =>
    it.next.bind fun
      | (none, it) => some ([], it)
      | (some x, it) => (collect fuel it).map fun r => (x :: r.1, r.2)

/-- `OffsettedMergeIterator::next_partition_chunk`: the partition of the chunk, if there is one. -/
def nextPartitionChunk (it : OffsettedMergeIterator w T) : Option (Option ℕ) :=
  it.peekNextPartitionId.map fun id => if id < it.numPartitions then some id else none

def chunkNext (it : OffsettedMergeIterator w T) (chunkPartitionId : ℕ) :
    Option (Option (Slice w) × OffsettedMergeIterator w T) :=
  it.peekNextPartitionId.bind fun id => if id = chunkPartitionId then it.next else some (none, it)

def consumeChunk : ℕ → OffsettedMergeIterator w T → ℕ → Option (List (Slice w) × OffsettedMergeIterator w T)
  | 0, _, _ => none
  | fuel + 1, it, id =>
    (it.chunkNext id).bind fun
      | (none, it) => some ([], it)
      | (some x, it) => (consumeChunk fuel it id).map fun r => (x :: r.1, r.2)

/-- Chunk after chunk is fully consumed, until there is none. -/
def chunks : ℕ → OffsettedMergeIterator w T → Option (List (ℕ × List (Slice w)) × OffsettedMergeIterator w T)
  | 0, _ => none
  | fuel + 1, it =>
    it.nextPartitionChunk.bind fun
      | none => some ([], it)
      | some id =>
        (consumeChunk (fuel + 1) it id).bind fun c => (chunks fuel c.2).map fun r => ((id, c.1) :: r.1, r.2)

end OffsettedMergeIterator

open OffsettedMergeIterator

/-! ### The slices of an input -/

def slice (i : ℕ) (offsets : List (BitVec w)) (p : ℕ) : Option (Slice w) :=
  offsets[p]?.bind fun start => offsets[p + 1]?.bind fun stop =>
    if start = stop then none else some ⟨p, i, start, stop⟩

def slicesFrom (P i : ℕ) (offsets : List (BitVec w)) (cur : ℕ) : List (Slice w) :=
  (range' cur (P - cur)).filterMap (slice i offsets)

def slices (P : ℕ) (inputs : List (Offsetted w T)) : List (List (Slice w)) :=
  inputs.mapIdx fun i o => slicesFrom P i o.offsets 0

/-- The cursor stands at a slice, or behind the last one. -/
structure Ready (P : ℕ) (c : OffsettedCursor w T) : Prop where
  length_offsets : c.offsetted.offsets.length = P + 1
  cur_le : c.cur ≤ P
  at_slice : ∀ i, c.cur < P → (slice i c.offsetted.offsets c.cur).isSome = true

variable {P i : ℕ} {offsets : List (BitVec w)}

lemma slicesFrom_of_lt {cur : ℕ} (h : cur < P) :
    slicesFrom P i offsets cur = (slice i offsets cur).toList ++ slicesFrom P i offsets (cur + 1) := by
  obtain ⟨n, hn⟩ : ∃ n, P - cur = n + 1 := ⟨P - cur - 1, by omega⟩
  have hrest : P - (cur + 1) = n := by omega
  rw [slicesFrom, slicesFrom, hn, hrest, range'_succ, filterMap_cons]
  cases slice i offsets cur <;> rfl

variable {p : ℕ} {x : Slice w}

lemma offset_eq_some_iff {o : Offsetted w T} {s e : BitVec w} :
    o.offset p = some (s, e) ↔ o.offsets[p]? = some s ∧ o.offsets[p + 1]? = some e := by
  simp [Offsetted.offset, Option.bind_eq_some_iff]

lemma slice_eq_some : slice i offsets p = some x ↔
      offsets[p]? = some x.start ∧ offsets[p + 1]? = some x.stop ∧ x.start ≠ x.stop ∧ x.partition = p ∧ x.input = i := by
  constructor
  · intro h
    obtain ⟨s, hs, h⟩ := Option.bind_eq_some_iff.1 h
    obtain ⟨e, he, h⟩ := Option.bind_eq_some_iff.1 h
    obtain ⟨hse, h⟩ := Option.ite_none_left_eq_some.1 h
    obtain rfl := Option.some.inj h
    exact ⟨hs, he, hse, rfl, rfl⟩
  · rintro ⟨hs, he, hne, rfl, rfl⟩
    rw [slice, hs, bind_some, he, bind_some, if_neg hne]

lemma skipFrom_spec (hlen : offsets.length = P + 1) : ∀ fuel cur, cur ≤ P → offsets.length - cur ≤ fuel →
      cur ≤ skipFrom offsets fuel cur ∧ skipFrom offsets fuel cur ≤ P ∧
        (∀ i, slicesFrom P i offsets (skipFrom offsets fuel cur) = slicesFrom P i offsets cur) ∧
        (∀ i, skipFrom offsets fuel cur < P → (slice i offsets (skipFrom offsets fuel cur)).isSome = true) := by
  intro fuel
  induction fuel with
  | zero => exact fun cur hcur hfuel => by omega
  | succ fuel ih =>
    intro cur hcur _
    by_cases hempty : cur + 1 < offsets.length ∧ offsets[cur + 1]? = offsets[cur]?
    · obtain ⟨_, hP, hrest, hat⟩ := ih (cur + 1) (by omega) (by omega)
      rw [skipFrom, if_pos hempty]
      refine ⟨by omega, hP, fun i => ?_, hat⟩
      have hnone : slice i offsets cur = none := by
        rw [Option.eq_none_iff_forall_ne_some]
        intro x hx
        obtain ⟨hs, he, hne, -, -⟩ := slice_eq_some.1 hx
        rw [hempty.2, hs] at he
        exact hne (Option.some.inj he)
      rw [hrest i, slicesFrom_of_lt (by omega : cur < P), hnone]
      rfl
    · rw [skipFrom, if_neg hempty]
      refine ⟨le_rfl, hcur, fun i => rfl, fun i hlt => ?_⟩
      have hin : cur + 1 < offsets.length := by omega
      have hne : offsets[cur] ≠ offsets[cur + 1] := by
        intro heq
        refine hempty ⟨hin, ?_⟩
        rw [getElem?_eq_getElem hin, getElem?_eq_getElem (by omega : cur < offsets.length), heq]
      have hx : slice i offsets cur = some ⟨cur, i, offsets[cur], offsets[cur + 1]⟩ :=
        slice_eq_some.2 ⟨getElem?_eq_getElem _, getElem?_eq_getElem _, hne, rfl, rfl⟩
      rw [hx]
      rfl

lemma skipEmptyPartitions_spec {c : OffsettedCursor w T} (hlen : c.offsetted.offsets.length = P + 1)
    (hcur : c.cur ≤ P) : Ready P c.skipEmptyPartitions ∧ c.cur ≤ c.skipEmptyPartitions.cur ∧
      ∀ i, slicesFrom P i c.offsetted.offsets c.skipEmptyPartitions.cur = slicesFrom P i c.offsetted.offsets c.cur := by
  obtain ⟨hle, hP, hrest, hat⟩ := skipFrom_spec hlen _ c.cur hcur le_rfl
  exact ⟨⟨hlen, hP, hat⟩, hle, hrest⟩

/-! ### A step of the iterator -/

namespace OffsettedMergeIterator

def rest (it : OffsettedMergeIterator w T) : List (List (Slice w)) :=
  it.cursors.values.mapIdx fun i c => slicesFrom it.numPartitions i c.offsetted.offsets c.cur

structure Wf (it : OffsettedMergeIterator w T) : Prop where
  queue : it.cursors.Wf
  numKeys : it.cursors.numKeys = it.numPartitions + 1
  ready : ∀ c ∈ it.cursors.values, Ready it.numPartitions c

variable {it : OffsettedMergeIterator w T}

lemma mem_rest {x : Slice w} (h : x ∈ it.rest.flatten) :
    ∃ c i, c ∈ it.cursors.values ∧ x ∈ slicesFrom it.numPartitions i c.offsetted.offsets c.cur := by
  obtain ⟨q, hq, hx⟩ := mem_flatten.1 h
  obtain ⟨i, hi, rfl⟩ := mem_mapIdx.1 hq
  exact ⟨_, i, getElem_mem hi, hx⟩

lemma le_partition_of_mem {P i cur : ℕ} {offsets : List (BitVec w)} {x : Slice w}
    (h : x ∈ slicesFrom P i offsets cur) : cur ≤ x.partition ∧ x.partition < P := by
  obtain ⟨p, hp, hx⟩ := mem_filterMap.1 h
  obtain ⟨-, -, -, rfl, -⟩ := slice_eq_some.1 hx
  obtain ⟨j, _, _⟩ := mem_range'.1 hp
  omega

lemma Wf.peek_spec (h : it.Wf) :
    ∃ i c, it.cursors.top = some i ∧ it.cursors.values[i]? = some c ∧ Ready it.numPartitions c ∧
      it.peekNextPartitionId = some c.cur ∧ ∀ x ∈ it.rest.flatten, c.cur ≤ x.partition := by
  obtain ⟨i, c, htop, hc, hkey, -⟩ := h.queue.top_spec
  refine ⟨i, c, htop, hc, h.ready c (mem_of_getElem? hc), ?_, fun x hx => ?_⟩
  · rw [peekNextPartitionId, RadixQueue.peek, htop, bind_some, hc, map_some]
  · obtain ⟨u, j, hu, hx⟩ := mem_rest hx
    have hle : c.cur ≤ u.cur := hkey.trans_le (h.queue.least u hu)
    exact hle.trans (le_partition_of_mem hx).1

/-- **A step of the iterator** ends it, if nothing is left, or takes a slice of the smallest partition that is left. -/
theorem Wf.next_cases (h : it.Wf) : (it.rest.flatten = [] ∧ it.peekNextPartitionId = some it.numPartitions ∧
        it.next = some (none, { it with
          curPartitionId := it.numPartitions
          mergedOffsets := resize it.mergedOffsets (it.numPartitions + 1) it.curOffset })) ∨
      ∃ i x t it', it.rest[i]? = some (x :: t) ∧ (∀ y ∈ it.rest.flatten, x.partition ≤ y.partition) ∧
        x.partition < it.numPartitions ∧ it.peekNextPartitionId = some x.partition ∧ it.next = some (some x, it') ∧ it'.Wf ∧
        it'.rest = it.rest.set i t ∧ it'.numPartitions = it.numPartitions ∧
        it'.curOffset = it.curOffset + x.stop - x.start ∧
        it'.mergedOffsets = resize it.mergedOffsets (x.partition + 1) it.curOffset := by
  obtain ⟨i, c, htop, hc, hready, hpeek, hleast⟩ := h.peek_spec
  rcases Nat.eq_or_lt_of_le hready.cur_le with hcur | hcur
  · refine .inl ⟨?_, hcur ▸ hpeek, ?_⟩
    · refine eq_nil_iff_forall_not_mem.2 fun x hx => ?_
      obtain ⟨u, j, -, hu⟩ := mem_rest hx
      have := hleast x hx
      have := (le_partition_of_mem hu).2
      omega
    · simp only [next, htop, bind_some, hc, hcur, le_refl, if_true]
  · obtain ⟨x, hx⟩ := Option.isSome_iff_exists.1 (hready.at_slice i hcur)
    obtain ⟨hs, he, -, hpart, hinput⟩ := slice_eq_some.1 hx
    have hoffset := offset_eq_some_iff.2 ⟨hs, he⟩
    obtain ⟨hready', hgrow, hrest⟩ :=
      skipEmptyPartitions_spec (c := { c with cur := c.cur + 1 }) hready.length_offsets hcur
    have hgrow' : KeyForRadixQueue.rdx c ≤
        KeyForRadixQueue.rdx ({ c with cur := c.cur + 1 } : OffsettedCursor w T).skipEmptyPartitions :=
      (Nat.le_succ _).trans hgrow
    obtain ⟨cursors, hset, hwf, hvalues, hkeys⟩ := h.queue.setTop_spec htop hc hgrow'
      (by rw [h.numKeys]; exact Nat.lt_succ_of_le hready'.cur_le)
    have hfront : it.rest[i]? = some (x :: slicesFrom it.numPartitions i c.offsetted.offsets (c.cur + 1)) := by
      rw [rest, getElem?_mapIdx, hc, map_some, slicesFrom_of_lt hcur, hx]
      rfl
    have hset' : x = ⟨c.cur, i, x.start, x.stop⟩ := by
      rw [← hpart, ← hinput]
    refine .inr ⟨i, x, _, ⟨it.numPartitions, cursors, c.cur, it.curOffset + x.stop - x.start,
      resize it.mergedOffsets (x.partition + 1) it.curOffset⟩,
      hfront, fun y hy => hpart ▸ hleast y hy, hpart ▸ hcur, hpart ▸ hpeek,
      ?_, ⟨hwf, ?_, ?_⟩, ?_, rfl, rfl, rfl⟩
    · simp only [next, htop, bind_some, hc, if_neg (Nat.not_le_of_lt hcur), hoffset, hset, map_some]
      rw [← hset', hpart]
    · exact hkeys.trans h.numKeys
    · rw [hvalues]
      exact forall_mem_set h.ready hready' _
    · rw [rest, hvalues, mapIdx_set]
      exact congrArg _ (hrest i)

/-! ### The merged offsets -/

end OffsettedMergeIterator

def Slice.len (x : Slice w) : ℕ := x.stop.toNat - x.start.toNat

def lenBefore (xs : List (Slice w)) (p : ℕ) : ℕ := ((xs.filter fun x => x.partition < p).map Slice.len).sum

def lenAll (xs : List (Slice w)) : ℕ := (xs.map Slice.len).sum

variable {xs : List (Slice w)}

lemma lenBefore_eq_lenAll (h : ∀ x ∈ xs, x.partition < p) : lenBefore xs p = lenAll xs := by
  rw [lenBefore, lenAll, filter_eq_self.2 fun x hx => decide_eq_true (h x hx)]

lemma lenBefore_append_of_le (h : p ≤ x.partition) : lenBefore (xs ++ [x]) p = lenBefore xs p := by
  simp [lenBefore, Nat.not_lt_of_le h]

lemma lenBefore_perm {ys : List (Slice w)} (h : xs.Perm ys) (p : ℕ) : lenBefore xs p = lenBefore ys p :=
  ((h.filter _).map _).sum_eq

lemma resize_map_range {α : Type} (f : ℕ → α) {m n : ℕ} {x : α} (hmn : m ≤ n) (hx : ∀ p, m ≤ p → p < n → f p = x) :
    resize ((range m).map f) n x = (range n).map f := by
  refine ext_getElem? fun p => ?_
  rw [resize, take_of_length_le (by simpa using hmn)]
  rcases lt_or_ge p m with hp | hp
  · rw [getElem?_append_left (by simpa using hp)]
    simp [hp, hp.trans_le hmn]
  · rw [getElem?_append_right (by simpa using hp)]
    simp only [length_map, length_range, getElem?_map, getElem?_replicate]
    rcases lt_or_ge p n with hpn | hpn
    · rw [if_pos (by omega), getElem?_range hpn, map_some, hx p hp hpn]
    · rw [if_neg (by omega), getElem?_eq_none (by simpa using hpn), Option.map_none]

namespace OffsettedMergeIterator

/-- The offsets count the slices that have been taken: the current offset all of them, and the merged offsets, up to the
last partition taken, those of the partitions before each. -/
structure Counted (it : OffsettedMergeIterator w T) (done : List (Slice w)) : Prop where
  curOffset : it.curOffset = BitVec.ofNat w (lenAll done)
  mergedOffsets : it.mergedOffsets =
    (range it.mergedOffsets.length).map fun p => BitVec.ofNat w (lenBefore done p)
  taken : ∀ x ∈ done, x.partition < it.mergedOffsets.length
  left : ∀ x ∈ it.rest.flatten, it.mergedOffsets.length ≤ x.partition + 1
  length_le : it.mergedOffsets.length ≤ it.numPartitions + 1

variable {it : OffsettedMergeIterator w T} {done : List (Slice w)}

lemma Counted.resize_eq (h : it.Counted done) {n : ℕ} (hn : it.mergedOffsets.length ≤ n) :
    resize it.mergedOffsets n it.curOffset = (range n).map fun p => BitVec.ofNat w (lenBefore done p) := by
  rw [h.mergedOffsets]
  refine resize_map_range _ hn fun p hp _ => ?_
  rw [lenBefore_eq_lenAll fun x hx => (h.taken x hx).trans_le hp, h.curOffset]

lemma ofNat_add_sub {s e : BitVec w} (h : s ≤ e) (n : ℕ) :
    BitVec.ofNat w n + e - s = BitVec.ofNat w (n + (e.toNat - s.toNat)) := by
  have hle : s.toNat ≤ e.toNat := h
  obtain ⟨d, hd⟩ := Nat.exists_eq_add_of_le hle
  have he : e = s + BitVec.ofNat w d := by
    apply BitVec.eq_of_toNat_eq
    rw [BitVec.toNat_add, BitVec.toNat_ofNat, Nat.add_mod_mod, ← hd, Nat.mod_eq_of_lt e.isLt]
  rw [hd, Nat.add_sub_cancel_left, BitVec.ofNat_add, he, ← add_assoc, add_right_comm, add_sub_cancel_right]

lemma Counted.step {it' : OffsettedMergeIterator w T} (h : it.Counted done) {i : ℕ} {x : Slice w}
    {t : List (Slice w)} (hfront : it.rest[i]? = some (x :: t))
    (hleast : ∀ y ∈ it.rest.flatten, x.partition ≤ y.partition) (hx : x.start ≤ x.stop)
    (hbound : x.partition < it.numPartitions) (hrest : it'.rest = it.rest.set i t)
    (hnum : it'.numPartitions = it.numPartitions) (hcur : it'.curOffset = it.curOffset + x.stop - x.start)
    (hmerged : it'.mergedOffsets = resize it.mergedOffsets (x.partition + 1) it.curOffset) :
    it'.Counted (done ++ [x]) := by
  have hin : x ∈ it.rest.flatten := mem_flatten.2 ⟨_, mem_of_getElem? hfront, mem_cons_self⟩
  rw [h.resize_eq (h.left x hin)] at hmerged
  have hlength : it'.mergedOffsets.length = x.partition + 1 := by
    rw [hmerged, length_map, length_range]
  refine ⟨?_, ?_, ?_, ?_, ?_⟩
  · rw [hcur, h.curOffset, ofNat_add_sub hx]
    simp [lenAll, Slice.len]
  · rw [hlength, hmerged]
    refine map_congr_left fun p hp => ?_
    rw [lenBefore_append_of_le (Nat.le_of_lt_succ (mem_range.1 hp))]
  · intro y hy
    rw [hlength]
    rcases mem_append.1 hy with hy | hy
    · exact (h.taken y hy).trans_le (h.left x hin)
    · rw [mem_singleton.1 hy]
      exact Nat.lt_succ_self _
  · intro y hy
    rw [hrest] at hy
    rw [hlength]
    exact Nat.succ_le_succ (hleast y (MergePops.mem_of_mem_set hfront hy))
  · rw [hlength]
    omega

/-! ### Whole runs -/

def Ordered (it : OffsettedMergeIterator w T) : Prop := ∀ x ∈ it.rest.flatten, x.start ≤ x.stop

/-- **A whole run** merges what is left of the inputs and ends with the offsets of all that has been taken. -/
theorem Wf.collect_spec (h : it.Wf) (hord : it.Ordered) (hdone : it.Counted done) :
    ∃ ids out it', (∀ fuel, it.rest.flatten.length < fuel → it.collect fuel = some (out, it')) ∧
      MergePops Slice.partition it.rest ids out it'.rest ∧ it'.rest.flatten = [] ∧
      it'.mergedOffsets = (range (it.numPartitions + 1)).map fun p => BitVec.ofNat w (lenBefore (done ++ out) p) := by
  generalize hn : it.rest.flatten.length = n
  induction n using Nat.strong_induction_on generalizing it done with
  | _ n ih =>
    rcases h.next_cases with ⟨hempty, -, hnext⟩ |
      ⟨i, x, t, it', hfront, hleast, hbound, -, hnext, hwf, hrest, hnum, hcur, hmerged⟩
    · refine ⟨[], [], { it with
        curPartitionId := it.numPartitions
        mergedOffsets := resize it.mergedOffsets (it.numPartitions + 1) it.curOffset },
        fun fuel hfuel => ?_, .nil _, hempty, ?_⟩
      · obtain ⟨fuel, rfl⟩ := Nat.exists_eq_add_one.2 (Nat.zero_lt_of_lt hfuel)
        rw [collect, hnext]
        rfl
      · rw [append_nil]
        exact hdone.resize_eq hdone.length_le
    · have hin : x ∈ it.rest.flatten := mem_flatten.2 ⟨_, mem_of_getElem? hfront, mem_cons_self⟩
      have hcounted := hdone.step hfront hleast (hord x hin) hbound hrest hnum hcur hmerged
      have hord' : it'.Ordered := fun y hy => hord y (MergePops.mem_of_mem_set hfront (hrest ▸ hy))
      have hlen := (perm_flatten_set hfront).length_eq
      rw [length_cons, ← hrest] at hlen
      obtain ⟨ids, out, last, hcollect, hpops, hend, hoffsets⟩ := ih _ (by omega) hwf hord' hcounted rfl
      refine ⟨i :: ids, x :: out, last, fun fuel hfuel => ?_, .cons hfront hleast (hrest ▸ hpops), hend, ?_⟩
      · obtain ⟨fuel, rfl⟩ := Nat.exists_eq_add_one.2 (Nat.zero_lt_of_lt hfuel)
        simp only [collect, hnext, bind_some, hcollect fuel (by omega), map_some]
      · rw [hoffsets, hnum, append_assoc, singleton_append]

lemma Wf.consumeChunk_spec (h : it.Wf) {id : ℕ} (hid : id < it.numPartitions)
    (hleast : ∀ y ∈ it.rest.flatten, id ≤ y.partition) :
    ∃ ids out it', (∀ fuel, it.rest.flatten.length < fuel → it.consumeChunk fuel id = some (out, it')) ∧
      MergePops Slice.partition it.rest ids out it'.rest ∧ it'.Wf ∧ (∀ x ∈ out, x.partition = id) ∧
      (∀ y ∈ it'.rest.flatten, id < y.partition) ∧
      (it.peekNextPartitionId = some id → out ≠ []) := by
  generalize hn : it.rest.flatten.length = n
  induction n using Nat.strong_induction_on generalizing it with
  | _ n ih =>
    -- a chunk ends before another partition
    have hends : ∀ p, it.peekNextPartitionId = some p → p ≠ id →
        (∀ fuel, n < fuel → it.consumeChunk fuel id = some ([], it)) ∧
        (it.peekNextPartitionId = some id → ([] : List (Slice w)) ≠ []) := by
      refine fun p hpeek hne => ⟨fun fuel hfuel => ?_, fun heq => absurd (Option.some.inj (hpeek.symm.trans heq)) hne⟩
      obtain ⟨fuel, rfl⟩ := Nat.exists_eq_add_one.2 (Nat.zero_lt_of_lt hfuel)
      rw [consumeChunk, chunkNext, hpeek, bind_some, if_neg hne]
      rfl
    rcases h.next_cases with ⟨hempty, hpeek, -⟩ | ⟨i, x, t, it', hfront, hmin, -, hpeek, hnext, hwf, hrest, hnum, -⟩
    · obtain ⟨hchunk, hnone⟩ := hends _ hpeek (by omega)
      exact ⟨[], [], it, hchunk, .nil _, h, by simp, by simp [hempty], hnone⟩
    · by_cases hx : x.partition = id
      · have hlen := (perm_flatten_set hfront).length_eq
        rw [length_cons, ← hrest] at hlen
        have hleast' : ∀ y ∈ it'.rest.flatten, id ≤ y.partition := fun y hy =>
          hleast y (MergePops.mem_of_mem_set hfront (hrest ▸ hy))
        obtain ⟨ids, out, last, hchunk, hpops, hlast, hall, hend, -⟩ := ih _ (by omega) hwf (hnum ▸ hid) hleast' rfl
        refine ⟨i :: ids, x :: out, last, fun fuel hfuel => ?_, .cons hfront hmin (hrest ▸ hpops), hlast,
          forall_mem_cons.2 ⟨hx, hall⟩, hend, fun _ => cons_ne_nil _ _⟩
        obtain ⟨fuel, rfl⟩ := Nat.exists_eq_add_one.2 (Nat.zero_lt_of_lt hfuel)
        simp only [consumeChunk, chunkNext, hpeek, bind_some, if_pos hx, hnext, hchunk fuel (by omega), map_some]
      · -- the smallest partition that is left is a later one
        have hin : x ∈ it.rest.flatten := mem_flatten.2 ⟨_, mem_of_getElem? hfront, mem_cons_self⟩
        have hlt : id < x.partition := Nat.lt_of_le_of_ne (hleast x hin) (Ne.symm hx)
        obtain ⟨hchunk, hnone⟩ := hends _ hpeek hx
        exact ⟨[], [], it, hchunk, .nil _, h, by simp, fun y hy => hlt.trans_le (hmin y hy), hnone⟩

/-- **Chunk after chunk** is a merge too, with the partitions of the chunks increasing. -/
theorem Wf.chunks_spec (h : it.Wf) :
    ∃ ids cs it', (∀ fuel, it.rest.flatten.length < fuel → it.chunks fuel = some (cs, it')) ∧
      MergePops Slice.partition it.rest ids (cs.flatMap Prod.snd) it'.rest ∧ it'.rest.flatten = [] ∧
      (cs.map Prod.fst).Pairwise (· < ·) ∧ ∀ c ∈ cs, c.2 ≠ [] ∧ ∀ x ∈ c.2, x.partition = c.1 := by
  generalize hn : it.rest.flatten.length = n
  induction n using Nat.strong_induction_on generalizing it with
  | _ n ih =>
    rcases h.next_cases with ⟨hempty, hpeek, -⟩ | ⟨i, x, t, it', hfront, hmin, hbound, hpeek, -⟩
    · refine ⟨[], [], it, fun fuel hfuel => ?_, .nil _, hempty, .nil, by simp⟩
      obtain ⟨fuel, rfl⟩ := Nat.exists_eq_add_one.2 (Nat.zero_lt_of_lt hfuel)
      simp only [chunks, nextPartitionChunk, hpeek, map_some, lt_irrefl, if_false, bind_some]
    · obtain ⟨ids, out, next, hchunk, hpops, hwf, hall, hlater, hne⟩ := h.consumeChunk_spec hbound hmin
      have hlen := hpops.pops.perm.length_eq
      have hpos : 0 < out.length := length_pos_of_ne_nil (hne hpeek)
      rw [length_append] at hlen
      obtain ⟨ids', cs, last, hchunks, hpops', hend, hinc, hcs⟩ := ih next.rest.flatten.length (by omega) hwf rfl
      refine ⟨ids ++ ids', (x.partition, out) :: cs, last, fun fuel hfuel => ?_, ?_, hend, ?_, ?_⟩
      · obtain ⟨fuel, rfl⟩ := Nat.exists_eq_add_one.2 (Nat.zero_lt_of_lt hfuel)
        simp only [chunks, nextPartitionChunk, hpeek, map_some, if_pos hbound, bind_some,
          hchunk (fuel + 1) (hn ▸ hfuel), hchunks fuel (by omega)]
      · rw [flatMap_cons]
        exact hpops.append hpops'
      · refine pairwise_cons.2 ⟨fun p hp => ?_, hinc⟩
        -- a later chunk has a slice, which was left behind by this one
        obtain ⟨c, hc, rfl⟩ := mem_map.1 hp
        obtain ⟨hcne, hcall⟩ := hcs c hc
        obtain ⟨y, hy⟩ := exists_mem_of_ne_nil _ hcne
        rw [← hcall y hy]
        exact hlater y (hpops'.mem_of_mem_out (mem_flatMap.2 ⟨c, hc, hy⟩))
      · intro c hc
        rcases mem_cons.1 hc with rfl | hc
        · exact ⟨hne hpeek, hall⟩
        · exact hcs c hc

lemma new_spec {P : ℕ} {inputs : List (Offsetted w T)} (hne : inputs ≠ [])
    (hlen : ∀ o ∈ inputs, o.offsets.length = P + 1) :
    ∃ it, new P inputs = some it ∧ it.Wf ∧ it.numPartitions = P ∧ it.rest = slices P inputs ∧ it.Counted [] := by
  have hready : ∀ o ∈ inputs, Ready P (OffsettedCursor.new o) ∧
      ∀ i, slicesFrom P i o.offsets (OffsettedCursor.new o).cur = slicesFrom P i o.offsets 0 := by
    intro o ho
    obtain ⟨h, -, hrest⟩ := skipEmptyPartitions_spec (c := ⟨o, 0⟩) (hlen o ho) (Nat.zero_le P)
    exact ⟨h, hrest⟩
  have hwf : (RadixQueue.new (inputs.map OffsettedCursor.new) P).Wf := by
    refine RadixQueue.new_wf (by simpa using hne) fun c hc => ?_
    obtain ⟨o, ho, rfl⟩ := mem_map.1 hc
    exact (hready o ho).1.cur_le
  obtain ⟨i, c, htop, hc, -, -⟩ := hwf.top_spec
  have hrest : (⟨P, RadixQueue.new (inputs.map OffsettedCursor.new) P, c.cur, 0, []⟩ :
      OffsettedMergeIterator w T).rest = slices P inputs := by
    refine ext_getElem? fun j => ?_
    simp only [rest, RadixQueue.new, slices, getElem?_mapIdx, getElem?_map]
    cases ho : inputs[j]? with
    | none => rfl
    | some o => exact congrArg some ((hready o (mem_of_getElem? ho)).2 j)
  refine ⟨_, ?_, ⟨hwf, rfl, ?_⟩, rfl, hrest, ?_⟩
  · simp only [new, if_neg hne, RadixQueue.peek, htop, bind_some, hc, map_some]
  · intro u hu
    obtain ⟨o, ho, rfl⟩ := mem_map.1 hu
    exact (hready o ho).1
  · exact ⟨rfl, rfl, by simp, fun x _ => Nat.zero_le _, Nat.zero_le _⟩

end OffsettedMergeIterator

/-! ### All slices, once and in order -/

lemma mem_slices {inputs : List (Offsetted w T)} : x ∈ (slices P inputs).flatten ↔
      x.partition < P ∧ ∃ o, inputs[x.input]? = some o ∧ o.offset x.partition = some (x.start, x.stop) ∧
        x.start ≠ x.stop := by
  simp only [slices, mem_flatten, mem_mapIdx]
  constructor
  · rintro ⟨_, ⟨i, hi, rfl⟩, hx⟩
    obtain ⟨p, hp, hx⟩ := mem_filterMap.1 hx
    obtain ⟨hs, he, hne, rfl, rfl⟩ := slice_eq_some.1 hx
    exact ⟨by simpa using hp, _, getElem?_eq_getElem hi, offset_eq_some_iff.2 ⟨hs, he⟩, hne⟩
  · rintro ⟨hp, o, ho, hoffset, hne⟩
    obtain ⟨hs, he⟩ := offset_eq_some_iff.1 hoffset
    obtain ⟨hi, rfl⟩ := List.getElem?_eq_some_iff.1 ho
    refine ⟨_, ⟨x.input, hi, rfl⟩, mem_filterMap.2 ⟨x.partition, by simpa using hp, ?_⟩⟩
    exact slice_eq_some.2 ⟨hs, he, hne, rfl, rfl⟩

lemma input_of_mem_slicesFrom {cur : ℕ} (h : x ∈ slicesFrom P i offsets cur) : x.input = i := by
  obtain ⟨p, -, hx⟩ := mem_filterMap.1 h
  exact (slice_eq_some.1 hx).2.2.2.2

lemma slicesFrom_pairwise (P i : ℕ) (offsets : List (BitVec w)) (cur : ℕ) :
    (slicesFrom P i offsets cur).Pairwise fun x y => x.partition < y.partition := by
  refine Pairwise.filterMap _ (fun p q hpq x hx y hy => ?_) (pairwise_lt_range' 1 one_pos)
  rw [(slice_eq_some.1 hx).2.2.2.1, (slice_eq_some.1 hy).2.2.2.1]
  exact hpq

lemma slices_pairwise (P : ℕ) (inputs : List (Offsetted w T)) :
    (slices P inputs).flatten.Pairwise fun x y => x.input = y.input → x.partition ≠ y.partition := by
  refine pairwise_flatten.2 ⟨fun l hl => ?_, ?_⟩
  · obtain ⟨i, hi, rfl⟩ := mem_mapIdx.1 hl
    refine (slicesFrom_pairwise P i _ 0).imp ?_
    intro x y hlt _
    exact ne_of_lt hlt
  · refine pairwise_iff_getElem.2 fun i j hi hj hij x hx y hy heq => ?_
    simp only [slices, getElem_mapIdx] at hx hy
    rw [input_of_mem_slicesFrom hx, input_of_mem_slicesFrom hy] at heq
    omega

def Offsetted.rangeLen (o : Offsetted w T) (p : ℕ) : ℕ := (o.offset p).elim 0 fun r => r.2.toNat - r.1.toNat

lemma sum_map_filterMap {α β : Type} (f : α → Option β) (g : β → ℕ) (l : List α) :
    ((l.filterMap f).map g).sum = (l.map fun a => (f a).elim 0 g).sum := by
  induction l with
  | nil => rfl
  | cons a l ih =>
    rw [filterMap_cons, map_cons, sum_cons, ← ih]
    cases f a <;> simp

lemma elim_slice_len (i : ℕ) (o : Offsetted w T) (p : ℕ) : (slice i o.offsets p).elim 0 Slice.len = o.rangeLen p := by
  unfold slice Offsetted.rangeLen Offsetted.offset
  cases o.offsets[p]? with
  | none => rfl
  | some s =>
    cases o.offsets[p + 1]? with
    | none => rfl
    | some e =>
      by_cases hse : s = e
      · simp [hse]
      · simp [hse, Slice.len]

lemma lenBefore_append (xs ys : List (Slice w)) (p : ℕ) : lenBefore (xs ++ ys) p = lenBefore xs p + lenBefore ys p := by
  simp [lenBefore]

lemma lenBefore_slicesFrom (P i : ℕ) (o : Offsetted w T) (hp : p ≤ P) :
    lenBefore (slicesFrom P i o.offsets 0) p = ((range p).map o.rangeLen).sum := by
  induction P, hp using Nat.le_induction with
  | base =>
    rw [lenBefore_eq_lenAll fun x hx => (le_partition_of_mem hx).2, lenAll, slicesFrom, sum_map_filterMap, Nat.sub_zero,
      ← range_eq_range']
    exact congrArg sum (map_congr_left fun q _ => elim_slice_len i o q)
  | succ P hp ih =>
    rw [← ih, slicesFrom, Nat.sub_zero, range'_1_concat, filterMap_append, lenBefore_append, zero_add]
    -- the last slice is not before `p`
    cases hx : slice i o.offsets P with
    | none => simp [slicesFrom, hx, lenBefore]
    | some x => simp [slicesFrom, hx, lenBefore, (slice_eq_some.1 hx).2.2.2.1, hp]

/-- The length of all ranges of the partitions before `p`. -/
def totalBefore (inputs : List (Offsetted w T)) (p : ℕ) : ℕ := (inputs.map fun o => ((range p).map o.rangeLen).sum).sum

lemma totalBefore_mono (inputs : List (Offsetted w T)) {p q : ℕ} (hpq : p ≤ q) :
    totalBefore inputs p ≤ totalBefore inputs q := by
  obtain ⟨k, rfl⟩ := Nat.exists_eq_add_of_le hpq
  induction inputs with
  | nil => exact le_rfl
  | cons o inputs ih =>
    simp only [totalBefore, map_cons, sum_cons] at ih ⊢
    have hrange : ((range (p + k)).map o.rangeLen).sum =
        ((range p).map o.rangeLen).sum + (((range k).map (p + ·)).map o.rangeLen).sum := by
      rw [range_add, map_append, sum_append]
    omega

lemma lenBefore_slices (inputs : List (Offsetted w T)) (hp : p ≤ P) : lenBefore (slices P inputs).flatten p =
      (inputs.map fun o => ((range p).map o.rangeLen).sum).sum := by
  induction inputs using reverseRecOn with
  | nil => rfl
  | append_singleton inputs o ih =>
    rw [slices, mapIdx_concat, flatten_concat, lenBefore_append, lenBefore_slicesFrom P _ o hp, map_append, sum_append, ← ih]
    simp [slices]

lemma offset_le {o : Offsetted w T} (hmono : o.offsets.Pairwise (· ≤ ·)) {s e : BitVec w}
    (h : o.offset p = some (s, e)) : s ≤ e := by
  obtain ⟨hs, he⟩ := offset_eq_some_iff.1 h
  obtain ⟨hp, rfl⟩ := List.getElem?_eq_some_iff.1 hs
  obtain ⟨hp', rfl⟩ := List.getElem?_eq_some_iff.1 he
  exact pairwise_iff_getElem.1 hmono p (p + 1) hp hp' (Nat.lt_succ_self p)

lemma merge_pairwise {inputs : List (Offsetted w T)} {ids : List ℕ} {out : List (Slice w)}
    {left : List (List (Slice w))} (h : MergePops Slice.partition (slices P inputs) ids out left)
    (hleft : left.flatten = []) : out.Perm (slices P inputs).flatten ∧
      out.Pairwise fun x y => x.partition ≤ y.partition ∧ (x.input = y.input → x.partition < y.partition) := by
  have hperm : out.Perm (slices P inputs).flatten := by
    have := h.pops.perm
    rwa [hleft, append_nil] at this
  have hne : out.Pairwise fun x y => x.input = y.input → x.partition ≠ y.partition :=
    hperm.symm.pairwise (slices_pairwise P inputs) fun hxy heq => (hxy heq.symm).symm
  refine ⟨hperm, h.sorted.imp₂ (fun x y hle hxy => ⟨hle, fun heq => Nat.lt_of_le_of_ne hle (hxy heq)⟩) hne⟩

/-- **Every slice is yielded once, in order.**  `next` yields the non-empty ranges of all inputs and partitions, partition
after partition, until it returns `None`; there are then `P + 1` merged offsets, and they are the total lengths of the
ranges before each partition if and only if the length of all ranges is a value of the offset type.  Chunk after chunk,
fully consumed, the slices come with every partition that has data once. -/
theorem merge_yields_every_slice_once {P : ℕ} {inputs : List (Offsetted w T)} (hne : inputs ≠ [])
    (hlen : ∀ o ∈ inputs, o.offsets.length = P + 1) (hmono : ∀ o ∈ inputs, o.offsets.Pairwise (· ≤ ·)) :
    ∃ it out, new P inputs = some it ∧ out.Nodup ∧
      (∀ x, x ∈ out ↔ x.partition < P ∧ ∃ o, inputs[x.input]? = some o ∧
        o.offset x.partition = some (x.start, x.stop) ∧ x.start < x.stop) ∧
      out.Pairwise (fun x y => x.partition ≤ y.partition ∧ (x.input = y.input → x.partition < y.partition)) ∧
      (∃ last, (∀ fuel, out.length < fuel → it.collect fuel = some (out, last)) ∧
        last.mergedOffsets.length = P + 1 ∧
        (last.mergedOffsets.map BitVec.toNat = (range (P + 1)).map (totalBefore inputs) ↔ totalBefore inputs P < 2 ^ w)) ∧
      ∃ cs last, (∀ fuel, out.length < fuel → it.chunks fuel = some (cs, last)) ∧
        (cs.map Prod.fst).Pairwise (· < ·) ∧ (∀ p, p ∈ cs.map Prod.fst ↔ ∃ x ∈ out, x.partition = p) ∧
        (cs.flatMap Prod.snd).Perm out ∧ ∀ c ∈ cs, ∀ x ∈ c.2, x.partition = c.1 := by
  obtain ⟨it, hnew, hwf, rfl, hrest, hcounted⟩ := new_spec hne hlen
  have hord : it.Ordered := by
    intro x hx
    rw [hrest] at hx
    obtain ⟨-, o, ho, hoffset, -⟩ := mem_slices.1 hx
    exact offset_le (hmono o (mem_of_getElem? ho)) hoffset
  obtain ⟨_, out, last, hcollect, hpops, hend, hoffsets⟩ := hwf.collect_spec hord hcounted
  obtain ⟨_, cs, last', hchunks, hpops', hend', hinc, hcs⟩ := hwf.chunks_spec
  rw [hrest] at hpops hpops' hcollect hchunks
  obtain ⟨hperm, hpairs⟩ := merge_pairwise hpops hend
  obtain ⟨hperm', -⟩ := merge_pairwise hpops' hend'
  have hperms : (cs.flatMap Prod.snd).Perm out := hperm'.trans hperm.symm
  rw [← hperm.length_eq] at hcollect hchunks
  have htotals : last.mergedOffsets = (range (it.numPartitions + 1)).map fun p => BitVec.ofNat w (totalBefore inputs p) := by
    rw [hoffsets]
    refine map_congr_left fun p hp => ?_
    rw [nil_append, lenBefore_perm hperm, lenBefore_slices inputs (Nat.le_of_lt_succ (mem_range.1 hp)), totalBefore]
  refine ⟨it, out, hnew, ?_, fun x => ?_, hpairs, ⟨last, hcollect, ?_, ?_⟩, cs, last', hchunks, hinc, fun p => ?_, hperms,
    fun c hc => (hcs c hc).2⟩
  · refine hpairs.imp ?_
    rintro x y ⟨-, hlt⟩ rfl
    exact lt_irrefl _ (hlt rfl)
  · rw [hperm.mem_iff, mem_slices]
    refine and_congr_right fun _ => exists_congr fun o => and_congr_right fun ho => and_congr_right fun hoffset => ?_
    refine ⟨BitVec.lt_of_le_ne (offset_le (hmono o (mem_of_getElem? ho)) hoffset), ?_⟩
    rintro hlt heq
    exact BitVec.lt_irrefl _ (heq ▸ hlt)
  · rw [htotals, length_map, length_range]
  · rw [htotals, map_map, map_inj_left]
    constructor
    · intro h
      rw [← h _ self_mem_range_succ]
      exact BitVec.isLt _
    · intro hlt p hp
      have hle := totalBefore_mono inputs (Nat.le_of_lt_succ (mem_range.1 hp))
      exact (BitVec.toNat_ofNat _ _).trans (Nat.mod_eq_of_lt (Nat.lt_of_le_of_lt hle hlt))
  · constructor
    · intro hp
      obtain ⟨c, hc, rfl⟩ := mem_map.1 hp
      obtain ⟨hcne, hcall⟩ := hcs c hc
      obtain ⟨x, hx⟩ := exists_mem_of_ne_nil _ hcne
      exact ⟨x, hperms.subset (mem_flatMap.2 ⟨c, hc, hx⟩), hcall x hx⟩
    · rintro ⟨x, hx, rfl⟩
      obtain ⟨c, hc, hx⟩ := mem_flatMap.1 (hperms.symm.subset hx)
      exact mem_map.2 ⟨c, hc, ((hcs c hc).2 x hx).symm⟩

/-- Two inputs of three partitions, the second with nothing in the first two. -/
theorem merge_yields_every_slice_once_two :
    ∃ it out last,
      new 3 [(⟨[0, 2, 2, 5], ()⟩ : Offsetted 32 Unit), ⟨[0, 0, 0, 4], ()⟩] = some it ∧
        it.collect (out.length + 1) = some (out, last) ∧ last.mergedOffsets.map BitVec.toNat = [0, 2, 2, 9] := by
  have hlen : ∀ o ∈ [(⟨[0, 2, 2, 5], ()⟩ : Offsetted 32 Unit), ⟨[0, 0, 0, 4], ()⟩], o.offsets.length = 3 + 1 := by simp
  obtain ⟨it, out, hnew, -, -, -, ⟨last, hcollect, -, hoffsets⟩, -⟩ :=
    merge_yields_every_slice_once (cons_ne_nil _ _) hlen (by simp)
  exact ⟨it, out, last, hnew, hcollect _ (Nat.lt_succ_self _), (hoffsets.2 (by decide)).trans (by decide)⟩

/-- **Wrapped offsets.**  The rows of one partition in two inputs are one more than the `u32` offsets of the buffered
batches can tell: the merged offsets end with 1. -/
theorem mergedOffsets_wrap :
    let inputs := [(⟨[0, 4294967295], ()⟩ : Offsetted 32 Unit), ⟨[0, 2], ()⟩]
    totalBefore inputs 1 = 4294967297 ∧
      ((new 1 inputs).bind fun it => (it.collect 3).map fun r => (r.1.length, r.2.mergedOffsets)) = some (2, [0, 1]) := by
  decide

end Auron.Common
