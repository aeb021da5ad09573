import Auron.Shuffle.Written

/-!
# Writing a shuffle (`shuffle/sort_repartitioner.rs`)

`SortShuffleRepartitioner` buffers the batches of a task and spills the buffer whenever memory is short.  A spill is a
partitioned file like the one that is written in the end.  With spills, the rest of the buffer becomes one more of them,
and the data file is their merge: the ranges of the spills are copied partition by partition, each spill being read from
its beginning to its end.

`shuffleWrite_partitions` says what the two files hold after any sequence of batches and spills.
-/

namespace Auron.Shuffle

open Auron.Common Auron.Io Auron.Io.IpcCompression Auron.Lib List
open Option (bind_some map_some)

variable {Row K : Type}

/-! ### The repartitioner -/

/-- `SortShuffleRepartitioner`: its buffer and its spills. -/
structure SortRepartitioner (Row : Type) where
  data : BufferedData Row
  spills : List (Offsetted 64 Bytes)

def SortRepartitioner.new : SortRepartitioner Row := ⟨BufferedData.new, []⟩

/-- What happens to a repartitioner before it writes.  The memory manager, or `insert_batch` itself, spills at any time. -/
inductive Op (Row : Type) where
  | insertBatch (batch : List Row)
  | spill

/-- `spill`: the buffer is drained and written. -/
def SortRepartitioner.spill [LinearOrder K] (ctx : Context Row K) (s : SortRepartitioner Row) :
    Option (SortRepartitioner Row) :=
  (s.data.write ctx).map fun written => ⟨BufferedData.new, s.spills ++ [⟨written.2, written.1⟩]⟩

def SortRepartitioner.step [LinearOrder K] (ctx : Context Row K) (s : SortRepartitioner Row) :
    Op Row → Option (SortRepartitioner Row)
  | .insertBatch batch => (s.data.addBatch ctx batch).map fun data => { s with data }
  | .spill => s.spill ctx

/-- All calls before `shuffle_write`. -/
def SortRepartitioner.run [LinearOrder K] (ctx : Context Row K) (ops : List (Op Row)) : Option (SortRepartitioner Row) :=
  ops.foldlM (step ctx) new

/-- The ranges of the merge are copied to the data file; every spill is read on from where it was left. -/
def copyRanges : List (Slice 64) → List Bytes → Bytes
  | [], _ => []
  | x :: ranges, readers =>
    let reader := readers.getD x.input []
    let len := (x.stop - x.start).toNat
    reader.take len ++ copyRanges ranges (readers.set x.input (reader.drop len))

/-- The data file of some spills and its offsets.  The merge yields fewer ranges than there are offsets. -/
def mergeSpills (numPartitions : ℕ) (spills : List (Offsetted 64 Bytes)) : Option (Bytes × List (BitVec 64)) :=
  (OffsettedMergeIterator.new numPartitions spills).bind fun mergeIter =>
    (mergeIter.collect ((spills.map fun spill => spill.offsets.length).sum + 1)).map fun merged =>
      (copyRanges merged.1 (spills.map Offsetted.data), merged.2.mergedOffsets)

/-- `to_le_bytes` of an `i64`. -/
def le64 (v : BitVec 64) : Bytes :=
  [UInt8.ofNat v.toNat, UInt8.ofNat (v.toNat / 2 ^ 8), UInt8.ofNat (v.toNat / 2 ^ 16), UInt8.ofNat (v.toNat / 2 ^ 24),
    UInt8.ofNat (v.toNat / 2 ^ 32), UInt8.ofNat (v.toNat / 2 ^ 40), UInt8.ofNat (v.toNat / 2 ^ 48),
    UInt8.ofNat (v.toNat / 2 ^ 56)]

/-- `shuffle_write`: the data file and the index file. -/
def SortRepartitioner.shuffleWrite [LinearOrder K] (ctx : Context Row K) (s : SortRepartitioner Row) :
    Option (Bytes × Bytes) :=
  if s.spills = [] then (s.data.write ctx).map fun written => (written.1, written.2.flatMap le64)
  else
    (if s.data.isEmpty then some s.spills
      else (s.data.write ctx).map fun written => s.spills ++ [⟨written.2, written.1⟩]).bind fun spills =>
      (mergeSpills ctx.numPartitions spills).map fun written => (written.1, written.2.flatMap le64)

/-- The offsets in an index file, as its readers take them: little-endian `i64`s. -/
def readIndex : Bytes → List ℤ
  | a :: b :: c :: d :: e :: f :: g :: h :: rest =>
    (BitVec.ofNat 64 (a.toNat + 2 ^ 8 * b.toNat + 2 ^ 16 * c.toNat + 2 ^ 24 * d.toNat + 2 ^ 32 * e.toNat +
      2 ^ 40 * f.toNat + 2 ^ 48 * g.toNat + 2 ^ 56 * h.toNat)).toInt :: readIndex rest
  | _ => []

lemma readIndex_flatMap (offsets : List (BitVec 64)) : readIndex (offsets.flatMap le64) = offsets.map BitVec.toInt := by
  induction offsets with
  | nil => rfl
  | cons v offsets ih =>
    show BitVec.toInt _ :: readIndex (offsets.flatMap le64) = _
    congr 2
    refine BitVec.eq_of_toNat_eq ?_
    simp only [UInt8.toNat_ofNat', BitVec.toNat_ofNat]
    omega

/-! ### Merging spills -/

/-- Ranges that follow one another from `a` to `b`. -/
inductive Runs : BitVec 64 → List (Slice 64) → BitVec 64 → Prop
  | nil (a) : Runs a [] a
  | cons {x q b} (hle : x.start ≤ x.stop) (h : Runs x.stop q b) : Runs x.start (x :: q) b

/-- The offsets of a spill begin with zero and do not fall. -/
structure Recorded (P : ℕ) (offsets : List (BitVec 64)) : Prop where
  length_offsets : offsets.length = P + 1
  zero : offsets[0]? = some 0
  pairwise : offsets.Pairwise (· ≤ ·)

/-- The last offset of a spill. -/
def recordedLen (spill : Offsetted 64 Bytes) : ℕ := (spill.offsets.getLastD 0).toNat

def rangeOf (spills : List (Offsetted 64 Bytes)) (x : Slice 64) : Bytes :=
  (spills[x.input]?).elim [] fun spill => x.of spill.data

lemma Runs.length {a b : BitVec 64} {q : List (Slice 64)} (h : Runs a q b) : a.toNat + lenAll q = b.toNat := by
  induction h with
  | nil => rfl
  | @cons x q b hle _ ih =>
    have hle := BitVec.le_def.1 hle
    simp only [lenAll, map_cons, sum_cons, Slice.len] at ih ⊢
    omega

lemma Runs.stop_le {a b : BitVec 64} {q : List (Slice 64)} (h : Runs a q b) {x : Slice 64} (hx : x ∈ q) :
    x.stop.toNat ≤ b.toNat := by
  induction h with
  | nil => cases hx
  | cons _ h ih =>
    obtain rfl | hx := mem_cons.1 hx
    · exact Nat.le.intro h.length
    · exact ih hx

lemma Runs.flatMap_of {a b : BitVec 64} {q : List (Slice 64)} (h : Runs a q b) (data : Bytes) :
    q.flatMap (fun x => x.of data) = (data.drop a.toNat).take (b.toNat - a.toNat) := by
  induction h with
  | nil => simp
  | @cons x q b hle h ih =>
    have hle := BitVec.le_def.1 hle
    have hlen := h.length
    rw [flatMap_cons, ih, Slice.of, show b.toNat - x.start.toNat =
      x.stop.toNat - x.start.toNat + (b.toNat - x.stop.toNat) by omega, take_add, drop_drop,
      show x.start.toNat + (x.stop.toNat - x.start.toNat) = x.stop.toNat by omega]

lemma Recorded.runs {P : ℕ} {offsets : List (BitVec 64)} (h : Recorded P offsets) (i : ℕ) :
    Runs 0 (slicesFrom P i offsets 0) (offsets.getLastD 0) := by
  have hrun : ∀ n cur a b, offsets[cur]? = some a → offsets[cur + n]? = some b →
      Runs a ((range' cur n).filterMap (slice i offsets)) b := by
    intro n
    induction n with
    | zero =>
      intro cur a b ha hb
      obtain rfl := Option.some.inj (ha.symm.trans hb)
      exact .nil a
    | succ n ih =>
      intro cur a b ha hb
      have hlt : cur + 1 < offsets.length := by
        have := lt_of_getElem? hb
        omega
      have hc := getElem?_eq_getElem hlt
      have hle : a ≤ offsets[cur + 1] := by
        obtain ⟨ha', rfl⟩ := List.getElem?_eq_some_iff.1 ha
        exact pairwise_iff_getElem.1 h.pairwise _ _ ha' hlt (Nat.lt_succ_self cur)
      have hrest := ih (cur + 1) _ b hc (by rwa [Nat.add_assoc, Nat.add_comm 1])
      rw [range'_succ, filterMap_cons, slice, ha, Option.bind_some, hc, Option.bind_some]
      split_ifs with heq
      · rwa [heq]
      · exact .cons (x := ⟨cur, i, a, _⟩) hle hrest
  refine hrun P 0 0 _ h.zero ?_
  have hlast : offsets.getLast? = offsets[P]? := by rw [getLast?_eq_getElem?, h.length_offsets, Nat.add_sub_cancel]
  rw [Nat.zero_add, getLastD_eq_getLast?, hlast, getElem?_eq_getElem (by rw [h.length_offsets]; omega), Option.getD_some]

/-- **Reading the spills on** gives what the ranges hold, since the ranges of a spill follow one another.  A spill that
has ended gives nothing. -/
theorem copyRanges_eq {spills : List (Offsetted 64 Bytes)} {qs qs' : List (List (Slice 64))} {ids : List ℕ}
    {out : List (Slice 64)} (h : Pops qs ids out qs') {readers : List Bytes}
    (hqs : ∀ i (q : List (Slice 64)), qs[i]? = some q → (∀ x ∈ q, x.input = i) ∧ ∃ spill a b, spills[i]? = some spill ∧
      Runs a q b ∧ readers[i]? = some (spill.data.drop a.toNat)) :
    copyRanges out readers = out.flatMap (rangeOf spills) := by
  induction h generalizing readers with
  | nil qs => rfl
  | @cons qs i x t ids out qs' hi _ ih =>
    obtain ⟨hinput, spill, _, b, hspill, ⟨⟩ | ⟨hle, ht⟩, hreader⟩ := hqs i _ hi
    have hinputs := forall_mem_cons.1 hinput
    have hlen : (x.stop - x.start).toNat = x.stop.toNat - x.start.toNat := BitVec.toNat_sub_of_le hle
    have hrange : rangeOf spills x = (spill.data.drop x.start.toNat).take (x.stop.toNat - x.start.toNat) := by
      rw [rangeOf, hinputs.1, hspill, Option.elim_some, Slice.of]
    rw [copyRanges, hinputs.1, getD_eq_getElem?_getD, hreader, Option.getD_some, hlen, flatMap_cons, hrange, drop_drop, ih]
    intro j q hq
    by_cases hij : i = j
    · subst hij
      rw [getElem?_set_self (lt_of_getElem? hi)] at hq
      obtain rfl := Option.some.inj hq
      refine ⟨hinputs.2, spill, _, b, hspill, ht, ?_⟩
      have hle := BitVec.le_def.1 hle
      rw [getElem?_set_self (lt_of_getElem? hreader), Nat.add_sub_cancel' hle]
    · rw [getElem?_set_ne hij] at hq ⊢
      exact hqs j q hq

variable {ctx : Context Row K} {validUtf8 : Bytes → Bool} {schema : List DataType}

lemma Context.Stores.eq_nil {rows : List Row} (h : ctx.Stores validUtf8 schema [] rows) : rows = [] := by
  obtain ⟨blocks, hbytes, hperm, -⟩ := h
  cases blocks with
  | nil => exact nil_perm.1 hperm
  | cons batches blocks =>
    have hlen := congrArg length hbytes
    simp [blockBytes, block, BatchSerde.le32] at hlen

lemma stores_flatMap {ι : Type} {content : ι → Bytes} {rows : ι → List Row} {xs : List ι}
    (h : ∀ x ∈ xs, ctx.Stores validUtf8 schema (content x) (rows x)) :
    ctx.Stores validUtf8 schema (xs.flatMap content) (xs.flatMap rows) := by
  induction xs with
  | nil => exact stores_nil
  | cons x xs ih =>
    exact (h x mem_cons_self).append (ih fun y hy => h y (mem_cons_of_mem _ hy))

section Merge

variable {P : ℕ} {spills : List (Offsetted 64 Bytes)} (hrec : ∀ spill ∈ spills, Recorded P spill.offsets)

include hrec

lemma flatMap_rangeOf_slices : (slices P spills).flatten.flatMap (rangeOf spills) =
    (spills.map fun spill => spill.data.take (recordedLen spill)).flatten := by
  rw [flatMap_def, map_flatten, flatten_flatten, map_map]
  congr 1
  refine ext_getElem (by simp [slices]) fun i _ hi => ?_
  have hi : i < spills.length := by simpa using hi
  simp only [slices, getElem_map, getElem_mapIdx, Function.comp_apply]
  have hcongr : (slicesFrom P i spills[i].offsets 0).map (rangeOf spills) =
      (slicesFrom P i spills[i].offsets 0).map fun x => x.of spills[i].data := by
    refine map_congr_left fun x hx => ?_
    rw [rangeOf, input_of_mem_slicesFrom hx, getElem?_eq_getElem hi, Option.elim_some]
  rw [hcongr, ← flatMap_def, ((hrec _ (getElem_mem hi)).runs i).flatMap_of]
  rfl

/-- **The merge copies every range** and takes down where the partitions begin. -/
theorem mergeSpills_eq (hne : spills ≠ []) :
    ∃ out : List (Slice 64), out.Perm (slices P spills).flatten ∧ out.Pairwise (fun x y => x.partition ≤ y.partition) ∧
      (upTo (fun p => (out.filter fun x => x.partition = p).flatMap (rangeOf spills)) P).length =
        (spills.map fun spill => min (recordedLen spill) spill.data.length).sum ∧
      mergeSpills P spills = some (upTo (fun p => (out.filter fun x => x.partition = p).flatMap (rangeOf spills)) P,
        (range (P + 1)).map fun p => BitVec.ofNat 64 (lenBefore out p)) := by
  have hlen : ∀ spill ∈ spills, spill.offsets.length = P + 1 := fun spill hspill => (hrec spill hspill).length_offsets
  obtain ⟨it, hnew, hwf, rfl, hrest, hcounted⟩ := OffsettedMergeIterator.new_spec hne hlen
  have hord : it.Ordered := by
    intro x hx
    obtain ⟨-, o, ho, hoffset, -⟩ := mem_slices.1 (hrest ▸ hx)
    exact offset_le (hrec o (mem_of_getElem? ho)).pairwise hoffset
  obtain ⟨_, out, _, hcollect, hpops, hend, hoffsets⟩ := hwf.collect_spec hord hcounted
  rw [hrest] at hpops hcollect
  have hperm := (merge_pairwise hpops hend).1
  have hsorted := hpops.sorted
  have hcopy : copyRanges out (spills.map Offsetted.data) = out.flatMap (rangeOf spills) := by
    refine copyRanges_eq hpops.pops fun i q hq => ?_
    rw [slices, getElem?_mapIdx] at hq
    obtain ⟨spill, hspill, rfl⟩ := Option.map_eq_some_iff.1 hq
    refine ⟨fun x hx => input_of_mem_slicesFrom hx, spill, 0, _, hspill, (hrec _ (mem_of_getElem? hspill)).runs i, ?_⟩
    rw [getElem?_map, hspill]
    rfl
  have hupTo := flatMap_eq_upTo hsorted (rangeOf spills) fun x hx => (mem_slices.1 (hperm.subset hx)).1
  refine ⟨out, hperm, hsorted, ?_, ?_⟩
  · rw [← hupTo, (hperm.flatMap_right (rangeOf spills)).length_eq, flatMap_rangeOf_slices hrec, length_flatten, map_map]
    exact congrArg sum (map_congr_left fun spill _ => length_take)
  · rw [mergeSpills, hnew, bind_some, hcollect _ (Nat.lt_succ_of_le (length_slices_le hlen)), map_some, hcopy,
      hoffsets, hupTo, nil_append]

/-- The index file is right: it ends with the length of the data file, and what lies between the offsets of a partition
are its ranges in the spills, each in full. -/
structure Indexed (P : ℕ) (spills : List (Offsetted 64 Bytes)) (data : Bytes) (offsets : List (BitVec 64)) : Prop where
  length_eq : (offsets.getLastD 0).toNat = data.length
  ranges : ∀ p < P, ∃ (out : List (Slice 64)) (start stop : BitVec 64),
    out.Perm ((slices P spills).flatten.filter fun x => x.partition = p) ∧ (∀ x ∈ out, (rangeOf spills x).length = x.len) ∧
      offsets[p]? = some start ∧ offsets[p + 1]? = some stop ∧
      (data.drop start.toNat).take (stop.toNat - start.toNat) = out.flatMap (rangeOf spills)

lemma length_rangeOf (hfull : ∀ spill ∈ spills, recordedLen spill ≤ spill.data.length) {x : Slice 64}
    (hx : x ∈ (slices P spills).flatten) : (rangeOf spills x).length = x.len := by
  obtain ⟨q, hq, hx⟩ := mem_flatten.1 hx
  obtain ⟨i, hi, rfl⟩ := mem_mapIdx.1 hq
  have hstop := ((hrec _ (getElem_mem hi)).runs i).stop_le hx
  have hfull := hfull _ (getElem_mem hi)
  rw [rangeOf, input_of_mem_slicesFrom hx, getElem?_eq_getElem hi, Option.elim_some, Slice.of, length_take, length_drop,
    Slice.len]
  rw [recordedLen] at hfull
  omega

/-- **The merge never fails**, and its index is right if and only if no spill has ended early. -/
theorem mergeSpills_indexed_iff (hne : spills ≠ []) (hsmall : (spills.map recordedLen).sum < 2 ^ 64) :
    ∃ data offsets, mergeSpills P spills = some (data, offsets) ∧
      (Indexed P spills data offsets ↔ ∀ spill ∈ spills, recordedLen spill ≤ spill.data.length) := by
  obtain ⟨out, hperm, hsorted, hlength, hmerge⟩ := mergeSpills_eq hrec hne
  have hlt : ∀ x ∈ out, x.partition < P := fun x hx => (mem_slices.1 (hperm.subset hx)).1
  have htotal : lenAll out = (spills.map recordedLen).sum := by
    rw [lenAll, (hperm.map _).sum_eq, map_flatten, sum_flatten, map_map]
    refine congrArg sum (ext_getElem (by simp [slices]) fun i _ hi => ?_)
    have hrun := ((hrec _ (getElem_mem (by simpa using hi))).runs i).length
    simpa [slices, lenAll, recordedLen] using hrun
  have hlast : (((range (P + 1)).map fun p => BitVec.ofNat 64 (lenBefore out p)).getLastD 0).toNat =
      (spills.map recordedLen).sum := by
    rw [range_succ, map_append, map_singleton, getLastD_concat, lenBefore_eq_lenAll hlt, htotal, BitVec.toNat_ofNat,
      Nat.mod_eq_of_lt hsmall]
  refine ⟨_, _, hmerge, ?_, fun hfull => ?_⟩
  · rintro ⟨hlen, -⟩
    rw [hlast, hlength] at hlen
    intro spill hspill
    by_contra hshort
    refine absurd hlen (ne_of_gt (List.sum_lt_sum _ _ (fun spill _ => min_le_left _ _) ?_))
    exact ⟨spill, hspill, min_lt_of_right_lt (Nat.lt_of_not_le hshort)⟩
  · have hranges : ∀ x ∈ out, (rangeOf spills x).length = x.len := fun x hx => length_rangeOf hrec hfull (hperm.subset hx)
    have hmin : (spills.map fun spill => min (recordedLen spill) spill.data.length) = spills.map recordedLen :=
      map_congr_left fun spill hspill => min_eq_left (hfull spill hspill)
    have hlays : LaysOut P ((range (P + 1)).map fun p => BitVec.ofNat 64 (lenBefore out p))
        fun p => (out.filter fun x => x.partition = p).flatMap (rangeOf spills) := by
      refine ⟨map_congr_left fun p _ => ?_, by rwa [hlength, hmin]⟩
      rw [lenBefore_eq_length hsorted (rangeOf spills) hranges]
    refine ⟨by rw [hlast, hlength, hmin], fun p hp => ?_⟩
    refine ⟨_, _, _, hperm.filter _, fun x hx => hranges x (mem_of_mem_filter hx), hlays.getElem?_offsets hp.le,
      hlays.getElem?_offsets hp, ?_⟩
    rw [hlays.toNat_offset hp.le, hlays.toNat_offset hp]
    exact take_drop_upTo _ hp

end Merge

/-- A spill of which one of two bytes is left. -/
theorem mergeSpills_ends_early : mergeSpills 1 [⟨[0, 2], [7]⟩] = some ([7], [0, 2]) ∧
    ¬ Indexed 1 [⟨[0, 2], [7]⟩] [7] [0, 2] :=
  ⟨by decide, fun h => absurd h.length_eq (by decide)⟩

/-- Two spills, one of them with a byte too many. -/
theorem mergeSpills_indexed_two : ∃ data offsets, mergeSpills 1 [⟨[0, 1], [7]⟩, ⟨[0, 1], [8, 9]⟩] = some (data, offsets) ∧
    Indexed 1 [⟨[0, 1], [7]⟩, ⟨[0, 1], [8, 9]⟩] data offsets := by
  obtain ⟨data, offsets, hmerge, hiff⟩ := @mergeSpills_indexed_iff 1 [⟨[0, 1], [7]⟩, ⟨[0, 1], [8, 9]⟩]
    (by rintro spill (_ | ⟨_, _ | ⟨_, ⟨⟩⟩⟩) <;> exact ⟨rfl, rfl, by decide⟩) (by decide) (by decide)
  exact ⟨data, offsets, hmerge, hiff.2 (by decide)⟩

/-- **The merge of partitioned files is a partitioned file** of all their rows. -/
theorem mergeSpills_spec {spills : List (Offsetted 64 Bytes)} (hne : spills ≠ []) {rows : ℕ → ℕ → List Row}
    (hspills : ∀ i spill, spills[i]? = some spill →
      ctx.Partitioned validUtf8 schema spill.data spill.offsets (rows i) ∧ spill.data.length < 2 ^ 64) :
    ∃ data offsets, mergeSpills ctx.numPartitions spills = some (data, offsets) ∧
      data.length = (spills.map fun spill => spill.data.length).sum ∧
      ctx.Partitioned validUtf8 schema data offsets fun p => (range spills.length).flatMap fun i => rows i p := by
  have hexists : ∀ i, ∃ parts : ℕ → Bytes, ∀ spill, spills[i]? = some spill →
      (spill.data = upTo parts ctx.numPartitions ∧ LaysOut ctx.numPartitions spill.offsets parts) ∧
      ∀ p < ctx.numPartitions, ctx.Stores validUtf8 schema (parts p) (rows i p) := by
    intro i
    cases hi : spills[i]? with
    | none => exact ⟨fun _ => [], nofun⟩
    | some spill =>
      obtain ⟨⟨parts, hdata, hoffsets, hstores⟩, hsmall⟩ := hspills i spill hi
      refine ⟨parts, fun spill' hspill' => ?_⟩
      obtain rfl := Option.some.inj hspill'
      exact ⟨⟨hdata, hoffsets, hdata ▸ hsmall⟩, hstores⟩
  choose parts hparts using hexists
  have hlays := fun i spill hspill => (hparts i spill hspill).1.2
  have hrec : ∀ spill ∈ spills, Recorded ctx.numPartitions spill.offsets ∧ spill.data.length = recordedLen spill := by
    intro spill hspill
    obtain ⟨i, hi, rfl⟩ := getElem_of_mem hspill
    obtain ⟨hdata, h⟩ := (hparts i _ (getElem?_eq_getElem hi)).1
    refine ⟨⟨h.length_offsets, h.getElem?_offsets (Nat.zero_le _), h.pairwise⟩, ?_⟩
    rw [recordedLen, getLastD_eq_getLast?, getLast?_eq_getElem?, h.length_offsets, Nat.add_sub_cancel,
      h.getElem?_offsets le_rfl, Option.getD_some, h.toNat_offset le_rfl, hdata]
  obtain ⟨out, hperm, hsorted, hlength, hmerge⟩ := mergeSpills_eq (fun spill hspill => (hrec spill hspill).1) hne
  have hrange : ∀ x ∈ out, rangeOf spills x = parts x.input x.partition ∧ (rangeOf spills x).length = x.len := by
    intro x hx
    obtain ⟨hp, spill, hspill, hslice⟩ := slice_of_mem_slices (hperm.subset hx)
    obtain ⟨hof, hlen⟩ := (hlays _ spill hspill).slice_of hp hslice
    have : rangeOf spills x = parts x.input x.partition := by
      rw [rangeOf, hspill, Option.elim_some, (hparts _ spill hspill).1.1, hof]
    exact ⟨this, by rw [this, hlen]⟩
  refine ⟨_, _, hmerge, ?_, _, rfl, ?_, fun p hp => ?_⟩
  · rw [hlength]
    exact congrArg sum (map_congr_left fun spill hspill => by rw [← (hrec spill hspill).2, min_self])
  · exact map_congr_left fun p _ => by rw [lenBefore_eq_length hsorted (rangeOf spills) fun x hx => (hrange x hx).2]
  · -- the ranges of a partition, with the rows they store
    have hstores : ctx.Stores validUtf8 schema ((out.filter fun x => x.partition = p).flatMap (rangeOf spills))
        ((out.filter fun x => x.partition = p).flatMap fun x => rows x.input p) := by
      refine stores_flatMap fun x hx => ?_
      obtain ⟨hx, hxp⟩ := mem_filter.1 hx
      obtain ⟨-, spill, hspill, -⟩ := slice_of_mem_slices (hperm.subset hx)
      rw [(hrange x hx).1, of_decide_eq_true hxp]
      exact (hparts _ spill hspill).2 p hp
    refine hstores.perm (flatMap_slices_perm hlays hperm hp
      (fun i spill x _ hx => by rw [(slice_eq_some.1 hx).2.2.2.2]) fun i spill hspill hempty => ?_)
    exact Context.Stores.eq_nil (hempty ▸ (hparts i spill hspill).2 p hp)

/-! ### The two files -/

lemma Context.Partitioned.files {data : Bytes} {offsets : List (BitVec 64)} {rows : ℕ → List Row}
    (h : ctx.Partitioned validUtf8 schema data offsets rows) (hsmall : data.length < 2 ^ 63) :
    ∃ offset : ℕ → ℕ, readIndex (offsets.flatMap le64) = (range (ctx.numPartitions + 1)).map (fun p => (offset p : ℤ)) ∧
      offset 0 = 0 ∧ offset ctx.numPartitions = data.length ∧ Monotone offset ∧
      ∀ p < ctx.numPartitions,
        ctx.Stores validUtf8 schema ((data.drop (offset p)).take (offset (p + 1) - offset p)) (rows p) := by
  obtain ⟨parts, rfl, rfl, hstores⟩ := h
  refine ⟨fun p => (upTo parts p).length, ?_, rfl, rfl, fun p q hpq => length_upTo_mono parts hpq, fun p hp => ?_⟩
  · rw [readIndex_flatMap, map_map]
    refine map_congr_left fun p hp => ?_
    have hle := length_upTo_mono parts (Nat.le_of_lt_succ (mem_range.1 hp))
    have hnat : (BitVec.ofNat 64 (upTo parts p).length).toNat = (upTo parts p).length := by
      rw [BitVec.toNat_ofNat, Nat.mod_eq_of_lt (by omega)]
    rw [Function.comp_apply, BitVec.toInt_eq_toNat_of_lt (by rw [hnat]; omega), hnat]
  · rw [take_drop_upTo parts hp]
    exact hstores p hp

/-! ### A whole task -/

def inserted : List (Op Row) → List (List Row)
  | [] => []
  | .insertBatch batch :: ops => batch :: inserted ops
  | .spill :: ops => inserted ops

section Task

variable [LinearOrder K]

/-- The rows of the batches with their partitions; `k` rows have come since the buffer was drained. -/
def Context.assigned (ctx : Context Row K) : ℕ → List (Op Row) → List (ℕ × Row)
  | _, [] => []
  | k, .insertBatch batch :: ops => ctx.tag k batch ++ ctx.assigned (k + batch.length) ops
  | _, .spill :: ops => ctx.assigned 0 ops

/-- The limits of the integers the code counts with: `i32` and `u32` for partitions, rows and batches, `usize` for the
counter of round robin. -/
structure Context.Within (ctx : Context Row K) (ops : List (Op Row)) (maxRows : ℕ) : Prop where
  partitioning : ctx.partitioning.Valid
  batches : ∀ batch ∈ inserted ops, batch.length ≤ maxRows
  size : max ctx.batchSize 20 + maxRows < 2 ^ 32
  numBatches : (inserted ops).length < 2 ^ 32
  numRows : ctx.taskId * 1000193 + (inserted ops).flatten.length < 2 ^ 64

/-- The spills are partitioned files of the rows that came before each of them, the buffer holds the rows since. -/
structure SortRepartitioner.Holds (ctx : Context Row K) (validUtf8 : Bytes → Bool) (schema : List DataType)
    (s : SortRepartitioner Row) (spilled : List (List Row)) (rows : List Row) (numBatches maxLen : ℕ) : Prop where
  spills : Forall₂ (fun spill rows =>
    ctx.Partitioned validUtf8 schema spill.data spill.offsets (rowsAt (ctx.tag 0 rows))) s.spills spilled
  data : s.data.Holds ctx rows numBatches maxLen
  short : s.data.stagingNumRows < max ctx.batchSize 20

section Run

variable {all : List Row} {maxRows : ℕ} (hvalid : ctx.partitioning.Valid) (hsize : max ctx.batchSize 20 + maxRows < 2 ^ 32)
  (hrows : ctx.taskId * 1000193 + all.length < 2 ^ 64)
  (hser : ctx.Serializes validUtf8 schema all (max ctx.batchSize 20 + (max ctx.batchSize 20 + maxRows)))

include hvalid hsize hrows hser

lemma SortRepartitioner.Holds.write_spec {s : SortRepartitioner Row} {spilled : List (List Row)} {rows : List Row}
    {numBatches : ℕ} (h : s.Holds ctx validUtf8 schema spilled rows numBatches (max ctx.batchSize 20 + maxRows))
    (hbatches : numBatches < 2 ^ 32) (hall : (spilled.flatten ++ rows).Sublist all) :
    ∃ data offsets, s.data.write ctx = some (data, offsets) ∧
      ctx.Partitioned validUtf8 schema data offsets (rowsAt (ctx.tag 0 rows)) := by
  have hsub : rows.Sublist all := (sublist_append_right _ _).trans hall
  have hle := hsub.length_le
  exact h.data.write_spec hvalid hbatches hsize (by omega) hsub.subperm hser

/-- **A run** keeps every row, in a spill or in the buffer, with its partition. -/
theorem SortRepartitioner.Holds.run_spec (ops : List (Op Row)) {s : SortRepartitioner Row} {spilled : List (List Row)}
    {rows : List Row} {numBatches : ℕ}
    (h : s.Holds ctx validUtf8 schema spilled rows numBatches (max ctx.batchSize 20 + maxRows))
    (hlen : ∀ batch ∈ inserted ops, batch.length ≤ maxRows) (hbatches : numBatches + (inserted ops).length < 2 ^ 32)
    (hall : spilled.flatten ++ rows ++ (inserted ops).flatten = all) :
    ∃ s' spilled' rows' numBatches', ops.foldlM (SortRepartitioner.step ctx) s = some s' ∧
      s'.Holds ctx validUtf8 schema spilled' rows' numBatches' (max ctx.batchSize 20 + maxRows) ∧
      numBatches' < 2 ^ 32 ∧ spilled'.flatten ++ rows' = all ∧
      spilled'.flatMap (ctx.tag 0) ++ ctx.tag 0 rows' =
        spilled.flatMap (ctx.tag 0) ++ ctx.tag 0 rows ++ ctx.assigned rows.length ops := by
  induction ops generalizing s spilled rows numBatches with
  | nil =>
    rw [inserted, flatten_nil, append_nil] at hall
    exact ⟨s, spilled, rows, numBatches, rfl, h, hbatches, hall, (append_nil _).symm⟩
  | cons op ops ih =>
    cases op with
    | insertBatch batch =>
      rw [inserted, flatten_cons, ← append_assoc] at hall
      rw [inserted, length_cons] at hbatches
      have hbatch := hlen batch mem_cons_self
      have hle : (rows ++ batch).length ≤ all.length := by
        rw [← hall]
        simp only [length_append]
        omega
      obtain ⟨d, hadd, hd, hshort⟩ := h.data.addBatch_spec h.short (Nat.add_le_add_left hbatch _) hvalid (by omega) hsize
        (by omega)
      have h' : SortRepartitioner.Holds ctx validUtf8 schema { s with data := d } spilled (rows ++ batch) (numBatches + 1)
          (max ctx.batchSize 20 + maxRows) := ⟨h.spills, hd, hshort⟩
      obtain ⟨s', spilled', rows', n, hrun, hs', hn, hall', htags⟩ := ih h'
        (fun batch hbatch => hlen batch (mem_cons_of_mem _ hbatch)) (by omega)
        (by rw [← hall, ← append_assoc])
      refine ⟨s', spilled', rows', n, ?_, hs', hn, hall', ?_⟩
      · rw [foldlM_cons, SortRepartitioner.step, hadd]
        exact hrun
      · rw [htags, ctx.tag_append, Context.assigned, zero_add, length_append]
        simp only [append_assoc]
    | spill =>
      rw [inserted] at hall
      obtain ⟨data, offsets, hwrite, hpart⟩ := h.write_spec hvalid hsize hrows hser (by omega)
        (hall ▸ sublist_append_left _ _)
      have h' : SortRepartitioner.Holds ctx validUtf8 schema ⟨BufferedData.new, s.spills ++ [⟨offsets, data⟩]⟩
          (spilled ++ [rows]) [] numBatches (max ctx.batchSize 20 + maxRows) :=
        ⟨rel_append h.spills (.cons hpart .nil), holds_new_buffer _ _,
          lt_max_of_lt_right (Nat.zero_lt_succ 19)⟩
      obtain ⟨s', spilled', rows', n, hrun, hs', hn, hall', htags⟩ := ih h' hlen hbatches (by rw [← hall]; simp)
      refine ⟨s', spilled', rows', n, ?_, hs', hn, hall', ?_⟩
      · rw [foldlM_cons, SortRepartitioner.step, SortRepartitioner.spill, hwrite]
        exact hrun
      · rw [htags, Context.assigned]
        simp

end Run

lemma rowsAt_flatMap {ι : Type} (f : ι → List (ℕ × Row)) (xs : List ι) (p : ℕ) :
    rowsAt (xs.flatMap f) p = xs.flatMap fun x => rowsAt (f x) p := by
  rw [rowsAt, filter_flatMap, map_flatMap]
  rfl

lemma flatMap_range_getD {α β : Type} (xs : List (List α)) (f : List α → List β) :
    ((range xs.length).flatMap fun i => f (xs.getD i [])) = xs.flatMap f := by
  rw [flatMap_def]
  congr 1
  refine ext_getElem (by simp) fun i hi _ => ?_
  have hi : i < xs.length := by simpa using hi
  simp [getElem?_eq_getElem hi]

lemma mergeSpills_forall₂ {spills : List (Offsetted 64 Bytes)} {spilled : List (List Row)} (hne : spills ≠ [])
    (h : Forall₂ (fun spill rows =>
      ctx.Partitioned validUtf8 schema spill.data spill.offsets (rowsAt (ctx.tag 0 rows))) spills spilled)
    (hbytes : (spills.map fun spill => spill.data.length).sum < 2 ^ 63) :
    ∃ data offsets, mergeSpills ctx.numPartitions spills = some (data, offsets) ∧ data.length < 2 ^ 63 ∧
      ctx.Partitioned validUtf8 schema data offsets (rowsAt (spilled.flatMap (ctx.tag 0))) := by
  have hspills : ∀ i spill, spills[i]? = some spill →
      ctx.Partitioned validUtf8 schema spill.data spill.offsets (rowsAt (ctx.tag 0 (spilled.getD i []))) ∧
        spill.data.length < 2 ^ 64 := by
    intro i spill hspill
    obtain ⟨hi, rfl⟩ := List.getElem?_eq_some_iff.1 hspill
    have hi' : i < spilled.length := h.length_eq ▸ hi
    refine ⟨?_, ?_⟩
    · rw [getD_eq_getElem _ _ hi']
      exact (forall₂_iff_get.1 h).2 i hi hi'
    · have hle := single_le_sum (l := spills.map fun spill => spill.data.length) (by simp) _
        (mem_map_of_mem (getElem_mem hi))
      omega
  obtain ⟨data, offsets, hmerge, _, hpart⟩ := mergeSpills_spec hne hspills
  refine ⟨data, offsets, hmerge, by omega, hpart.perm fun p _ => Perm.of_eq ?_⟩
  rw [h.length_eq, flatMap_range_getD spilled fun rows => rowsAt (ctx.tag 0 rows) p, rowsAt_flatMap]

/-- **`shuffle_write`** gives a partitioned file of all rows, whether there are spills or not. -/
theorem SortRepartitioner.Holds.shuffleWrite_spec {s : SortRepartitioner Row} {spilled : List (List Row)} {rows : List Row}
    {numBatches maxLen : ℕ} (h : s.Holds ctx validUtf8 schema spilled rows numBatches maxLen) {data : Bytes}
    {offsets : List (BitVec 64)} (hwrite : s.data.write ctx = some (data, offsets))
    (hpart : ctx.Partitioned validUtf8 schema data offsets (rowsAt (ctx.tag 0 rows)))
    (hbytes : (s.spills.map fun spill => spill.data.length).sum + data.length < 2 ^ 63) :
    ∃ data offsets, s.shuffleWrite ctx = some (data, offsets.flatMap le64) ∧ data.length < 2 ^ 63 ∧
      ctx.Partitioned validUtf8 schema data offsets (rowsAt (spilled.flatMap (ctx.tag 0) ++ ctx.tag 0 rows)) := by
  rw [shuffleWrite]
  by_cases hnone : s.spills = []
  · have hspilled : spilled = [] := by
      have := h.spills.length_eq
      rw [hnone] at this
      exact length_eq_zero_iff.1 this.symm
    refine ⟨data, offsets, by rw [if_pos hnone, hwrite, map_some], by omega, ?_⟩
    rw [hspilled]
    exact hpart
  · rw [if_neg hnone]
    by_cases hempty : s.data.isEmpty = true
    · have hrows : rows = [] := by
        rw [BufferedData.isEmpty, Bool.and_eq_true, List.isEmpty_iff, List.isEmpty_iff] at hempty
        exact h.data.eq_nil hempty.1 hempty.2
      obtain ⟨merged, offsets, hmerge, hlen, hmerged⟩ := mergeSpills_forall₂ hnone h.spills (by omega)
      refine ⟨merged, offsets, by rw [if_pos hempty, bind_some, hmerge, map_some], hlen, ?_⟩
      rw [hrows, ctx.tag_nil, append_nil]
      exact hmerged
    · have hne : s.spills ++ [⟨offsets, data⟩] ≠ [] := by simp
      obtain ⟨merged, offsets', hmerge, hlen, hmerged⟩ :=
        mergeSpills_forall₂ hne (rel_append h.spills (.cons hpart .nil)) (by simpa using hbytes)
      refine ⟨merged, offsets', by rw [if_neg hempty, hwrite, map_some, bind_some, hmerge, map_some],
        hlen, ?_⟩
      rw [flatMap_append, flatMap_singleton] at hmerged
      exact hmerged

/-- **A shuffle is written as its partitions.**  After any sequence of batches and spills, within the limits of the
integers of the code, the index file holds the offsets of the partitions in the data file, from zero to its end, and the
range of a partition is read back as the rows that were assigned to it, in some order. -/
theorem shuffleWrite_partitions {ops : List (Op Row)} {maxRows : ℕ} (hwithin : ctx.Within ops maxRows)
    (laws : ctx.codec.Laws) (hser : ctx.Serializes validUtf8 schema (inserted ops).flatten
      (max ctx.batchSize 20 + (max ctx.batchSize 20 + maxRows)))
    (hbytes : ∀ s written, SortRepartitioner.run ctx ops = some s → s.data.write ctx = some written →
      (s.spills.map fun spill => spill.data.length).sum + written.1.length < 2 ^ 63) :
    ∃ (s : SortRepartitioner Row) (data index : Bytes) (offset : ℕ → ℕ),
      SortRepartitioner.run ctx ops = some s ∧ s.shuffleWrite ctx = some (data, index) ∧
      readIndex index = (range (ctx.numPartitions + 1)).map (fun p => (offset p : ℤ)) ∧
      offset 0 = 0 ∧ offset ctx.numPartitions = data.length ∧ Monotone offset ∧
      ∀ p < ctx.numPartitions, ∃ rounds batches,
        readBatches validUtf8 (source : Source UInt8 IoErr (InputState ctx.codec)) schema rounds
          (.blockStart ((data.drop (offset p)).take (offset (p + 1) - offset p))) = some (.ok batches) ∧
        (batches.flatMap ctx.format.rows).Perm (rowsAt (ctx.assigned 0 ops) p) := by
  have hnew : SortRepartitioner.new.Holds ctx validUtf8 schema [] ([] : List Row) 0 (max ctx.batchSize 20 + maxRows) :=
    ⟨.nil, holds_new_buffer _ _, lt_max_of_lt_right (Nat.zero_lt_succ 19)⟩
  obtain ⟨s, _, _, _, hrun, hs, hbatches, hall, htags⟩ :=
    hnew.run_spec hwithin.partitioning hwithin.size hwithin.numRows hser ops hwithin.batches
      (by have := hwithin.numBatches; omega) rfl
  obtain ⟨_, _, hwrite, hpart⟩ := hs.write_spec hwithin.partitioning hwithin.size hwithin.numRows hser hbatches
    (hall ▸ Sublist.refl _)
  obtain ⟨data, _, hshuffle, hlen, hparts⟩ := hs.shuffleWrite_spec hwrite hpart (hbytes s _ hrun hwrite)
  rw [htags] at hparts
  obtain ⟨offset, hindex, hzero, hend, hmono, hstores⟩ := hparts.files hlen
  exact ⟨s, data, _, offset, hrun, hshuffle, hindex, hzero, hend, hmono, fun p hp =>
    (hstores p hp).decodes laws hser.noTimezone⟩

end Task

/-! ### Rows of one byte -/

def byteOf : List Value → UInt8
  | [.native [b]] => b
  | _ => 0

def byteFormat : BatchFormat UInt8 where
  columns rows := [.primitive .int8 rows rows.length none]
  rows batch := (range batch.1).map fun i => byteOf (batch.2.map fun col => col.value i)
  batchMemSize := length

/-- A task on such rows, whose blocks are stored as they are, one block for each batch. -/
def byteContext (partitioning : Partitioning UInt8 ℕ) : Context UInt8 ℕ where
  taskId := 0
  partitioning
  format := byteFormat
  batchSize := 10000
  suggestedBatchMemSize := 8388608
  codec := storeCodec
  isFull _ := true

lemma byteFormat_roundTrips {rows : List UInt8} (h : rows.length < 2 ^ 64) :
    byteFormat.RoundTrips (fun _ => true) [.primitive .int8] rows := by
  refine ⟨⟨h, rfl, fun col hcol => ?_⟩, ?_⟩
  · obtain rfl := mem_singleton.1 hcol
    exact ⟨⟨rfl, (one_mul _).symm, nofun⟩, rfl⟩
  · rintro ⟨n, _⟩ ⟨hn, hcols⟩
    obtain rfl : n = rows.length := hn
    obtain ⟨col, _, hcol, hnil, rfl⟩ := forall₂_cons_right_iff.1 hcols
    obtain rfl := forall₂_nil_right_iff.1 hnil
    refine ext_getElem (by simp [byteFormat]) fun i hi _ => ?_
    have hi : i < rows.length := by simpa [byteFormat] using hi
    have hvalue : col.value i = .native [rows[i]] := by
      rw [hcol.value i hi]
      show Value.native ((rows.drop (1 * i)).take 1) = _
      rw [one_mul, drop_eq_getElem_cons hi]
      rfl
    simp [byteFormat, hvalue, byteOf]

lemma cutBlocks_byteContext (partitioning : Partitioning UInt8 ℕ) (batches : List (List UInt8)) :
    (byteContext partitioning).cutBlocks [] batches = batches.map fun rows => [rows] := by
  induction batches with
  | nil => rfl
  | cons rows batches ih => rw [map_cons, ← ih]; rfl

def byteOps : List (Op UInt8) := [.insertBatch [7, 8], .spill, .insertBatch [9]]

lemma serializes_byteContext (limit : ℕ) :
    (byteContext (.roundRobin 2)).Serializes (fun _ => true) [.primitive .int8] (inserted byteOps).flatten limit := by
  refine ⟨by simp [DataType.noTimezone], fun rows hsub _ => byteFormat_roundTrips ?_,
    fun batches hbatches block hblock => ?_⟩
  · exact lt_of_le_of_lt hsub.length_le (by decide)
  · rw [cutBlocks_byteContext] at hblock
    obtain ⟨rows, hrows, rfl⟩ := mem_map.1 hblock
    have hlen : rows.length ≤ 3 := (hbatches rows hrows).1.length_le
    match rows, hlen with
    | [], _ => exact show 2 < 2 ^ 32 by decide
    | [_], _ => exact show 3 < 2 ^ 32 by decide
    | [_, _], _ => exact show 4 < 2 ^ 32 by decide
    | [_, _, _], _ => exact show 5 < 2 ^ 32 by decide

def byteState : SortRepartitioner UInt8 :=
  ⟨⟨[[9]], 1, 2, [], [], 1, 0⟩, [⟨[0, 7, 14], [3, 0, 0, 0, 1, 0, 7, 3, 0, 0, 0, 1, 0, 8]⟩]⟩

lemma run_byteOps : SortRepartitioner.run (byteContext (.roundRobin 2)) byteOps = some byteState := rfl

/-- The three rows of the two batches in two partitions. -/
theorem shuffleWrite_partitions_byteOps : ∃ (s : SortRepartitioner UInt8) (data index : Bytes) (offset : ℕ → ℕ),
    SortRepartitioner.run (byteContext (.roundRobin 2)) byteOps = some s ∧
    s.shuffleWrite (byteContext (.roundRobin 2)) = some (data, index) ∧
    readIndex index = (range 3).map (fun p => (offset p : ℤ)) ∧
    offset 0 = 0 ∧ offset 2 = data.length ∧ Monotone offset ∧
    ∀ p < 2, ∃ rounds batches,
      readBatches (fun _ => true) (source : Source UInt8 IoErr (InputState storeCodec)) [.primitive .int8] rounds
        (.blockStart ((data.drop (offset p)).take (offset (p + 1) - offset p))) = some (.ok batches) ∧
      (batches.flatMap byteFormat.rows).Perm (rowsAt [(0, 7), (1, 8), (0, 9)] p) := by
  have hwithin : (byteContext (.roundRobin 2)).Within byteOps 2 :=
    ⟨⟨by decide, by decide, trivial⟩, by decide, by decide, by decide, by decide⟩
  refine shuffleWrite_partitions hwithin storeLaws (serializes_byteContext _) ?_
  intro s _ hs hwritten
  rw [run_byteOps] at hs
  obtain rfl := Option.some.inj hs
  obtain rfl := Option.some.inj hwritten
  decide

/-- The number of partitions as an `i32`: with `2 ^ 32` partitions the hash is divided by zero. -/
theorem hash_partitions_overflow :
    ((SortRepartitioner.run (byteContext (.hash (fun _ => 0) (2 ^ 32))) [.insertBatch [7]]).bind fun s =>
      s.shuffleWrite (byteContext (.hash (fun _ => 0) (2 ^ 32)))) = none := rfl

end Auron.Shuffle
