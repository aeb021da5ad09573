import Auron.Lib.Gather
import Mathlib.Data.BitVec

/-!
# Partition ids (`shuffle/mod.rs`)

The three ways a shuffle assigns its rows to partitions, as the code computes them: the hash modulo the number of
partitions, with the `i32` arithmetic of `rem_euclid`; the number of the row, round robin; and the place of the sort key
among the bounds, searched for from the left or, among many bounds, by bisection.

`partitionId` is what they are meant to compute, for a row and its number among the rows since the buffer was last
drained.  `partIds_eq` says that they do, for fewer than `2 ^ 31` partitions and, in the case of a range, strictly
increasing bounds that leave no row behind the last partition (`Valid`).
-/

namespace Auron.Shuffle

open Auron.Lib List

variable {Row K : Type}

/-- `Partitioning`.  The expressions are evaluated row by row, to the hash or the sort key of a row. -/
inductive Partitioning (Row K : Type) where
  | roundRobin (n : ℕ)
  | hash (eval : Row → BitVec 32) (n : ℕ)
  | single
  | range (key : Row → K) (n : ℕ) (bounds : List K)

def Partitioning.partitionCount : Partitioning Row K → ℕ
  | roundRobin n | hash _ n | range _ n _ => n
  | single => 1

/-- `i32::rem_euclid`, which panics if the divisor is zero and if the quotient overflows. -/
def remEuclid (a b : BitVec 32) : Option ℕ :=
  if b = 0 ∨ (a = BitVec.intMin 32 ∧ b = -1) then none else some (a.toInt % b.toInt).toNat

/-- `evaluate_partition_ids`; the number of partitions is cast to `i32`. -/
def evaluatePartitionIds (hashes : List (BitVec 32)) (numPartitions : ℕ) : Option (List ℕ) :=
  collect (fun h => remEuclid h (BitVec.ofNat 32 numPartitions)) hashes

def evaluateRobinPartitionIds (partitionNum numRows startRows : ℕ) : List ℕ :=
  (range numRows).map fun i => (i + startRows) % partitionNum % 2 ^ 32

section Search

variable [LinearOrder K]

/-- The loop of `binary_search`; it takes fewer rounds than there are rows left, so it never runs out of them. -/
def binarySearchLoop (rows : List K) (target : K) : ℕ → ℤ → ℤ → Option ℕ
  | 0, _, _ => none
  | rounds + 1, low, high =>
    if low ≤ high then
      let mid := (low + high) / 2
      rows[mid.toNat]?.bind fun midVal =>
        if midVal < target then binarySearchLoop rows target rounds (mid + 1) high
        else if target < midVal then binarySearchLoop rows target rounds low (mid - 1)
        else some mid.toNat
    else some low.toNat

def binarySearch (rows : List K) (target : K) (fromIndex toIndex : ℤ) : Option ℕ :=
  binarySearchLoop rows target (rows.length + 1) fromIndex (toIndex - 1)

/-- The naive search of `get_partition`. -/
def naiveSearch (key : K) : List K → ℕ
  | [] => 0
  | bound :: bounds => if bound < key then naiveSearch key bounds + 1 else 0

def getPartition (key : K) (bounds : List K) (ascending : Bool) : Option ℕ :=
  let numRows := bounds.length
  let partition := if numRows ≤ 128 then some (naiveSearch key bounds)
    else (binarySearch bounds key 0 numRows).map fun partition => if numRows < partition then numRows else partition
  partition.map fun partition => (if ascending then partition else numRows - partition) % 2 ^ 32

/-- The partition ids of a batch in `sort_batches_by_partition_id`; a single partition is unreachable there. -/
def Partitioning.partIds (startRows : ℕ) (batch : List Row) : Partitioning Row K → Option (List ℕ)
  | hash eval n => evaluatePartitionIds (batch.map eval) n
  | roundRobin n => some (evaluateRobinPartitionIds n batch.length startRows)
  | range key _ bounds => collect (fun row => getPartition (key row) bounds true) batch
  | single => none

/-! ### What they compute -/

/-- The partition of row `k` since the buffer was drained, in task `taskId`. -/
def Partitioning.partitionId (taskId k : ℕ) (row : Row) : Partitioning Row K → ℕ
  | roundRobin n => (taskId * 1000193 + k) % n
  | hash eval n => ((eval row).toInt % n).toNat
  | range key _ bounds => bounds.countP fun bound => bound < key row
  | single => 0

/-- The partitionings that are written by sorting, with their limits. -/
def Partitioning.Valid (part : Partitioning Row K) : Prop :=
  0 < part.partitionCount ∧ part.partitionCount < 2 ^ 31 ∧
    match part with
    | range _ n bounds => bounds.Pairwise (· < ·) ∧ bounds.length < n
    | single => False
    | _ => True

lemma countP_lt_eq {rows : List K} {target : K} {n : ℕ} (hn : n ≤ rows.length)
    (hlt : ∀ i h, rows[i] < target ↔ i < n) : rows.countP (fun x => x < target) = n := by
  have htake : (rows.take n).countP (fun x => x < target) = n := by
    rw [countP_eq_length.2, length_take, min_eq_left hn]
    intro x hx
    obtain ⟨i, hi, rfl⟩ := getElem_of_mem hx
    rw [length_take] at hi
    rw [getElem_take]
    exact decide_eq_true ((hlt i (by omega)).2 (by omega))
  have hdrop : (rows.drop n).countP (fun x => x < target) = 0 := by
    rw [countP_eq_zero]
    intro x hx
    obtain ⟨i, hi, rfl⟩ := getElem_of_mem hx
    rw [length_drop] at hi
    rw [getElem_drop, decide_eq_true_eq, hlt (n + i) (by omega)]
    omega
  rw [← take_append_drop n rows, countP_append, htake, hdrop, add_zero]

lemma naiveSearch_eq (key : K) {bounds : List K} (h : bounds.Pairwise (· < ·)) :
    naiveSearch key bounds = bounds.countP fun bound => bound < key := by
  induction bounds with
  | nil => rfl
  | cons bound bounds ih =>
    obtain ⟨hbound, hbounds⟩ := pairwise_cons.1 h
    rw [naiveSearch]
    by_cases hlt : bound < key
    · rw [if_pos hlt, ih hbounds, countP_cons_of_pos (by simpa using hlt)]
    · have hnone : (bound :: bounds).countP (fun bound => bound < key) = 0 := by
        simp only [countP_eq_zero, decide_eq_true_eq]
        exact forall_mem_cons.2 ⟨hlt, fun x hx hxk => hlt ((hbound x hx).trans hxk)⟩
      rw [if_neg hlt, hnone]

/-- **The bisection finds the number of smaller rows.**  The rows before `low` are smaller than the target, those behind
`high` are larger. -/
theorem binarySearchLoop_eq {rows : List K} (h : rows.Pairwise (· < ·)) (target : K) (rounds : ℕ) (low high : ℤ)
    (hlow : 0 ≤ low) (hhigh : high < rows.length) (hle : low ≤ high + 1) (hrounds : high + 1 - low < rounds)
    (hbefore : ∀ (i : ℕ) (hi : i < rows.length), (i : ℤ) < low → rows[i] < target)
    (hbehind : ∀ (i : ℕ) (hi : i < rows.length), high < (i : ℤ) → target < rows[i]) :
    binarySearchLoop rows target rounds low high = some (rows.countP fun x => x < target) := by
  have hsorted := h.sortedLT
  induction rounds generalizing low high with
  | zero => omega
  | succ rounds ih =>
    rw [binarySearchLoop]
    by_cases hmore : low ≤ high
    · obtain ⟨mid, hmid⟩ : ∃ mid : ℕ, (mid : ℤ) = (low + high) / 2 := ⟨((low + high) / 2).toNat, by omega⟩
      have hin : mid < rows.length := by omega
      rw [if_pos hmore, ← hmid]
      dsimp only
      rw [Int.toNat_natCast, getElem?_eq_getElem hin, Option.bind_some]
      rcases lt_trichotomy rows[mid] target with hlt | heq | hgt
      · rw [if_pos hlt]
        refine ih _ _ (by omega) hhigh (by omega) (by omega) (fun i hi himid => ?_) hbehind
        exact (hsorted.getElem_le_getElem_iff.2 (show i ≤ mid by omega)).trans_lt hlt
      · rw [if_neg (by rw [heq]; exact lt_irrefl _), if_neg (by rw [heq]; exact lt_irrefl _)]
        refine congrArg some (countP_lt_eq hin.le fun i hi => ?_).symm
        rw [← heq, hsorted.getElem_lt_getElem_iff]
      · rw [if_neg (lt_asymm hgt), if_pos hgt]
        refine ih _ _ hlow (by omega) (by omega) (by omega) hbefore fun i hi himid => ?_
        exact hgt.trans_le (hsorted.getElem_le_getElem_iff.2 (show mid ≤ i by omega))
    · rw [if_neg hmore]
      refine congrArg some (countP_lt_eq (by omega) fun i hi => ⟨fun hlt => ?_, fun hil => hbefore i hi (by omega)⟩).symm
      by_contra hil
      exact lt_asymm hlt (hbehind i hi (by omega))

variable {bounds : List K}

lemma binarySearch_eq (key : K) (h : bounds.Pairwise (· < ·)) :
    binarySearch bounds key 0 bounds.length = some (bounds.countP fun bound => bound < key) :=
  binarySearchLoop_eq h key _ _ _ le_rfl (by omega) (by omega) (by omega) (fun i hi hlt => by omega)
    fun i hi hlt => by omega

lemma getPartition_eq_mod (key : K) (h : bounds.Pairwise (· < ·)) :
    getPartition key bounds true = some (bounds.countP (fun bound => bound < key) % 2 ^ 32) := by
  have hle : bounds.countP (fun bound => bound < key) ≤ bounds.length := countP_le_length
  rw [getPartition]
  by_cases hfew : bounds.length ≤ 128
  · rw [if_pos hfew, naiveSearch_eq key h, Option.map_some, if_pos rfl]
  · rw [if_neg hfew, binarySearch_eq key h, Option.map_some, Option.map_some, if_neg (Nat.not_lt.2 hle), if_pos rfl]

lemma getPartition_eq (key : K) (h : bounds.Pairwise (· < ·)) (hsmall : bounds.length < 2 ^ 32) :
    getPartition key bounds true = some (bounds.countP fun bound => bound < key) := by
  rw [getPartition_eq_mod key h, Nat.mod_eq_of_lt (countP_le_length.trans_lt hsmall)]

/-- **A range partitioning counts the bounds below the key**, whichever search it uses, and keeps the order of the keys. -/
theorem getPartition_counts_bounds (h : bounds.Pairwise (· < ·)) (hsmall : bounds.length < 2 ^ 32) :
    (∀ key, getPartition key bounds true = some (bounds.countP fun bound => bound < key)
      ∧ naiveSearch key bounds = bounds.countP (fun bound => bound < key)
      ∧ binarySearch bounds key 0 bounds.length = some (bounds.countP fun bound => bound < key)
      ∧ bounds.countP (fun bound => bound < key) ≤ bounds.length)
    ∧ ∀ key key' p p', key ≤ key' → getPartition key bounds true = some p → getPartition key' bounds true = some p' →
      p ≤ p' := by
  refine ⟨fun key => ⟨getPartition_eq key h hsmall, naiveSearch_eq key h, binarySearch_eq key h, countP_le_length⟩,
    fun key key' p p' hle hp hp' => ?_⟩
  rw [getPartition_eq key h hsmall] at hp
  rw [getPartition_eq key' h hsmall] at hp'
  obtain rfl := Option.some.inj hp
  obtain rfl := Option.some.inj hp'
  refine countP_mono_left fun bound _ hlt => ?_
  rw [decide_eq_true_eq] at hlt ⊢
  exact hlt.trans_le hle

theorem getPartition_counts_bounds_two :
    (∀ key, getPartition key [1, 3] true = some ([1, 3].countP fun bound => bound < key))
    ∧ getPartition 3 [1, 3] true = some 1 :=
  ⟨fun key => ((getPartition_counts_bounds (by decide) (by decide)).1 key).1, by decide⟩

lemma getPartition_range (n : ℕ) : (range n).Pairwise (· < ·)
    ∧ (range n).countP (fun bound => bound < n) = n
    ∧ getPartition n (range n) true = some (n % 2 ^ 32) := by
  have hsorted : (range n).Pairwise (· < ·) := pairwise_lt_range
  have hcount : (range n).countP (fun bound => bound < n) = (range n).length :=
    countP_eq_length.2 fun bound hbound => decide_eq_true (mem_range.1 hbound)
  rw [length_range] at hcount
  exact ⟨hsorted, hcount, by rw [getPartition_eq_mod _ hsorted, hcount]⟩

/-- With `2 ^ 32` bounds the number of those below the key is too large for a partition id. -/
theorem getPartition_wraps : (range (2 ^ 32)).Pairwise (· < ·)
    ∧ (range (2 ^ 32)).countP (fun bound => bound < 2 ^ 32) = 2 ^ 32
    ∧ getPartition (2 ^ 32) (range (2 ^ 32)) true = some 0 :=
  Nat.mod_self (2 ^ 32) ▸ getPartition_range (2 ^ 32)

/-- **The hash modulo the number of partitions.** -/
theorem remEuclid_ofNat (h : BitVec 32) {n : ℕ} (hpos : 0 < n) (hsmall : n < 2 ^ 31) :
    remEuclid h (BitVec.ofNat 32 n) = some (h.toInt % n).toNat := by
  have hint : (BitVec.ofNat 32 n).toInt = n := by
    rw [BitVec.toInt_eq_toNat_of_lt (by rw [BitVec.toNat_ofNat]; omega), BitVec.toNat_ofNat, Nat.mod_eq_of_lt (by omega)]
  have hzero : BitVec.ofNat 32 n ≠ 0 := fun heq => by
    rw [heq] at hint
    simp at hint
    omega
  have hneg : BitVec.ofNat 32 n ≠ -1 := fun heq => by
    rw [heq] at hint
    have : (-1 : BitVec 32).toInt = -1 := by decide
    omega
  rw [remEuclid, if_neg (not_or.2 ⟨hzero, fun h => hneg h.2⟩), hint]

lemma Partitioning.partitionId_lt {part : Partitioning Row K} (h : part.Valid) (taskId k : ℕ) (row : Row) :
    part.partitionId taskId k row < part.partitionCount := by
  obtain ⟨hpos, -, hpart⟩ := h
  cases part with
  | roundRobin n => exact Nat.mod_lt _ hpos
  | hash eval n =>
    have hpos : (0 : ℤ) < n := by exact_mod_cast hpos
    have hlt := Int.emod_lt_of_pos (eval row).toInt hpos
    show ((eval row).toInt % n).toNat < n
    omega
  | range key n bounds => exact lt_of_le_of_lt countP_le_length hpart.2
  | single => exact hpart.elim

/-- The round robin counter is at row `k`. -/
def Partitioning.CountsTo (taskId k startRows : ℕ) (part : Partitioning Row K) : Prop :=
  ∀ n, part = .roundRobin n → startRows % n = (taskId * 1000193 + k) % n

/-- **The ids of a batch** whose first row has number `k`. -/
theorem Partitioning.partIds_eq {part : Partitioning Row K} (h : part.Valid) {taskId k startRows : ℕ}
    (hstart : part.CountsTo taskId k startRows) (batch : List Row) :
    part.partIds startRows batch = some (batch.mapIdx fun i row => part.partitionId taskId (k + i) row) := by
  obtain ⟨hpos, hsmall, hpart⟩ := h
  cases part with
  | roundRobin n =>
    refine congrArg some (ext_getElem (by simp [evaluateRobinPartitionIds]) fun i _ _ => ?_)
    have hmod : (i + startRows) % n = (taskId * 1000193 + (k + i)) % n := by
      rw [add_comm, ← Nat.mod_add_mod, hstart n rfl, Nat.mod_add_mod, add_assoc]
    have hlt : (i + startRows) % n < 2 ^ 32 := (Nat.mod_lt _ hpos).trans (hsmall.trans (by decide))
    simp only [evaluateRobinPartitionIds, getElem_map, getElem_range, getElem_mapIdx]
    rw [Nat.mod_eq_of_lt hlt, hmod]
    rfl
  | hash eval n =>
    have heval : ∀ row ∈ batch, remEuclid (eval row) (BitVec.ofNat 32 n) = some ((eval row).toInt % n).toNat :=
      fun row _ => remEuclid_ofNat (eval row) hpos hsmall
    rw [partIds, evaluatePartitionIds, collect_map, collect_eq_map heval]
    exact congrArg some (ext_getElem (by simp) fun i _ _ => by simp [partitionId])
  | range key n bounds =>
    have hbounds : bounds.length < 2 ^ 32 := hpart.2.trans (hsmall.trans (by decide))
    rw [partIds, collect_eq_map fun row _ => getPartition_eq (key row) hpart.1 hbounds]
    exact congrArg some (ext_getElem (by simp) fun i _ _ => by simp [partitionId])
  | single => exact hpart.elim

end Search

end Auron.Shuffle
