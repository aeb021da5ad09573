import Mathlib.Data.Finset.Card
import Auron.Io.Bytes
import Auron.Lib.GroupScan

/-!
# Window functions (`window/mod.rs`, `window/window_context.rs`, `window/processors`)

A processor reads the rows batch by batch and answers each row with the value of its function.  It remembers the partition
it is in, by the encoded partition columns, and starts anew when they change.  `RankProcessor` also compares the encoded
order columns with those of the row before.

`WindowFunction.value` says what a function is: the value at a row, from the rows of its partition before it.  On rows that
are clustered by partition and sorted within, the processors compute it, however the rows are split into batches
(`processBatch_createProcessor`).
-/

namespace Auron.Window

open Lib Io List

/-! ### Rows, functions, specs -/

/-- A value of a column: of type `Int32`, which a group limit can be compared with, or of another type. -/
inductive Value (V : Type) where
  | int32 (v : Option ℤ)
  | other (v : Option V)
  deriving DecidableEq

variable {V : Type}

def Value.isNull : Value V → Bool
  | int32 v => v.isNone
  | other v => v.isNone

section Rows

variable (V : Type)

abbrev Row := List (Value V)

/-- The arithmetic of `i32`. -/
def wrap32 (x : ℤ) : ℤ := x.bmod (2 ^ 32)

lemma wrap32_eq {x : ℤ} (h₀ : 0 ≤ x) (h : x < 2 ^ 31) : wrap32 x = x := by
  rw [wrap32, Int.bmod_def]
  omega

inductive WindowRankType where
  | rowNumber
  | rank
  | denseRank
  deriving DecidableEq

/-- The input and the offset of `nth_value`; `nullValue` is the null of the type of the input. -/
structure NthValue where
  input : Row V → Value V
  nullValue : Value V
  offset : ℕ
  offset_pos : 0 < offset
  ignoreNulls : Bool

structure RunningAgg where
  Acc : Type
  createAccColumn : Acc
  partialUpdate : Acc → Row V → Acc
  finalMerge : Acc → Acc × Value V

/-- `WindowFunction`, those that do not need the whole partition. -/
inductive WindowFunction where
  | rankLike (t : WindowRankType)
  | nthValue (n : NthValue V)
  | agg (a : RunningAgg V)

/-- The partition and order specs of a `WindowContext`: what its row converters make of the columns of a row. -/
structure WindowSpec where
  hasPartition : Bool
  partitionOf : Row V → Bytes
  orderOf : Row V → Bytes

/-! ### Processors -/

/-- `WindowFunctionProcessor`, with the state it is in. -/
structure Processor where
  State : Type
  state : State
  step : State → Row V → State × Value V

end Rows

def Processor.processBatch (p : Processor V) (batch : List (Row V)) : Processor V × List (Value V) :=
  let r := steps p.step p.state batch
  ({ p with state := r.1 }, r.2)

variable (spec : WindowSpec V)

/-- `same_partition`, and the partition from here on. -/
def samePartition (curPartition : Bytes) (row : Row V) : Bool × Bytes :=
  if !spec.hasPartition then (true, curPartition)
  else if spec.partitionOf row ≠ curPartition then (false, spec.partitionOf row)
  else (true, curPartition)

def resettingStep {σ : Type} (m : Machine (Row V) (Value V) σ) (s : Bytes × σ) (row : Row V) : (Bytes × σ) × Value V :=
  let (same, curPartition) := samePartition spec s.1 row
  let r := m.step (if same then s.2 else m.start) row
  ((curPartition, r.1), r.2)

/-- The counter of `RowNumberProcessor`. -/
def rowNumberMachine : Machine (Row V) (Value V) ℤ where
  start := 0
  step n _ := (wrap32 (n + 1), .int32 (some (wrap32 (n + 1))))

/-- What `NthValueProcessor` keeps: `observed_rows` and `nth_value`. -/
def nthValueMachine (n : NthValue V) : Machine (Row V) (Value V) (ℕ × Option (Value V)) where
  start := (0, none)
  step s row :=
    let s :=
      if s.2.isNone then
        if !n.ignoreNulls || !(n.input row).isNull then
          (s.1 + 1, if s.1 + 1 = n.offset then some (n.input row) else s.2)
        else s
      else s
    (s, s.2.getD n.nullValue)

/-- The accumulator of `AggProcessor`. -/
def aggMachine (a : RunningAgg V) : Machine (Row V) (Value V) a.Acc where
  start := a.createAccColumn
  step acc row := a.finalMerge (a.partialUpdate acc row)

/-- What `RankProcessor` keeps beside the partition. -/
structure RankState where
  curOrder : Bytes
  curRank : ℤ
  curEquals : ℤ
  deriving DecidableEq

def RankState.next (isDense : Bool) (s : RankState) (order : Bytes) : RankState :=
  if order = s.curOrder then { s with curEquals := wrap32 (s.curEquals + 1) }
  else ⟨order, wrap32 (s.curRank + if !isDense then s.curEquals else 1), 1⟩

/-- The step of `RankProcessor`. -/
def rankStep (isDense : Bool) (s : Bytes × RankState) (row : Row V) : (Bytes × RankState) × Value V :=
  let (same, curPartition) := samePartition spec s.1 row
  let r := if same then s.2.next isDense (spec.orderOf row) else ⟨spec.orderOf row, 1, 1⟩
  ((curPartition, r), .int32 (some r.curRank))

def RowNumberProcessor : Processor V :=
  ⟨_, ([], (rowNumberMachine (V := V)).start), resettingStep spec rowNumberMachine⟩

def RankProcessor (isDense : Bool) : Processor V := ⟨_, ([], ⟨[], 0, 1⟩), rankStep spec isDense⟩

def NthValueProcessor (n : NthValue V) : Processor V :=
  ⟨_, ([], (nthValueMachine n).start), resettingStep spec (nthValueMachine n)⟩

def AggProcessor (a : RunningAgg V) : Processor V := ⟨_, ([], (aggMachine a).start), resettingStep spec (aggMachine a)⟩

def createProcessor : WindowFunction V → Processor V
  | .rankLike .rowNumber => RowNumberProcessor spec
  | .rankLike .rank => RankProcessor spec false
  | .rankLike .denseRank => RankProcessor spec true
  | .nthValue n => NthValueProcessor spec n
  | .agg a => AggProcessor spec a

lemma processBatch_append (p : Processor V) (xs ys : List (Row V)) :
    p.processBatch (xs ++ ys) = (((p.processBatch xs).1.processBatch ys).1,
      (p.processBatch xs).2 ++ ((p.processBatch xs).1.processBatch ys).2) := by
  simp only [Processor.processBatch, steps_append]

/-! ### What the functions are -/

/-- The number of a row, its rank, and its rank without gaps, after the rows of its partition before it. -/
def WindowRankType.value (before : List (Row V)) (row : Row V) : WindowRankType → ℕ
  | rowNumber => before.length + 1
  | rank => before.countP (fun x => spec.orderOf x < spec.orderOf row) + 1
  | denseRank => ((before.map spec.orderOf).toFinset.filter (· < spec.orderOf row)).card + 1

def NthValue.counted (n : NthValue V) (rows : List (Row V)) : List (Value V) :=
  (rows.map n.input).filter fun v => !n.ignoreNulls || !v.isNull

/-- **The value of a function at a row, after the rows of its partition before it.** -/
def WindowFunction.value (before : List (Row V)) (row : Row V) : WindowFunction V → Value V
  | rankLike t => .int32 (some (t.value spec before row))
  | nthValue n => (n.counted (before ++ [row]))[n.offset - 1]?.getD n.nullValue
  | agg a => (aggMachine a).value before row

def WindowSpec.partitionKey (row : Row V) : Bytes := if spec.hasPartition then spec.partitionOf row else []

/-- Whether `RankProcessor`, which starts with an empty partition and an empty order key, sees a change in the first row. -/
def WindowSpec.Starts (rows : List (Row V)) : Prop :=
  ∀ row ∈ rows.head?, spec.partitionKey row ≠ [] ∨ spec.orderOf row ≠ []

/-- Rows clustered by partition and sorted by the order columns, the first of which has an order or partition key; row
numbers fit an `i32`. -/
structure WindowSpec.Input (rows : List (Row V)) : Prop where
  clustered : Clustered spec.partitionKey rows
  sorted : rows.Pairwise fun x y => spec.partitionKey x = spec.partitionKey y → spec.orderOf x ≤ spec.orderOf y
  starts : spec.Starts rows
  length_lt : rows.length < 2 ^ 31

/-! ### The processors compute the functions -/

/-- Without a partition spec the partition is never set. -/
def PartitionFits (cur : Bytes) : Prop := spec.hasPartition = false → cur = []

variable {spec}

lemma samePartition_eq {cur : Bytes} (hcur : PartitionFits spec cur) (row : Row V) :
    samePartition spec cur row = (decide (spec.partitionKey row = cur), spec.partitionKey row) ∧
      PartitionFits spec (spec.partitionKey row) := by
  rw [samePartition, WindowSpec.partitionKey, PartitionFits]
  cases hpart : spec.hasPartition with
  | false =>
    rw [PartitionFits, hpart] at hcur
    simp [hcur rfl]
  | true => by_cases h : spec.partitionOf row = cur <;> simp [h]

lemma resettingStep_eq {σ : Type} (m : Machine (Row V) (Value V) σ) {s : Bytes × σ} (hs : PartitionFits spec s.1)
    (row : Row V) : resettingStep spec m s row = groupedStep spec.partitionKey m s row := by
  rw [resettingStep, (samePartition_eq hs row).1, groupedStep]
  simp only [decide_eq_true_eq]

variable {rows : List (Row V)}

/-- **The processors that start anew.** -/
theorem steps_resetting {σ : Type} (m : Machine (Row V) (Value V) σ) (h : Clustered spec.partitionKey rows) :
    (steps (resettingStep spec m) ([], m.start) rows).2 = scan spec.partitionKey m.value [] rows := by
  rw [← steps_grouped m [] h]
  refine steps_sim (R := fun s s' => s = s' ∧ PartitionFits spec s.1) ?_ rows ⟨rfl, fun _ => rfl⟩
  rintro s _ row ⟨rfl, hs⟩
  rw [resettingStep_eq m hs row]
  exact ⟨rfl, rfl, (samePartition_eq hs row).2⟩

/-- `RankProcessor` as a machine that starts anew. -/
def rankMachine (spec : WindowSpec V) (isDense : Bool) : Machine (Row V) (Value V) (Option RankState) where
  start := none
  step s row :=
    let r := s.elim ⟨spec.orderOf row, 1, 1⟩ fun s => s.next isDense (spec.orderOf row)
    (some r, .int32 (some r.curRank))

variable {row : Row V}

/-- The states of `RankProcessor` and of the grouped machine behind the first row. -/
def RankStates (spec : WindowSpec V) (s : Bytes × RankState) (s' : Bytes × Option RankState) : Prop :=
  s' = (s.1, some s.2) ∧ PartitionFits spec s.1

lemma rankStep_states (isDense : Bool) (row : Row V) {s : Bytes × RankState} {s' : Bytes × Option RankState}
    (h : RankStates spec s s') :
    (rankStep spec isDense s row).2 = (groupedStep spec.partitionKey (rankMachine spec isDense) s' row).2 ∧
      RankStates spec (rankStep spec isDense s row).1
        (groupedStep spec.partitionKey (rankMachine spec isDense) s' row).1 := by
  obtain ⟨rfl, hs⟩ := h
  obtain ⟨hsame, hfits⟩ := samePartition_eq hs row
  rw [rankStep, hsame, groupedStep]
  by_cases hkey : spec.partitionKey row = s.1
  · simp [hkey, rankMachine, RankStates, hs]
  · simp [hkey, rankMachine, RankStates, hfits]

/-- The first row has rank one, unless it has neither a partition nor an order key: then it is taken for a peer of a row
before it. -/
lemma rankStep_first (isDense : Bool) (row : Row V) : rankStep spec isDense ([], ⟨[], 0, 1⟩) row =
    ((spec.partitionKey row, if spec.partitionKey row ≠ [] ∨ spec.orderOf row ≠ [] then ⟨spec.orderOf row, 1, 1⟩
      else ⟨[], 0, 2⟩), .int32 (some (if spec.partitionKey row ≠ [] ∨ spec.orderOf row ≠ [] then 1 else 0))) := by
  rw [rankStep, (samePartition_eq (fun _ => rfl) row).1]
  by_cases hkey : spec.partitionKey row = []
  · by_cases horder : spec.orderOf row = []
    · simp [hkey, horder, RankState.next, wrap32]
    · cases isDense <;> simp [hkey, horder, RankState.next, wrap32]
  · simp [hkey]

lemma steps_rank (isDense : Bool) (h : spec.Input rows) : (steps (rankStep spec isDense) ([], ⟨[], 0, 1⟩) rows).2 =
      scan spec.partitionKey (rankMachine spec isDense).value [] rows := by
  rw [← steps_grouped (rankMachine spec isDense) [] h.clustered]
  cases rows with
  | nil => rfl
  | cons row rows =>
    have hfirst : rankStep spec isDense ([], ⟨[], 0, 1⟩) row = _ := rankStep_first isDense row
    have hstarts := h.starts row rfl
    rw [if_pos hstarts, if_pos hstarts] at hfirst
    have hgrouped : groupedStep spec.partitionKey (rankMachine spec isDense) ([], (rankMachine spec isDense).start) row =
        ((spec.partitionKey row, some ⟨spec.orderOf row, 1, 1⟩), .int32 (some 1)) := by
      rw [groupedStep, ite_self]
      rfl
    rw [steps, steps, hfirst, hgrouped]
    have hfits : PartitionFits spec (spec.partitionKey row) := (samePartition_eq (fun _ => rfl) row).2
    refine congrArg (_ :: ·) ?_
    have hstates : RankStates spec (spec.partitionKey row, ⟨spec.orderOf row, 1, 1⟩)
        (spec.partitionKey row, some ⟨spec.orderOf row, 1, 1⟩) := ⟨rfl, hfits⟩
    exact steps_sim (fun _ _ row hs => rankStep_states isDense row hs) rows hstates

/-! The machines on the rows of one partition. -/

lemma rowNumberMachine_state (rows : List (Row V)) (h : rows.length < 2 ^ 31) :
    rowNumberMachine.state rows = (rows.length : ℤ) := by
  induction rows using reverseRecOn with
  | nil => rfl
  | append_singleton rows row ih =>
    rw [length_append, length_singleton] at h ⊢
    rw [Machine.state_concat, ih (by omega)]
    dsimp only [rowNumberMachine]
    rw [wrap32_eq (by omega) (by omega), Nat.cast_add, Nat.cast_one]

lemma nthValueMachine_state (n : NthValue V) (rows : List (Row V)) :
    (nthValueMachine n).state rows = (min (n.counted rows).length n.offset, (n.counted rows)[n.offset - 1]?) := by
  have hpos := n.offset_pos
  induction rows using reverseRecOn with
  | nil => simp [Machine.state, steps, nthValueMachine, NthValue.counted]
  | append_singleton rows row ih =>
    have hcounted : n.counted (rows ++ [row]) =
        n.counted rows ++ if !n.ignoreNulls || !(n.input row).isNull then [n.input row] else [] := by
      rw [NthValue.counted, map_append, filter_append, map_singleton, filter_cons]
      rfl
    rw [Machine.state_concat, ih, hcounted]
    generalize n.counted rows = seen
    dsimp only [nthValueMachine]
    by_cases hlen : n.offset ≤ seen.length
    · -- found before
      have hget := getElem?_eq_getElem (show n.offset - 1 < seen.length by omega)
      rw [hget, if_neg (by simp), getElem?_append_left (by omega), hget, length_append]
      congr 1
      omega
    · rw [getElem?_eq_none (show seen.length ≤ n.offset - 1 by omega), Option.isNone_none, if_pos rfl]
      split
      · rw [length_append, length_singleton, min_eq_left (by omega), min_eq_left (by omega)]
        split
        · next heq => rw [getElem?_append_right (by omega), show n.offset - 1 - seen.length = 0 by omega]; rfl
        · rw [getElem?_eq_none]
          rw [length_append, length_singleton]
          omega
      · rw [append_nil, getElem?_eq_none (by omega)]

/-! Ranks, on the sorted order keys of one partition. -/

section Ranks

variable {ks : List Bytes} {k k' : Bytes}

lemma countP_lt_of_lt (h : ∀ x ∈ ks, x < k) : ks.countP (· < k) = ks.length :=
  countP_eq_length.2 fun x hx => by simpa using h x hx

lemma countP_lt_add_countP_eq (h : ∀ x ∈ ks, x ≤ k) : ks.countP (· < k) + ks.countP (· = k) = ks.length := by
  rw [length_eq_countP_add_countP (p := fun x => decide (x < k)) (l := ks)]
  congr 1
  refine countP_congr fun x hx => ?_
  have := h x hx
  simp only [decide_eq_true_eq, decide_not, Bool.not_eq_true', decide_eq_false_iff_not]
  exact ⟨fun heq => heq ▸ lt_irrefl x, fun hlt => le_antisymm this (not_lt.1 hlt)⟩

lemma card_lt_of_lt (h : ∀ x ∈ ks, x ≤ k') (hlt : k' < k) :
    ((ks ++ [k']).toFinset.filter (· < k)).card = (ks.toFinset.filter (· < k')).card + 1 := by
  have hset : (ks ++ [k']).toFinset.filter (· < k) = insert k' (ks.toFinset.filter (· < k')) := by
    ext x
    simp only [Finset.mem_filter, mem_toFinset, mem_append, mem_singleton, Finset.mem_insert]
    constructor
    · rintro ⟨hx | rfl, -⟩
      · exact (h x hx).eq_or_lt.imp id fun hlt' => ⟨hx, hlt'⟩
      · exact .inl rfl
    · rintro (rfl | ⟨hx, hlt'⟩)
      · exact ⟨.inr rfl, hlt⟩
      · exact ⟨.inl hx, hlt'.trans hlt⟩
  rw [hset]
  simp

lemma card_lt_same (ks : List Bytes) (k : Bytes) :
    ((ks ++ [k]).toFinset.filter (· < k)).card = (ks.toFinset.filter (· < k)).card := by
  rw [toFinset_append, Finset.filter_union]
  simp [Finset.filter_singleton]

end Ranks

/-- The functions of `RankProcessor`. -/
def rankTypeOf (isDense : Bool) : WindowRankType := if isDense then .denseRank else .rank

lemma rank_le_length (before : List (Row V)) (row : Row V) (t : WindowRankType) :
    t.value spec before row ≤ before.length + 1 := by
  cases t with
  | rowNumber => exact le_refl _
  | rank => exact Nat.succ_le_succ countP_le_length
  | denseRank =>
    refine Nat.succ_le_succ ((Finset.card_filter_le _ _).trans ((toFinset_card_le _).trans ?_))
    rw [length_map]

variable {before : List (Row V)}

lemma rank_of_eq {last : Row V} (h : spec.orderOf row = spec.orderOf last) (isDense : Bool) :
    (rankTypeOf isDense).value spec (before ++ [last]) row = (rankTypeOf isDense).value spec before last := by
  cases isDense with
  | false => simp [rankTypeOf, WindowRankType.value, h]
  | true =>
    simp only [rankTypeOf, if_true, WindowRankType.value, map_append, map_singleton, h]
    rw [card_lt_same]

lemma rank_of_lt {last : Row V} (hle : ∀ x ∈ before ++ [last], spec.orderOf x ≤ spec.orderOf last)
    (hlt : spec.orderOf last < spec.orderOf row) (isDense : Bool) :
    (rankTypeOf isDense).value spec (before ++ [last]) row = (rankTypeOf isDense).value spec before last +
      if !isDense then ((before ++ [last]).map spec.orderOf).countP (· = spec.orderOf last) else 1 := by
  have hle' : ∀ k ∈ before.map spec.orderOf, k ≤ spec.orderOf last :=
    forall_mem_map.2 fun x hx => hle x (mem_append_left _ hx)
  have hlt' : ∀ k ∈ (before ++ [last]).map spec.orderOf, k < spec.orderOf row :=
    forall_mem_map.2 fun x hx => (hle x hx).trans_lt hlt
  cases isDense with
  | false =>
    have hall := countP_lt_of_lt hlt'
    have hsplit := countP_lt_add_countP_eq hle'
    have hcount : (before ++ [last]).countP (fun x => spec.orderOf x < spec.orderOf row) = before.length + 1 := by
      simpa [Function.comp_def] using hall
    have hcount' : before.countP (fun x => spec.orderOf x < spec.orderOf last) =
        (before.map spec.orderOf).countP (· < spec.orderOf last) := by rw [countP_map]; rfl
    have hequals : ((before ++ [last]).map spec.orderOf).countP (· = spec.orderOf last) =
        (before.map spec.orderOf).countP (· = spec.orderOf last) + 1 := by simp
    rw [length_map] at hsplit
    simp only [rankTypeOf, Bool.false_eq_true, if_false, WindowRankType.value, Bool.not_false, if_true]
    omega
  | true =>
    simp only [rankTypeOf, WindowRankType.value, map_append, map_singleton]
    rw [card_lt_of_lt hle' hlt]
    rfl

/-- **`RankProcessor` within a partition**: the rank of the last row, and the number of rows with its order key.  By
induction on the rows before it. -/
theorem rankMachine_state (isDense : Bool)
    (hsorted : (before ++ [row]).Pairwise fun x y => spec.orderOf x ≤ spec.orderOf y)
    (hlen : (before ++ [row]).length < 2 ^ 31) :
    (rankMachine spec isDense).state (before ++ [row]) =
      some ⟨spec.orderOf row, (rankTypeOf isDense).value spec before row,
        ((before ++ [row]).map spec.orderOf).countP (· = spec.orderOf row)⟩ := by
  induction before using reverseRecOn generalizing row with
  | nil =>
    rw [Machine.state_concat]
    dsimp only [rankMachine, Machine.state, steps]
    cases isDense <;> simp [rankTypeOf, WindowRankType.value]
  | append_singleton before last ih =>
    obtain ⟨hbefore, -, hrow⟩ := pairwise_append.1 hsorted
    have hle : ∀ x ∈ before ++ [last], spec.orderOf x ≤ spec.orderOf last := forall_mem_append.2
      ⟨fun x hx => (pairwise_append.1 hbefore).2.2 x hx last (by simp), by simp⟩
    have hlast : spec.orderOf last ≤ spec.orderOf row := hrow last (by simp) row (by simp)
    have hlen' : (before ++ [last]).length + 1 < 2 ^ 31 := by simpa using hlen
    have hequals : ((before ++ [last]).map spec.orderOf).countP (· = spec.orderOf last) ≤ (before ++ [last]).length :=
      countP_le_length.trans_eq (length_map _)
    have hstate := ih hbefore (by omega)
    rw [Machine.state_concat, hstate]
    dsimp only [rankMachine, Option.elim_some, RankState.next]
    by_cases heq : spec.orderOf row = spec.orderOf last
    · have hcount : ((before ++ [last] ++ [row]).map spec.orderOf).countP (· = spec.orderOf last) =
          ((before ++ [last]).map spec.orderOf).countP (· = spec.orderOf last) + 1 := by
        simp [heq]
      rw [if_pos heq, wrap32_eq (by omega) (by omega), rank_of_eq heq, heq, hcount, Nat.cast_add, Nat.cast_one]
    · have hlt := lt_of_le_of_ne hlast (Ne.symm heq)
      have hrank : (rankTypeOf isDense).value spec (before ++ [last]) row ≤ (before ++ [last]).length + 1 :=
        rank_le_length _ row _
      have hnone : ((before ++ [last]).map spec.orderOf).countP (· = spec.orderOf row) = 0 := by
        rw [countP_eq_zero, forall_mem_map]
        intro x hx
        simpa using ((hle x hx).trans_lt hlt).ne
      have hcount : ((before ++ [last] ++ [row]).map spec.orderOf).countP (· = spec.orderOf row) = 1 := by
        rw [map_append, countP_append, hnone]
        simp
      rw [if_neg heq, hcount, Nat.cast_one]
      rw [rank_of_lt hle hlt] at hrank ⊢
      have hcast : (((rankTypeOf isDense).value spec before last : ℕ) : ℤ) +
          (if !isDense then (((before ++ [last]).map spec.orderOf).countP (· = spec.orderOf last) : ℤ) else 1) =
          (((rankTypeOf isDense).value spec before last +
            if !isDense then ((before ++ [last]).map spec.orderOf).countP (· = spec.orderOf last) else 1 : ℕ) : ℤ) := by
        cases isDense <;> simp
      rw [hcast, wrap32_eq (by omega) (by omega)]

/-! ### The processors on the whole input -/

lemma Input.group {xs ys : List (Row V)} (h : spec.Input rows) (hrows : rows = xs ++ row :: ys) :
    (groupOf spec.partitionKey xs row ++ [row]).Pairwise (fun x y => spec.orderOf x ≤ spec.orderOf y) ∧
      (groupOf spec.partitionKey xs row ++ [row]).length < 2 ^ 31 := by
  have hsub : (groupOf spec.partitionKey xs row ++ [row]).Sublist rows := by
    rw [hrows]
    exact filter_sublist.append (singleton_sublist.2 mem_cons_self)
  have hkey : ∀ x ∈ groupOf spec.partitionKey xs row ++ [row], spec.partitionKey x = spec.partitionKey row := by
    intro x hx
    rcases mem_append.1 hx with hx | hx
    · simpa using (mem_filter.1 hx).2
    · rw [mem_singleton.1 hx]
  refine ⟨?_, hsub.length_le.trans_lt h.length_lt⟩
  exact (h.sorted.sublist hsub).imp_of_mem fun {x y} hx hy hle => hle ((hkey x hx).trans (hkey y hy).symm)

/-- **The processors compute the functions.** -/
theorem processBatch_createProcessor (f : WindowFunction V) (h : spec.Input rows) :
    ((createProcessor spec f).processBatch rows).2 =
      scan spec.partitionKey (fun before row => f.value spec before row) [] rows := by
  have hrank : ∀ isDense, (steps (rankStep spec isDense) ([], ⟨[], 0, 1⟩) rows).2 =
      scan spec.partitionKey
        (fun before row => (WindowFunction.rankLike (rankTypeOf isDense)).value spec before row) [] rows := by
    intro isDense
    rw [steps_rank isDense h]
    refine scan_eq_scan_iff.2 fun xs row ys hrows => ?_
    obtain ⟨hsorted, hlen⟩ := Input.group h hrows
    have hstate := rankMachine_state isDense hsorted hlen
    rw [Machine.state_concat] at hstate
    exact congrArg (fun s : RankState => Value.int32 (some s.curRank)) (Option.some.inj hstate)
  cases f with
  | rankLike t =>
    cases t with
    | rowNumber =>
      refine (steps_resetting rowNumberMachine h.clustered).trans (scan_eq_scan_iff.2 fun xs row ys hrows => ?_)
      obtain ⟨-, hlen⟩ := Input.group h hrows
      have hstate := rowNumberMachine_state _ hlen
      rw [Machine.state_concat, length_append] at hstate
      exact congrArg (fun n => Value.int32 (some n)) hstate
    | rank => exact hrank false
    | denseRank => exact hrank true
  | nthValue n =>
    refine (steps_resetting (nthValueMachine n) h.clustered).trans (scan_eq_scan_iff.2 fun xs row ys _ => ?_)
    have hstate := nthValueMachine_state n (groupOf spec.partitionKey xs row ++ [row])
    rw [Machine.state_concat] at hstate
    exact congrArg (fun s : ℕ × Option (Value V) => s.2.getD n.nullValue) hstate
  | agg a => exact steps_resetting (aggMachine a) h.clustered

/-! ### Streams of batches -/

def Processor.processBatches : Processor V → List (List (Row V)) → List (Value V)
  | _, [] => []
  | p, batch :: batches => (p.processBatch batch).2 ++ (p.processBatch batch).1.processBatches batches

lemma processBatches_eq (p : Processor V) (batches : List (List (Row V))) :
    p.processBatches batches = (p.processBatch batches.flatten).2 := by
  induction batches generalizing p with
  | nil => rfl
  | cons batch batches ih => rw [Processor.processBatches, ih, flatten_cons, processBatch_append]

/-- The batches a function can be computed on.  A converter without columns makes no rows, so that `RankProcessor` panics on
its first order row; `nth_value` builds its array with `iter_to_array`, which fails if there are no scalars. -/
def WindowFunction.accepts (hasOrder : Bool) (batch : List (Row V)) : WindowFunction V → Bool
  | rankLike .rank | rankLike .denseRank => hasOrder || batch.isEmpty
  | nthValue _ => !batch.isEmpty
  | _ => true

/-- `process_batch`. -/
def tryProcessBatch (hasOrder : Bool) (f : WindowFunction V) (p : Processor V) (batch : List (Row V)) :
    Option (Processor V × List (Value V)) :=
  if f.accepts hasOrder batch then some (p.processBatch batch) else none

def tryProcessBatches (hasOrder : Bool) (f : WindowFunction V) :
    Processor V → List (List (Row V)) → Option (List (Value V))
  | _, [] => some []
  | p, batch :: batches => (tryProcessBatch hasOrder f p batch).bind fun r =>
      (tryProcessBatches hasOrder f r.1 batches).map (r.2 ++ ·)

lemma tryProcessBatches_eq (hasOrder : Bool) (f : WindowFunction V) (p : Processor V) (batches : List (List (Row V))) :
    tryProcessBatches hasOrder f p batches =
      if ∀ batch ∈ batches, f.accepts hasOrder batch = true then some (p.processBatches batches) else none := by
  induction batches generalizing p with
  | nil => simp [tryProcessBatches, Processor.processBatches]
  | cons batch batches ih =>
    rw [tryProcessBatches, tryProcessBatch]
    by_cases hbatch : f.accepts hasOrder batch = true
    · rw [if_pos hbatch, Option.bind_some, ih]
      by_cases hrest : ∀ batch ∈ batches, f.accepts hasOrder batch = true
      · rw [if_pos hrest, if_pos (by simpa [hbatch] using hrest)]
        rfl
      · rw [if_neg hrest, if_neg (fun h => hrest fun b hb => h b (mem_cons_of_mem _ hb))]
        rfl
    · rw [if_neg hbatch, if_neg (fun h => hbatch (h batch mem_cons_self))]
      rfl

/-- Where a function comes out right: the ranks, if the first row has a key. -/
def WindowFunction.StartsOn (spec : WindowSpec V) (rows : List (Row V)) : WindowFunction V → Prop
  | rankLike .rank | rankLike .denseRank => spec.Starts rows
  | _ => True

lemma starts_of_rank {isDense : Bool} (h : (steps (rankStep spec isDense) ([], ⟨[], 0, 1⟩) rows).2 =
    scan spec.partitionKey
      (fun before row => (WindowFunction.rankLike (rankTypeOf isDense)).value spec before row) [] rows) :
    spec.Starts rows := by
  rintro row hrow
  obtain ⟨rest, rfl⟩ := head?_eq_some_iff.1 hrow
  rw [steps, rankStep_first, scan] at h
  by_contra hnone
  rw [if_neg hnone, if_neg hnone] at h
  have hrank := (cons.inj h).1
  cases isDense <;> simp [WindowFunction.value, rankTypeOf, WindowRankType.value, groupOf] at hrank

/-- **When the functions do not depend on the batches**, for rows clustered by partition and sorted within it: the ranks
need order columns and a first row with an order or partition key, `nth_value` needs a row in every batch. -/
theorem tryProcessBatches_eq_scan_iff (spec : WindowSpec V) (hasOrder : Bool) (f : WindowFunction V)
    {batches : List (List (Row V))} (hclustered : Clustered spec.partitionKey batches.flatten)
    (hsorted : batches.flatten.Pairwise fun x y =>
      spec.partitionKey x = spec.partitionKey y → spec.orderOf x ≤ spec.orderOf y)
    (hlen : batches.flatten.length < 2 ^ 31) :
    tryProcessBatches hasOrder f (createProcessor spec f) batches =
        some (scan spec.partitionKey (fun before row => f.value spec before row) [] batches.flatten) ↔
      (∀ batch ∈ batches, f.accepts hasOrder batch = true) ∧ f.StartsOn spec batches.flatten := by
  -- a function that does not read the order columns is the same for others
  have hconst : WindowSpec.Input { spec with orderOf := fun _ => [0] } batches.flatten :=
    ⟨hclustered, pairwise_of_forall fun _ _ _ => le_refl _, fun _ _ => .inr (by simp), hlen⟩
  have hvalues : ((createProcessor spec f).processBatch batches.flatten).2 =
      scan spec.partitionKey (fun before row => f.value spec before row) [] batches.flatten ↔
        f.StartsOn spec batches.flatten := by
    rcases f with (_ | _ | _) | n | a
    · have hrows := processBatch_createProcessor (.rankLike .rowNumber) hconst
      exact iff_of_true hrows trivial
    · exact ⟨starts_of_rank, fun h => processBatch_createProcessor _ ⟨hclustered, hsorted, h, hlen⟩⟩
    · exact ⟨starts_of_rank, fun h => processBatch_createProcessor _ ⟨hclustered, hsorted, h, hlen⟩⟩
    · have hrows := processBatch_createProcessor (.nthValue n) hconst
      exact iff_of_true hrows trivial
    · have hrows := processBatch_createProcessor (.agg a) hconst
      exact iff_of_true hrows trivial
  rw [tryProcessBatches_eq, processBatches_eq]
  split
  · rename_i haccepts
    rw [Option.some.injEq, hvalues]
    exact ⟨fun h => ⟨haccepts, h⟩, And.right⟩
  · rename_i haccepts
    exact iff_of_false (by simp) fun h => haccepts h.1

/-- Rows ordered by their width, in one partition. -/
def byWidth : WindowSpec ℤ := ⟨false, fun _ => [], fun row => [UInt8.ofNat row.length]⟩

/-- Two rows of width zero and one of width one, in two batches. -/
theorem rank_over_batches :
    tryProcessBatches true (.rankLike .rank) (createProcessor byWidth (.rankLike .rank)) [[[]], [[], [.int32 none]]] =
      some [.int32 (some 1), .int32 (some 1), .int32 (some 3)] :=
  (tryProcessBatches_eq_scan_iff byWidth true (.rankLike .rank) (fun _ _ _ _ _ _ => rfl) (by decide) (by decide)).2
    ⟨fun _ _ => rfl, fun _ _ => .inr (by simp [byWidth])⟩

/-- Rows ordered by a column of type `Null`, which is encoded as no bytes. -/
def byNull : WindowSpec ℤ := ⟨false, fun _ => [], fun _ => []⟩

/-- **The ranks of peers without an order key** are 0 where both are 1; without order columns there is no rank at all, and
no first value of an input that begins with an empty batch. -/
theorem rank_of_null_order :
    tryProcessBatches true (.rankLike .rank) (createProcessor byNull (.rankLike .rank)) [[[.other none], [.other none]]] =
      some [.int32 (some 0), .int32 (some 0)] ∧
    tryProcessBatches true (.rankLike .denseRank) (createProcessor byNull (.rankLike .denseRank)) [[[.other none]]] =
      some [.int32 (some 0)] ∧
    scan byNull.partitionKey (fun before row => (WindowFunction.rankLike .rank).value byNull before row) []
      [[.other none], [.other none]] = [.int32 (some 1), .int32 (some 1)] ∧
    tryProcessBatches false (.rankLike .rank) (createProcessor byWidth (.rankLike .rank)) [[[]]] = none ∧
    tryProcessBatches true (.nthValue ⟨fun _ => .int32 none, .int32 none, 1, one_pos, false⟩)
      (createProcessor byWidth (.nthValue ⟨fun _ => .int32 none, .int32 none, 1, one_pos, false⟩)) [[], [[]]] = none :=
  ⟨rfl, rfl, rfl, rfl, rfl⟩

/-- **Ranks only grow within a partition.** -/
theorem rank_mono (t : WindowRankType) {after : List (Row V)} {x : Row V} (hle : spec.orderOf x ≤ spec.orderOf row) :
    t.value spec before x ≤ t.value spec (before ++ x :: after) row := by
  cases t with
  | rowNumber =>
    simp only [WindowRankType.value, length_append]
    omega
  | rank =>
    simp only [WindowRankType.value, countP_append]
    have hcount : before.countP (fun y => spec.orderOf y < spec.orderOf x) ≤
        before.countP (fun y => spec.orderOf y < spec.orderOf row) :=
      countP_mono_left fun y _ hy => by simpa using (by simpa using hy : spec.orderOf y < spec.orderOf x).trans_le hle
    omega
  | denseRank =>
    refine Nat.succ_le_succ (Finset.card_le_card fun k hk => ?_)
    rw [Finset.mem_filter, mem_toFinset] at hk ⊢
    rw [map_append]
    exact ⟨mem_append_left _ hk.1, hk.2.trans_le hle⟩

end Auron.Window
