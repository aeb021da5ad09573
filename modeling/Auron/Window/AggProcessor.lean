import Auron.Agg.Avg
import Auron.Agg.ScalarColumn
import Auron.Window.Processors

/-!
# Running aggregates (`window/processors/agg_processor.rs`)

`AggProcessor` updates an accumulator with each row and finalises it after each row.  That gives the aggregate of the rows
from the first of the partition on if `final_merge` leaves the accumulator as it is.  Sums, averages and counts do, and so
do the minimum and the maximum of a type that has a column of its own.  Those of lists and structs are kept as scalars, and
`AccScalarValueColumn` gives a scalar away when it is frozen: then every row is an aggregate of itself
(`aggProcessor_frames_iff`).
-/

namespace Auron.Window

open Lib List
open Agg (updateValue)

variable {V : Type}

inductive GenericColumn where
  | boolean
  | prim
  | bytes
  | scalar
  deriving DecidableEq

/-- The aggregates that the window converter admits.  An argument is a value or a null, `array` makes the output. -/
inductive WindowAgg (V : Type) : Type 1 where
  | sum {T : Type} (add : T → T → T) (arg : Row V → Option T) (array : Option T → Value V)
  | count (args : List (Row V → Bool)) (array : BitVec 64 → Value V)
  | avg {T : Type} (add : T → T → T) (arg : Row V → Option T) (divide : Option T → Option (BitVec 64) → Value V)
  | maxMin {T : Type} (column : GenericColumn) (partialCmp : T → T → Option Ordering) (ord : Ordering)
      (arg : Row V → Option T) (array : Option T → Value V)

namespace WindowAgg

def updateSum {T : Type} (add : T → T → T) (acc arg : Option T) : Option T :=
  arg.elim acc fun value => updateValue acc value (add · value)

def updateCount (acc : BitVec 64) (valids : List Bool) : BitVec 64 := acc + if valids.all id then 1 else 0

def updateMaxMin {T : Type} (partialCmp : T → T → Option Ordering) (ord : Ordering) (acc arg : Option T) : Option T :=
  arg.elim acc fun value => updateValue acc value fun v => if partialCmp v value = some ord then v else value

/-- What `freeze_to_arrays` leaves of the record of a column: the columns of scalars take it out, the others read it. -/
def leftFrozen {T : Type} (acc : Option T) : GenericColumn → Option T
  | .scalar => ((Agg.AccScalarValueColumn.replaced none [0] [acc]).bind fun r => r.2.head?).getD none
  | _ => acc

/-- `create_acc_column`, `partial_update` and `final_merge` of one record. -/
def running : WindowAgg V → RunningAgg V
  | sum (T := T) add arg array => ⟨Option T, none, fun acc row => updateSum add acc (arg row), fun acc => (acc, array acc)⟩
  | count args array =>
    ⟨BitVec 64, 0, fun acc row => updateCount acc (args.map (· row)), fun acc => (acc, array acc)⟩
  | avg (T := T) add arg divide =>
    ⟨Option T × BitVec 64, (none, 0),
      fun acc row => (updateSum add acc.1 (arg row), updateCount acc.2 [(arg row).isSome]),
      fun acc => (acc, divide acc.1 (if acc.2 = 0 then none else some acc.2))⟩
  | maxMin (T := T) column partialCmp ord arg array =>
    ⟨Option T, none, fun acc row => updateMaxMin partialCmp ord acc (arg row),
      fun acc => (leftFrozen acc column, array acc)⟩

def ofScalars : WindowAgg V → Bool
  | maxMin column .. => column = .scalar
  | _ => false

end WindowAgg

/-- **The aggregate of some rows**: they update an accumulator, which is then finalised. -/
def RunningAgg.ofRows (a : RunningAgg V) (rows : List (Row V)) : Value V :=
  (a.finalMerge (rows.foldl a.partialUpdate a.createAccColumn)).2

lemma aggMachine_value_of_keeps {a : RunningAgg V} (h : ∀ acc, (a.finalMerge acc).1 = acc) (before : List (Row V))
    (row : Row V) : (aggMachine a).value before row = a.ofRows (before ++ [row]) := by
  have hstate : (aggMachine a).state before = before.foldl a.partialUpdate a.createAccColumn := by
    induction before using List.reverseRecOn with
    | nil => rfl
    | append_singleton before row ih =>
      rw [Machine.state_concat, ih, foldl_concat]
      exact h _
  rw [Machine.value, hstate, RunningAgg.ofRows, foldl_concat]
  rfl

lemma aggMachine_value_of_forgets {a : RunningAgg V} (h : ∀ acc, (a.finalMerge acc).1 = a.createAccColumn)
    (before : List (Row V)) (row : Row V) : (aggMachine a).value before row = a.ofRows [row] := by
  have hstate : (aggMachine a).state before = a.createAccColumn := by
    induction before using List.reverseRecOn with
    | nil => rfl
    | append_singleton before row ih =>
      rw [Machine.state_concat]
      exact h _
  rw [Machine.value, hstate]
  rfl

lemma WindowAgg.value_eq (f : WindowAgg V) (before : List (Row V)) (row : Row V) :
    (aggMachine f.running).value before row =
      if f.ofScalars then f.running.ofRows [row] else f.running.ofRows (before ++ [row]) := by
  cases f with
  | maxMin column =>
    cases column with
    | scalar => exact aggMachine_value_of_forgets (fun _ => rfl) before row
    | _ => exact aggMachine_value_of_keeps (fun _ => rfl) before row
  | _ => exact aggMachine_value_of_keeps (fun _ => rfl) before row

/-- **When `AggProcessor` outputs the aggregates of the frames**, each from the first row of the partition to the current
row: always, but for a minimum or maximum of scalars only if every row is the aggregate of its frame. -/
theorem aggProcessor_frames_iff (spec : WindowSpec V) (f : WindowAgg V) {batches : List (List (Row V))}
    (h : Clustered spec.partitionKey batches.flatten) :
    (AggProcessor spec f.running).processBatches batches =
        scan spec.partitionKey (fun before row => f.running.ofRows (before ++ [row])) [] batches.flatten ↔
      (f.ofScalars = true → ∀ xs row ys, batches.flatten = xs ++ row :: ys →
        f.running.ofRows [row] = f.running.ofRows (groupOf spec.partitionKey xs row ++ [row])) := by
  have hrun : (AggProcessor spec f.running).processBatches batches =
      scan spec.partitionKey (aggMachine f.running).value [] batches.flatten := by
    rw [processBatches_eq]
    exact steps_resetting (aggMachine f.running) h
  rw [hrun, scan_eq_scan_iff]
  cases hscalars : f.ofScalars <;> simp [f.value_eq, hscalars]

def intArg (row : Row ℤ) : Option ℤ :=
  match row with
  | .other v :: _ => v
  | _ => none

/-- A maximum of integers, over two batches without a partition. -/
theorem aggProcessor_frames_max :
    (AggProcessor ⟨false, fun _ => [], fun _ => []⟩
        (WindowAgg.maxMin .prim (fun a b : ℤ => some (compare a b)) .gt intArg .other).running).processBatches
      [[[.other (some 1)], [.other (some 3)]], [[.other none], [.other (some 2)]]] =
      [.other (some 1), .other (some 3), .other (some 3), .other (some 3)] :=
  (aggProcessor_frames_iff ⟨false, fun _ => [], fun _ => []⟩ _ fun _ _ _ _ _ _ => rfl).2 nofun

/-- A minimum of scalars: the second row is greater than the first, and is output. -/
theorem aggProcessor_forgets :
    let min : WindowAgg ℤ := .maxMin .scalar (fun a b : ℤ => some (compare a b)) .lt intArg .other
    let rows : List (Row ℤ) := [[.other (some 1)], [.other (some 2)]]
    (AggProcessor ⟨false, fun _ => [], fun _ => []⟩ min.running).processBatches [rows] =
        [.other (some 1), .other (some 2)] ∧
      scan (fun _ => ([] : Io.Bytes)) (fun before row => min.running.ofRows (before ++ [row])) [] rows =
        [.other (some 1), .other (some 1)] := ⟨rfl, rfl⟩

end Auron.Window
