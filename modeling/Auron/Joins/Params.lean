import Auron.Joins.Keys
import Auron.Lib.RelJoin
import Mathlib.Data.Vector.Basic

/-!
# Join parameters (`joins/mod.rs`)

A row of `w` columns is a vector of optional values, a null being `none`.  The residual condition of a join
(`JoinFilter`) is compiled against the columns it refers to; here it is a function of their values, `none` for a result
that is null.  Column indexes are below the width of their side, as the schemas the planner builds them from guarantee;
so the errors about an index out of range have no counterpart.

`relationalJoin` is what the inner and outer joins are for, and is not translated from the source.
-/

namespace Auron.Joins

open Auron.Lib

variable {α : Type} {lw rw : ℕ}

abbrev Row (α : Type) (w : ℕ) := Vector (Option α) w

def Row.null (α : Type) (w : ℕ) : Row α w := Vector.replicate w none

/-- `ColumnIndex`: a column of the left or of the right side. -/
inductive ColumnIndex (lw rw : ℕ) where
  | left (index : Fin lw)
  | right (index : Fin rw)

def ColumnIndex.get (l : Row α lw) (r : Row α rw) : ColumnIndex lw rw → Option α
  | .left index => l.get index
  | .right index => r.get index

structure JoinFilter (α : Type) (lw rw : ℕ) where
  columnIndices : List (ColumnIndex lw rw)
  expression : List (Option α) → Option Bool

/-- `JoinFilter::evaluate` on one pair of rows: a null condition is not matched. -/
def JoinFilter.evaluate (f : JoinFilter α lw rw) (l : Row α lw) (r : Row α rw) : Bool :=
  f.expression (f.columnIndices.map (·.get l r)) == some true

/-- `JoinProjection`: the columns of either side that are output. -/
structure JoinProjection (lw rw : ℕ) where
  left : List (Fin lw)
  right : List (Fin rw)

def JoinProjection.projectLeft (p : JoinProjection lw rw) (l : Row α lw) : List (Option α) := p.left.map l.get

def JoinProjection.projectRight (p : JoinProjection lw rw) (r : Row α rw) : List (Option α) := p.right.map r.get

def JoinProjection.identity (lw rw : ℕ) : JoinProjection lw rw := ⟨List.finRange lw, List.finRange rw⟩

lemma Row.map_get_finRange {w : ℕ} (row : Row α w) : (List.finRange w).map row.get = row.toList := by
  apply List.ext_getElem <;> simp [Vector.get]

@[simp] lemma JoinProjection.projectLeft_identity (l : Row α lw) : (identity lw rw).projectLeft l = l.toList :=
  Row.map_get_finRange l

@[simp] lemma JoinProjection.projectRight_identity (r : Row α rw) : (identity lw rw).projectRight r = r.toList :=
  Row.map_get_finRange r

/-- What the joiners read of `JoinParams`; the widths are those of the two streams. -/
structure JoinParams (α : Type) (lw rw : ℕ) where
  projection : JoinProjection lw rw
  joinFilter : Option (JoinFilter α lw rw)
  batchSize : ℕ
  isNullAwareAntiJoin : Bool

/-- What the sender of a joiner has got, after a batch: a batch without rows is not sent. -/
def sendBatch {γ : Type} (sent : List (List γ)) (output : List γ) : List (List γ) :=
  if output.isEmpty then sent else sent ++ [output]

@[simp] lemma flatten_sendBatch {γ : Type} (sent : List (List γ)) (output : List γ) :
    (sendBatch sent output).flatten = sent.flatten ++ output := by
  unfold sendBatch
  split
  · rename_i hempty
    rw [List.isEmpty_iff.1 hempty, List.append_nil]
  · simp

/-- Arrow's `filter`: the elements that are selected. -/
def filterSelected {γ : Type} (xs : List γ) (selected : List Bool) : List γ :=
  ((xs.zip selected).filter Prod.snd).map Prod.fst

lemma zipWith_filterSelected {γ δ ε : Type} (sel : γ → δ → Bool) (f : γ → δ → ε) (xs : List γ) (ys : List δ) :
    List.zipWith f (filterSelected xs (List.zipWith sel xs ys)) (filterSelected ys (List.zipWith sel xs ys)) =
      (xs.zip ys).filterMap fun xy => if sel xy.1 xy.2 then some (f xy.1 xy.2) else none := by
  induction xs generalizing ys with
  | nil => simp [filterSelected]
  | cons x xs ih =>
    cases ys with
    | nil => simp [filterSelected]
    | cons y ys =>
      by_cases hsel : sel x y = true
      · simpa [filterSelected, hsel] using ih ys
      · simpa [filterSelected, hsel] using ih ys

/-! ### The rows of a join -/

/-- The residual condition selects the pair of rows; without a condition all are selected. -/
def JoinParams.selects (p : JoinParams α lw rw) (l : Row α lw) (r : Row α rw) : Bool :=
  p.joinFilter.all fun joinFilter => joinFilter.evaluate l r

/-- The output row of a pair of rows: projected if there is a residual condition, for the streams then carry all columns;
the columns of both streams otherwise. -/
def JoinParams.joinedRow (p : JoinParams α lw rw) (l : Row α lw) (r : Row α rw) : List (Option α) :=
  match p.joinFilter with
  | some _ => p.projection.projectLeft l ++ p.projection.projectRight r
  | none => l.toList ++ r.toList

/-- The row a side contributes to an output row: nulls if the side is extended. -/
def sideRow {K : Type} {w : ℕ} : Option (K × Row α w) → Row α w
  | some x => x.2
  | none => Row.null α w

/-- **The join of two relations** with keys: a row for each pair of partners the residual condition selects and, on an
outer side, a row extended by nulls for each row without such a partner. -/
def relationalJoin {n : ℕ} {κ : Fin n → Type} [∀ i, DecidableEq (κ i)] (lOuter rOuter : Bool) (p : JoinParams α lw rw)
    (left : List (Key κ × Row α lw)) (right : List (Key κ × Row α rw)) : List (List (Option α)) :=
  (outerJoin lOuter rOuter (fun l r => partners l.1 r.1 && p.selects l.2 r.2) left right).map fun pair =>
    p.joinedRow (sideRow pair.1) (sideRow pair.2)

end Auron.Joins
