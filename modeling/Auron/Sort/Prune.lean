import Auron.Lib.Gather
import Auron.Io.Bytes
import Mathlib.Data.List.FinRange
import Mathlib.Data.Vector.Defs

/-!
# Dropping and restoring the key columns, `PruneSortKeysFromBatch` of `sort_exec.rs`

A sort key that is a column of the input is not kept twice: `prune` encodes the keys of a row and drops the columns that
are keys, `restore` decodes the key again and puts its columns back in their places.  The encoding is arrow's
`RowConverter`; of it the development uses that decoding inverts encoding.

Columns are numbered in three ways: in the input schema, in the projected schema and among the columns retained.  The
mappers of `try_new` compare the input number of a key column with the projected number of the column to restore, so the
round trip is the projection exactly if the two agree wherever they are compared (`restore_prune_iff`), as they do when
all input columns are wanted, in order (`restores_of_identity`).
-/

namespace Auron.Sort

open Auron.Io Auron.Lib
open List hiding Vector

variable {V : Type} {n : ℕ}

/-- The expression of a `PhysicalSortExpr` over rows of `n` columns: a `Column`, or another expression, evaluated row by
row. -/
inductive SortExpr (V : Type) (n : ℕ) where
  | column (index : Fin n)
  | other (evaluate : Vector V n → V)

/-- `expr.evaluate`, on one row. -/
def SortExpr.evaluate : SortExpr V n → Vector V n → V
  | column i, row => row.get i
  | other f, row => f row

/-- The `RowConverter` for `k` sort fields: `convert_columns` and `convert_rows` on one row, and `Rows::size`. -/
structure RowConverter (V : Type) (k : ℕ) where
  convertColumns : List V → Bytes
  convertRows : Bytes → List V
  size : List Bytes → ℕ
  convertRows_convertColumns : ∀ vs : List V, vs.length = k → convertRows (convertColumns vs) = vs

inductive ColMapper where
  | fromPrunedBatch (idx : ℕ)
  | fromKey (idx : ℕ)
  deriving DecidableEq

/-- The pairs of the number of a sort expression and the column it is. -/
def relation (exprs : List (SortExpr V n)) : List (ℕ × ℕ) :=
  exprs.zipIdx.filterMap fun e =>
    match e.1 with
    | .column i => some (e.2, i.val)
    | .other _ => none

/-- The loop of `try_new` over the columns after `colIdx`. -/
def colMappers (rel : List (ℕ × ℕ)) : ℕ → ℕ → ℕ → List ColMapper
  | 0, _, _ => []
  | remaining + 1, colIdx, numPrunedCols =>
    match (rel.find? fun kv => kv.2 == colIdx).map Prod.fst with
    | some exprIdx => .fromKey exprIdx :: colMappers rel remaining (colIdx + 1) (numPrunedCols + 1)
    | none => .fromPrunedBatch (colIdx - numPrunedCols) :: colMappers rel remaining (colIdx + 1) numPrunedCols

structure PruneSortKeysFromBatch (V : Type) (n : ℕ) where
  inputProjection : List (Fin n)
  keyExprs : List (SortExpr V n)
  sortRowConverter : RowConverter V keyExprs.length

namespace PruneSortKeysFromBatch

variable (p : PruneSortKeysFromBatch V n)

/-- `key_cols`: the columns to prune. -/
def keyCols : List ℕ := (relation p.keyExprs).map Prod.snd

def restoredColMappers : List ColMapper :=
  colMappers (relation p.keyExprs) p.inputProjection.length 0 0

/-- `is_all_pruned`: no field is left in the schema after pruning. -/
def isAllPruned : Bool :=
  ((range p.inputProjection.length).filter fun i => !p.keyCols.contains i).isEmpty

/-- The encoded key `prune` computes for a row. -/
def keyOf (row : Vector V n) : Bytes :=
  p.sortRowConverter.convertColumns (p.keyExprs.map fun e => e.evaluate row)

/-- The rows `prune` has the keys converted to: one for each row of the batch, but none at all without key columns, whose
converter does not see the batch. -/
def keyRows (batch : List (Vector V n)) : List Bytes := if p.keyExprs.isEmpty then [] else batch.map p.keyOf

def pruneRow (row : Vector V n) : List V :=
  (((p.inputProjection.map row.get).zipIdx).filter fun c => !p.keyCols.contains c.2).map Prod.fst

/-- One row of `restore_from_existed_key_rows`; a column that is not there panics. -/
def restoreRow (prunedRow : List V) (keyRow : Bytes) : Option (List V) :=
  collect (fun mapper =>
    match mapper with
    | .fromPrunedBatch idx => prunedRow[idx]?
    | .fromKey idx => (p.sortRowConverter.convertRows keyRow)[idx]?) p.restoredColMappers

def restoreFromExistedKeyRows (prunedBatch : List (List V)) (keyRows : List Bytes) : Option (List (List V)) :=
  collect (fun r : List V × Bytes => p.restoreRow r.1 r.2) (prunedBatch.zip keyRows)

end PruneSortKeysFromBatch

/-! ### The round trip -/

lemma mem_relation {exprs : List (SortExpr V n)} {e c : ℕ} (h : (e, c) ∈ relation exprs) :
    ∃ i : Fin n, exprs[e]? = some (.column i) ∧ i.val = c := by
  obtain ⟨⟨x, k⟩, hx, heq⟩ := mem_filterMap.1 h
  have hget := mk_mem_zipIdx_iff_getElem?.1 hx
  cases x with
  | column i =>
    simp only [Option.some.injEq, Prod.mk.injEq] at heq
    obtain ⟨rfl, hic⟩ := heq
    exact ⟨i, hget, hic⟩
  | other f => cases heq

lemma collect_colMappers {rel : List (ℕ × ℕ)} {keyVals : List V} :
    ∀ (cells : List V) (colIdx numPruned : ℕ) (pruned : List V), numPruned ≤ colIdx →
    (∀ e c v, (e, c) ∈ rel → colIdx ≤ c → cells[c - colIdx]? = some v → keyVals[e]? = some v) →
    pruned.drop (colIdx - numPruned) =
      ((cells.zipIdx colIdx).filter fun c => !(rel.map Prod.snd).contains c.2).map Prod.fst →
    collect (fun mapper =>
      match mapper with
      | .fromPrunedBatch idx => pruned[idx]?
      | .fromKey idx => keyVals[idx]?) (colMappers rel cells.length colIdx numPruned) = some cells := by
  intro cells
  induction cells with
  | nil => intro colIdx numPruned pruned _ _ _; rfl
  | cons v cells ih =>
    intro colIdx numPruned pruned _ hkey hdrop
    rw [length_cons, colMappers]
    have hkey' : ∀ e c w, (e, c) ∈ rel → colIdx + 1 ≤ c → cells[c - (colIdx + 1)]? = some w → keyVals[e]? = some w := by
      intro e c w hm hc hw
      refine hkey e c w hm (by omega) ?_
      rw [show c - colIdx = c - (colIdx + 1) + 1 by omega]
      exact hw
    rw [zipIdx_cons] at hdrop
    cases hf : rel.find? fun kv => kv.2 == colIdx with
    | some kv =>
      obtain ⟨e, c⟩ := kv
      have hm := mem_of_find?_eq_some hf
      have hc : c = colIdx := by simpa using find?_some hf
      subst hc
      have hcontains : (rel.map Prod.snd).contains c = true := by
        simpa using ⟨e, hm⟩
      rw [filter_cons_of_neg (by simp only [hcontains]; decide)] at hdrop
      simp only [Option.map_some, collect]
      rw [hkey e c v hm (le_refl _) (by simp), ih (c + 1) (numPruned + 1) pruned (by omega) hkey' ?_]
      rw [show c + 1 - (numPruned + 1) = c - numPruned by omega]
      exact hdrop
    | none =>
      have hcontains : (rel.map Prod.snd).contains colIdx = false := by
        rw [find?_eq_none] at hf
        simpa using fun e he => hf (e, colIdx) he
      rw [filter_cons_of_pos (by simp only [hcontains]; rfl), map_cons] at hdrop
      have hget : pruned[colIdx - numPruned]? = some v := by
        have := congrArg head? hdrop
        simpa using this
      simp only [Option.map_none, collect]
      rw [hget, ih (colIdx + 1) numPruned pruned (by omega) hkey' ?_]
      have := congrArg tail hdrop
      rw [tail_drop] at this
      rw [show colIdx + 1 - numPruned = colIdx - numPruned + 1 by omega]
      exact this

namespace PruneSortKeysFromBatch

section Identity

variable (p : PruneSortKeysFromBatch V n)

def IsIdentity : Prop := p.inputProjection = finRange n

lemma map_get_finRange (row : Vector V n) : (finRange n).map row.get = row.toList := by
  refine ext_getElem (by simp) fun i h1 h2 => ?_
  simp [Vector.get]

def projectRow (row : Vector V n) : List V := p.inputProjection.map row.get

/-- What is retained of a row and its key give the wanted columns again. -/
def Restores : Prop :=
  ∀ row, p.restoreRow (p.pruneRow row) (p.keyOf row) = some (p.projectRow row)

lemma projectRow_of_identity (h : p.IsIdentity) (row : Vector V n) :
    p.projectRow row = row.toList := by rw [projectRow, h, map_get_finRange]

/-- The key columns are numbered in the input schema, and the columns that are dropped and put back in the projected one.
The two agree at a position whose number is that of a key column only if the projection has that column there. -/
def Aligned : Prop :=
  ∀ (j : ℕ) (i : Fin n), p.inputProjection[j]? = some i → j ∈ p.keyCols → i.val = j

/-- **A pruned row is restored**, if the key columns stand at their own numbers. -/
theorem restores_of_aligned (h : p.Aligned) : p.Restores := by
  intro row
  unfold restoreRow restoredColMappers pruneRow keyOf projectRow
  rw [p.sortRowConverter.convertRows_convertColumns _ (by simp), ← length_map (f := row.get)]
  refine collect_colMappers (p.inputProjection.map row.get) 0 0 _ (le_refl _) ?_ (by simp [keyCols])
  intro e c v hm _ hv
  obtain ⟨i, hi, rfl⟩ := mem_relation hm
  rw [getElem?_map] at hv
  obtain ⟨i', hi', rfl⟩ := Option.map_eq_some_iff.1 hv
  obtain rfl : i' = i := Fin.ext (h i.val i' hi' (mem_map.2 ⟨_, hm, rfl⟩))
  rw [getElem?_map, hi]
  rfl

lemma restores_of_nil (h : p.inputProjection = []) : p.Restores := by
  refine p.restores_of_aligned fun j i hi => ?_
  rw [h] at hi
  cases hi

lemma restores_of_identity (h : p.IsIdentity) : p.Restores := by
  refine p.restores_of_aligned fun j i hi _ => ?_
  rw [h] at hi
  obtain ⟨_, rfl⟩ := List.getElem?_eq_some_iff.1 hi
  simp

end Identity

lemma getElem?_colMappers {rel : List (ℕ × ℕ)} {kv : ℕ × ℕ} (remaining : ℕ) : ∀ {j colIdx numPruned : ℕ},
    j < remaining → (rel.find? fun kv => kv.2 == colIdx + j) = some kv →
    (colMappers rel remaining colIdx numPruned)[j]? = some (.fromKey kv.1) := by
  induction remaining with
  | zero => intro j colIdx numPruned hj; omega
  | succ remaining ih =>
    intro j colIdx _ _ hf
    rw [colMappers]
    cases j with
    | zero =>
      rw [add_zero] at hf
      simp only [hf, Option.map_some, getElem?_cons_zero]
    | succ j =>
      have hf' : (rel.find? fun kv => kv.2 == colIdx + 1 + j) = some kv := by
        rw [add_right_comm]
        exact hf
      split
      · exact ih (by omega) hf'
      · exact ih (by omega) hf'

/-- A row that tells the columns `i` and `i0` apart is restored at a key position to the key column. -/
lemma aligned_of_restores [Nontrivial V] (p : PruneSortKeysFromBatch V n) (h : p.Restores) : p.Aligned := by
  intro j i hi hkey
  obtain ⟨kv0, hkv0, hj0⟩ := mem_map.1 hkey
  obtain ⟨⟨e, c⟩, hf⟩ : ∃ kv, ((relation p.keyExprs).find? fun kv => kv.2 == j) = some kv :=
    Option.isSome_iff_exists.1 (find?_isSome.2 ⟨kv0, hkv0, by simpa using hj0⟩)
  obtain rfl : c = j := by simpa using find?_some hf
  obtain ⟨i0, hexpr, rfl⟩ := mem_relation (mem_of_find?_eq_some hf)
  by_contra hne
  obtain ⟨a, b, hab⟩ := exists_pair_ne V
  let row : Vector V n := Vector.ofFn fun k => if k = i0 then a else b
  have hrow := h row
  unfold restoreRow keyOf at hrow
  rw [p.sortRowConverter.convertRows_convertColumns _ (by simp), collect_eq_some_iff] at hrow
  have hlt : i0.val < p.inputProjection.length := lt_of_getElem? hi
  have hmapper : p.restoredColMappers[i0.val]? = some (.fromKey e) := by
    rw [← zero_add i0.val] at hf
    exact getElem?_colMappers _ hlt hf
  obtain ⟨hm, hmeq⟩ := List.getElem?_eq_some_iff.1 hmapper
  have hcell := (forall₂_iff_get.1 hrow).2 i0.val hm (by rw [← hrow.length_eq]; exact hm)
  obtain ⟨_, hieq⟩ := List.getElem?_eq_some_iff.1 hi
  simp only [get_eq_getElem, hmeq, projectRow, getElem_map, hieq, getElem?_map, hexpr, Option.map_some,
    SortExpr.evaluate, Option.some.injEq] at hcell
  have hget : ∀ k, row.get k = if k = i0 then a else b := by
    intro k
    show row[k.val] = _
    simp [row]
  rw [hget, hget, if_pos rfl, if_neg fun heq => hne (by rw [heq])] at hcell
  exact hab hcell

lemma collect_restoreRow_iff (p : PruneSortKeysFromBatch V n) (batch : List (Vector V n)) :
    p.restoreFromExistedKeyRows (batch.map p.pruneRow) (batch.map p.keyOf) = some (batch.map p.projectRow) ↔
      ∀ row ∈ batch, p.restoreRow (p.pruneRow row) (p.keyOf row) = some (p.projectRow row) := by
  rw [restoreFromExistedKeyRows, zip_map', collect_eq_some_iff, forall₂_map_left_iff,
    forall₂_map_right_iff, forall₂_same]

/-- **Dropping and restoring the key columns is the projection exactly for aligned projections.**  At a position with the
number of a key column, any other column of the projection is dropped, and replaced by the key column. -/
theorem restore_prune_iff [Nontrivial V] (p : PruneSortKeysFromBatch V n) :
    (∀ batch : List (Vector V n),
      p.restoreFromExistedKeyRows (batch.map p.pruneRow) (batch.map p.keyOf) = some (batch.map p.projectRow)) ↔
      p.Aligned := by
  refine ⟨fun h => p.aligned_of_restores fun row => ?_, fun h batch => ?_⟩
  · exact (p.collect_restoreRow_iff [row]).1 (h [row]) row mem_cons_self
  · exact (p.collect_restoreRow_iff batch).2 fun row _ => p.restores_of_aligned h row

/-- Three bytes sorted by the first, with the last column wanted twice behind the key. -/
theorem restore_prune_iff_repeated :
    let p : PruneSortKeysFromBatch UInt8 3 := ⟨[0, 2, 2], [.column 0], ⟨id, id, fun _ => 0, fun _ _ => rfl⟩⟩
    (∀ batch : List (Vector UInt8 3),
      p.restoreFromExistedKeyRows (batch.map p.pruneRow) (batch.map p.keyOf) = some (batch.map p.projectRow)) ↔
      p.Aligned := by
  intro p
  have hbytes : Nontrivial UInt8 := ⟨0, 1, by decide⟩
  exact restore_prune_iff p

/-- Two bytes sorted by the first, with only the second wanted: what comes back is the first. -/
theorem restored_from_wrong_column :
    let p : PruneSortKeysFromBatch UInt8 2 := ⟨[1], [.column 0], ⟨id, id, fun _ => 0, fun _ _ => rfl⟩⟩
    p.restoreFromExistedKeyRows ([#v[5, 7]].map p.pruneRow) ([#v[5, 7]].map p.keyOf) = some [[5]] ∧
      [#v[5, 7]].map p.projectRow = [[7]] := by
  exact ⟨rfl, rfl⟩

lemma pruneRow_eq_nil (p : PruneSortKeysFromBatch V n) (h : p.isAllPruned = true) (row : Vector V n) :
    p.pruneRow row = [] := by
  unfold isAllPruned at h
  rw [List.isEmpty_iff, filter_eq_nil_iff] at h
  unfold pruneRow
  rw [map_eq_nil_iff, filter_eq_nil_iff]
  intro c hc
  have hlt := (mem_zipIdx hc).2.1
  exact h c.2 (mem_range.2 (by simpa using hlt))

end PruneSortKeysFromBatch

end Auron.Sort
