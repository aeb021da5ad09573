import Auron.Agg.Acc

/-!
# Columns of scalars (`AccScalarValueColumn` of `agg/acc.rs`)

The column of every data type that has none of its own: one `ScalarValue` for each record.  A record that is taken, and one
that is frozen, is left with the null of the data type.
-/

namespace Auron.Agg

open Auron.Io Auron.Io.BatchSerde Auron.Lib

/-- What a column of scalars of one data type uses of scalars and arrays. -/
structure ScalarEnv (S A : Type) where
  /-- `ScalarValue::try_from(&dt)`. -/
  nullValue : S
  /-- `scalar_value_heap_mem_size`. -/
  heapMemSize : S → ℕ
  /-- `write_scalar`, nullable. -/
  writeScalar : S → Option Bytes
  /-- `read_scalar` of the data type, nullable. -/
  readScalar : ReadBytes S
  /-- `ScalarValue::iter_to_array`. -/
  iterToArray : List S → Option A
  /-- `ScalarValue::try_from_array` of every row. -/
  arrayScalars : A → Option (List S)

structure AccScalarValueColumn (S : Type) where
  items : List S
  heapMemUsed : Counter

namespace AccScalarValueColumn

variable {S A : Type} (D : ScalarEnv S A)

def new (numRows : ℕ) : AccScalarValueColumn S := ⟨List.replicate numRows D.nullValue, .zero⟩

def counted (items : List S) : AccScalarValueColumn S :=
  ⟨items, items.foldl (fun used scalar => used.add (D.heapMemSize scalar)) .zero⟩

section Column

variable (col : AccScalarValueColumn S)

def takeValue (idx : ℕ) : Option (S × AccScalarValueColumn S) :=
  col.items[idx]?.map fun scalar =>
    (scalar, ⟨col.items.set idx D.nullValue, col.heapMemUsed.sub (D.heapMemSize scalar)⟩)

def setValue (idx : ℕ) (value : S) : Option (AccScalarValueColumn S) :=
  col.items[idx]?.map fun scalar =>
    ⟨col.items.set idx value, (col.heapMemUsed.sub (D.heapMemSize scalar)).add (D.heapMemSize value)⟩

def resize (len : ℕ) : AccScalarValueColumn S :=
  if col.items.length < len then
    { col with items := col.items ++ List.replicate (len - col.items.length) D.nullValue }
  else ⟨col.items.take len,
    (col.items.drop len).foldl (fun used scalar => used.sub (D.heapMemSize scalar)) col.heapMemUsed⟩

/-- The iterator of `to_array`: the scalars at some indices, each replaced by the null when it is its turn. -/
def replaced (null : S) : List ℕ → List S → Option (List S × List S)
  | [], items => some ([], items)
  | idx :: rest, items => items[idx]?.bind fun scalar =>
    (replaced null rest (items.set idx null)).map fun r => (scalar :: r.1, r.2)

/-- `freeze_to_arrays`: the array, and the column that is left. -/
def freezeToArrays (sel : IdxSelection) : Option (A × AccScalarValueColumn S) :=
  (replaced D.nullValue sel.toList col.items).bind fun r =>
    (D.iterToArray r.1).map fun array => (array, { col with items := r.2 })

end Column

def unfreezeFromArrays (arrays : List A) : Option (AccScalarValueColumn S) :=
  arrays.head?.bind fun array => (D.arrayScalars array).map (counted D)

/-- The loop of `spill`: each scalar is taken and written. -/
def spillAll : List ℕ → AccScalarValueColumn S → Option (Bytes × AccScalarValueColumn S)
  | [], col => some ([], col)
  | idx :: rest, col => (takeValue D col idx).bind fun r => (D.writeScalar r.1).bind fun bytes =>
    (spillAll rest r.2).map fun s => (bytes ++ s.1, s.2)

/-- `spill`: the bytes, and the column that is left. -/
def spill (col : AccScalarValueColumn S) (sel : IdxSelection) : Option (Bytes × AccScalarValueColumn S) :=
  spillAll D sel.toList col

def unspill (numRows : ℕ) : ReadBytes (AccScalarValueColumn S) := do
  let items ← D.readScalar.times numRows
  pure (counted D items)

/-! ### Different records -/

def Selected (items : List S) (idxs : List ℕ) (vs : List S) : Prop := List.Forall₂ (fun i v => items[i]? = some v) idxs vs

variable {vs : List S} {idxs : List ℕ}

lemma Selected.set {items : List S} (h : Selected items idxs vs) {i : ℕ} (hi : i ∉ idxs) (v : S) :
    Selected (items.set i v) idxs vs := by
  induction h with
  | nil => exact .nil
  | cons hj _ ih =>
    obtain ⟨hne, hi⟩ := List.ne_and_not_mem_of_not_mem_cons hi
    exact .cons (by rw [List.getElem?_set_ne hne, hj]) (ih hi)

lemma Selected.mem_iff {items vs : List S} {idxs : List ℕ} (h : Selected items idxs vs) {v : S} :
    v ∈ vs ↔ ∃ i ∈ idxs, items[i]? = some v := by
  have hmap : idxs.map (fun i => items[i]?) = vs.map some := mapM_eq_some_iff.1 (mapM_eq_some_iff_forall₂.2 h)
  have hmem : v ∈ vs ↔ some v ∈ idxs.map fun i => items[i]? := by simp [hmap]
  rw [hmem, List.mem_map]

lemma replaced_of_nodup {null : S} {items : List S} (hnodup : idxs.Nodup) (h : Selected items idxs vs) :
    ∃ left, replaced null idxs items = some (vs, left) := by
  induction idxs generalizing items vs with
  | nil =>
    cases h
    exact ⟨items, rfl⟩
  | cons i rest ih =>
    obtain ⟨hi, hrest⟩ := List.nodup_cons.1 hnodup
    cases h with
    | cons hv h =>
      obtain ⟨left, hleft⟩ := ih hrest (Selected.set h hi null)
      exact ⟨left, by rw [replaced, hv, Option.bind_some, hleft, Option.map_some]⟩

variable {D}

lemma spillAll_of_nodup {col : AccScalarValueColumn S} {parts : List Bytes} (hnodup : idxs.Nodup)
    (h : Selected col.items idxs vs) (hwrite : List.Forall₂ (fun v part => D.writeScalar v = some part) vs parts) :
    ∃ left, spillAll D idxs col = some (parts.flatten, left) := by
  induction idxs generalizing col vs parts with
  | nil =>
    cases h
    cases hwrite
    exact ⟨col, rfl⟩
  | cons i rest ih =>
    obtain ⟨hi, hrest⟩ := List.nodup_cons.1 hnodup
    cases h with
    | @cons _ v _ vs hv h =>
      cases hwrite with
      | cons hpart hwrite =>
        let next : AccScalarValueColumn S := ⟨col.items.set i D.nullValue, col.heapMemUsed.sub (D.heapMemSize v)⟩
        have hnext : Selected next.items rest vs := Selected.set h hi _
        obtain ⟨left, hleft⟩ := ih hrest hnext hwrite
        refine ⟨left, ?_⟩
        rw [spillAll, takeValue, hv, Option.map_some, Option.bind_some, hpart, hleft]
        rfl

lemma parses_unspill {parts : List Bytes} (h : List.Forall₂ D.readScalar.Parses parts vs) :
    (unspill D vs.length).Parses parts.flatten (counted D vs) :=
  (Reads.Parses.times h).bind_last (.pure _)

end AccScalarValueColumn

end Auron.Agg
