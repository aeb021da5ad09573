import Mathlib.Data.List.Lattice
import Mathlib.Data.List.Sort
import Auron.Arrow.DataType
import Auron.Lib.Fallible
import Auron.Lib.Slots

/-!
# Union of lists (`brickhouse/array_union.rs`)

`array_union` collects the elements of the lists of a row in a hash set and sorts them; the rows, one behind the other, are
the values of the result.  If no row has an element, the values are an empty array of lists, and the result has another
type than it has with elements (`arrayUnion_spec`).
-/

namespace Auron.Functions

open List Arrow Lib

variable {α : Type}

/-- `ColumnarValue` with lists as its values. -/
inductive ColumnarValue (α : Type) where
  | array (type : DataType) (rows : List (Option (List α)))
  | scalar (type : DataType) (value : Option (List α))

namespace ColumnarValue

def dataType : ColumnarValue α → DataType
  | array type _ | scalar type _ => type

def len? : ColumnarValue α → Option ℕ
  | array _ rows => some rows.length
  | scalar .. => none

/-- The argument is a `ListArray` in `arg_arrays`, as every null scalar is. -/
def isListArray : ColumnarValue α → Bool
  | scalar _ none => true
  | arg => arg.dataType matches .list false _

/-- The list of a row, a scalar being read at row 0; `none` out of bounds. -/
def row (i : ℕ) : ColumnarValue α → Option (Option (List α))
  | array _ rows => rows[i]?
  | scalar _ value => some value

end ColumnarValue

/-- The scalars of the elements: their types, `partial_cmp`, and the order in which a hash set gives them. -/
structure Scalars (α : Type) where
  dataType : α → DataType
  partialCmp : α → α → Option Ordering
  intoIter : List α → List α
  perm : ∀ set, intoIter set ~ set

structure ListArray (α : Type) where
  dataType : DataType
  offsets : List ℕ
  values : List α
  nulls : Option (List Bool)

def ListArray.rows (array : ListArray α) : List (List α) := slots array.offsets array.values

variable (S : Scalars α) (args : List (ColumnarValue α))

def sorted (set : List α) : List α :=
  (S.intoIter set).mergeSort fun a b => ((S.partialCmp a b).getD .eq).isLE

def numRows : ℕ := (args.filterMap ColumnarValue.len?).max?.getD 1

def innerDt : Except String DataType :=
  match (args.map ColumnarValue.dataType).find? (· ≠ .null) with
  | some (.list false item) => .ok item
  | some _ => .error "brickhouse.array_union args must be array"
  | none => .ok .null

/-- `offset` and `offset_buffer`, as residues of `i32`s. -/
def pushOffset (s : ℕ × List ℕ) (row : List α) : ℕ × List ℕ :=
  let offset := (s.1 + row.length) % 2 ^ 32
  (offset, s.2 ++ [offset])

/-- The values and their type; `iter_to_array` takes scalars of one type. -/
def valuesOf (item : DataType) : List α → Except String (DataType × List α)
  | [] => .ok (.list false item, [])
  | scalar :: scalars =>
    if scalars.all (S.dataType · = S.dataType scalar) then .ok (S.dataType scalar, scalar :: scalars)
    else .error "inconsistent types"

/-- What occurs in the lists of row `i`. -/
def Occurs (i : ℕ) (x : α) : Prop := ∃ a ∈ args, ∃ l, a.row i = some (some l) ∧ x ∈ l

/-- List arrays of one length and list or null scalars, with elements of one type, which is `Null` if none names it. -/
structure OfType (item : DataType) : Prop where
  typed : ∀ a ∈ args, a.dataType = .list false item ∨ a = .scalar .null none
  named : item = .null ∨ ∃ a ∈ args, a.dataType = .list false item
  elements : ∀ i x, Occurs args i x → S.dataType x = item
  len : ∀ a ∈ args, ∀ n ∈ a.len?, n = numRows args

variable {S args} {item : DataType}

lemma OfType.innerDt_eq (h : OfType S args item) : innerDt args = .ok item := by
  unfold innerDt
  cases hfind : (args.map ColumnarValue.dataType).find? (· ≠ .null) with
  | some t =>
    have hne : t ≠ .null := by simpa using find?_some hfind
    obtain ⟨a, ha, rfl⟩ := mem_map.1 (mem_of_find?_eq_some hfind)
    rcases h.typed a ha with htype | rfl
    · rw [htype]
    · exact absurd rfl hne
  | none =>
    rcases h.named with rfl | ⟨a, ha, htype⟩
    · rfl
    · have hnull := find?_eq_none.1 hfind _ (mem_map_of_mem ha)
      simp [htype] at hnull

lemma OfType.isListArray (h : OfType S args item) : args.all ColumnarValue.isListArray = true := by
  refine all_eq_true.2 fun a ha => ?_
  rcases h.typed a ha with htype | rfl
  · unfold ColumnarValue.isListArray
    split
    · rfl
    · rw [htype]
  · rfl

lemma foldl_pushOffset {rows : List (List α)} (h : rows.flatten.length < 2 ^ 31) :
    rows.foldl pushOffset (0, [0]) = (rows.flatten.length, offsetsOf rows) := by
  induction rows using reverseRecOn with
  | nil => rfl
  | append_singleton rows row ih =>
    rw [flatten_concat, length_append] at h
    rw [foldl_concat, ih (by omega), pushOffset, Nat.mod_eq_of_lt (by omega), offsetsOf_concat, flatten_concat,
      length_append]

lemma valuesOf_eq {scalars : List α} (h : ∀ x ∈ scalars, S.dataType x = item) :
    valuesOf S item scalars = .ok (if scalars = [] then .list false item else item, scalars) := by
  cases scalars with
  | nil => rfl
  | cons x xs =>
    obtain ⟨hx, hxs⟩ := forall_mem_cons.1 h
    simp +contextual [valuesOf, hx, hxs]

section Sets

variable [DecidableEq α]

def updateSet (set : List α) : Option (List α) → List α
  | some values => values.foldl (fun set scalar => set.insert scalar) set
  | none => set

variable (S args)

def unionRow (i : ℕ) : Option (List α) :=
  (args.mapM (ColumnarValue.row i)).map fun lists => sorted S (lists.foldl updateSet [])

def unionRows : Option (List (List α)) := (range (numRows args)).mapM (unionRow S args)

def arrayUnion : Except String (ListArray α) := do
  let item ← innerDt args
  if !args.all ColumnarValue.isListArray then throw "error downcasting to ListArray"
  let rows ← (unionRows S args).elim (throw "index out of bounds") pure
  let offsets := (rows.foldl pushOffset (0, [0])).2
  -- `OffsetBuffer::new`: no offset is negative or less than the one before
  if ¬(offsets.Pairwise (· ≤ ·) ∧ offsets.getLastD 0 < 2 ^ 31) then throw "offsets must be monotonically increasing"
  let (type, values) ← valuesOf S item rows.flatten
  if values.length < offsets.getLastD 0 then throw "max offset exceeds length of values"
  pure ⟨.list false type, offsets, values, none⟩

variable {S args}

lemma foldl_updateSet_spec (lists : List (Option (List α))) {set : List α} (hset : set.Nodup) :
    (lists.foldl updateSet set).Nodup ∧
      ∀ x, x ∈ lists.foldl updateSet set ↔ x ∈ set ∨ ∃ l, some l ∈ lists ∧ x ∈ l := by
  induction lists generalizing set with
  | nil => simp [hset]
  | cons list lists ih =>
    cases list with
    | none => simpa [updateSet] using ih hset
    | some values =>
      have hunion : updateSet set (some values) = values.reverse ∪ set := foldr_reverse.symm
      obtain ⟨hnodup, hmem⟩ := ih (hset.union values.reverse)
      rw [foldl_cons, hunion]
      refine ⟨hnodup, fun x => ?_⟩
      rw [hmem, mem_union_iff, mem_reverse, or_comm (a := x ∈ values), or_assoc]
      simp [or_and_right, exists_or]

lemma unionRow_spec {i : ℕ} {row : List α} (h : unionRow S args i = some row) :
    row.Nodup ∧ ∀ x, x ∈ row ↔ Occurs args i x := by
  obtain ⟨lists, hlists, rfl⟩ := Option.map_eq_some_iff.1 h
  obtain ⟨hnodup, hmem⟩ := foldl_updateSet_spec lists nodup_nil
  have hperm : sorted S (lists.foldl updateSet []) ~ lists.foldl updateSet [] := (mergeSort_perm _ _).trans (S.perm _)
  have hiff : ∀ l, some l ∈ lists ↔ ∃ a ∈ args, a.row i = some (some l) := fun l => by
    rw [← mem_map_of_injective (Option.some_injective _), ← mapM_eq_some_iff.1 hlists, mem_map]
  refine ⟨hperm.nodup_iff.2 hnodup, fun x => ?_⟩
  rw [hperm.mem_iff, hmem]
  simp only [not_mem_nil, false_or, hiff, Occurs]
  grind

lemma OfType.exists_unionRows (h : OfType S args item) : ∃ rows, unionRows S args = some rows := by
  refine exists_mapM fun i hi => ?_
  have hrow : ∀ a ∈ args, ∃ list, a.row i = some list := fun a ha => by
    cases a with
    | array _ rows => exact ⟨_, getElem?_eq_getElem (by rw [h.len _ ha _ rfl]; exact mem_range.1 hi)⟩
    | scalar _ value => exact ⟨value, rfl⟩
  obtain ⟨lists, hlists⟩ := exists_mapM hrow
  exact ⟨_, Option.map_eq_some_iff.2 ⟨lists, hlists, rfl⟩⟩

end Sets

variable [LinearOrder α]

lemma pairwise_sorted {set : List α} (hcmp : ∀ a ∈ set, ∀ b ∈ set, S.partialCmp a b = some (compare a b)) :
    (sorted S set).Pairwise (· ≤ ·) := by
  have hle : ∀ a ∈ S.intoIter set, ∀ b ∈ S.intoIter set, ((S.partialCmp a b).getD .eq).isLE = decide (a ≤ b) := by
    intro a ha b hb
    rw [hcmp a ((S.perm set).mem_iff.1 ha) b ((S.perm set).mem_iff.1 hb), Option.getD_some, Bool.eq_iff_iff,
      decide_eq_true_iff]
    exact Ordering.isLE_iff_ne_gt.trans compare_le_iff_le
  have hsort := map_mergeSort (s := fun a b => decide (a ≤ b)) (f := id) hle
  rw [map_id, map_id] at hsort
  rw [sorted, hsort]
  exact pairwise_mergeSort' _ _

/-- **`array_union`**, if fewer than 2³¹ elements occur in the rows: a row has what occurs in its lists, each element once,
and in order if the comparison of its elements is one; the type is that of the arguments if and only if something occurs in
some row. -/
theorem arrayUnion_spec (h : OfType S args item)
    (hsize : ∀ rows : List (List α), rows.length = numRows args →
      (∀ i row, rows[i]? = some row → row.Nodup ∧ ∀ x, x ∈ row ↔ Occurs args i x) → rows.flatten.length < 2 ^ 31) :
    ∃ out, arrayUnion S args = .ok out ∧
      (out.dataType = .list false item ↔ ∃ i < numRows args, ∃ x, Occurs args i x) ∧ out.nulls = none ∧
      out.rows.length = numRows args ∧ ∀ i row, out.rows[i]? = some row → row.Nodup ∧ (∀ x, x ∈ row ↔ Occurs args i x) ∧
        ((∀ a ∈ row, ∀ b ∈ row, S.partialCmp a b = some (compare a b)) → row.Pairwise (· < ·)) := by
  obtain ⟨rows, hrows⟩ := h.exists_unionRows
  have hlen : rows.length = numRows args := (length_of_mapM hrows).trans length_range
  have hrow : ∀ i row, rows[i]? = some row → unionRow S args i = some row := fun i row hi => by
    have hget := congrArg (·[i]?) (mapM_eq_some_iff.1 hrows)
    have hlt : i < numRows args := hlen ▸ (List.getElem?_eq_some_iff.1 hi).1
    simpa [hi, getElem?_range hlt] using hget
  have hoccurs : ∀ x, x ∈ rows.flatten ↔ ∃ i < numRows args, Occurs args i x := fun x => by
    rw [mem_flatten, ← hlen]
    constructor
    · rintro ⟨row, hmem, hx⟩
      obtain ⟨i, hi, rfl⟩ := mem_iff_getElem.1 hmem
      exact ⟨i, hi, ((unionRow_spec (hrow i _ (getElem?_eq_getElem hi))).2 x).1 hx⟩
    · rintro ⟨i, hi, hx⟩
      exact ⟨rows[i], getElem_mem hi, ((unionRow_spec (hrow i _ (getElem?_eq_getElem hi))).2 x).2 hx⟩
  have hvalues : valuesOf S item rows.flatten = _ := valuesOf_eq fun x hx => by
    obtain ⟨i, _, hx⟩ := (hoccurs x).1 hx
    exact h.elements i x hx
  have hbound := hsize rows hlen fun i row hi => unionRow_spec (hrow i row hi)
  have hslots : slots (offsetsOf rows) rows.flatten = rows := by simpa using slots_offsetsOf rows []
  refine ⟨⟨.list false (if rows.flatten = [] then .list false item else item), offsetsOf rows, rows.flatten, none⟩, ?_, ?_,
    rfl, by rw [ListArray.rows, hslots, hlen], fun i row hi => ?_⟩
  · have hlast : (offsetsOf rows).getLastD 0 = rows.flatten.length := by
      rw [getLastD_eq_getLast?, getLast?_offsetsOf, Option.getD_some]
    simp only [arrayUnion, h.innerDt_eq, h.isListArray, hrows, foldl_pushOffset hbound, hvalues, bind,
      Except.bind, pure, Except.pure, Option.elim_some, Bool.not_true, if_false, pairwise_offsetsOf, hlast,
      hbound, and_self, not_true, lt_irrefl]
    rfl
  · have hne : item ≠ .list false item := fun heq => by simpa using congrArg sizeOf heq
    have hnil : rows.flatten = [] ↔ ¬∃ i < numRows args, ∃ x, Occurs args i x := by
      rw [eq_nil_iff_forall_not_mem]
      simp only [hoccurs]
      grind
    simp [hnil, hne.symm]
  · rw [ListArray.rows, hslots] at hi
    obtain ⟨hnodup, hmem⟩ := unionRow_spec (hrow i row hi)
    refine ⟨hnodup, hmem, fun hcmp => ?_⟩
    obtain ⟨lists, _, rfl⟩ := Option.map_eq_some_iff.1 (hrow i row hi)
    have hmem' : ∀ a ∈ lists.foldl updateSet [], a ∈ sorted S (lists.foldl updateSet []) := fun a ha =>
      ((mergeSort_perm _ _).trans (S.perm _)).mem_iff.2 ha
    exact ((pairwise_sorted fun a ha b hb => hcmp a (hmem' a ha) b (hmem' b hb)).and hnodup).imp
      fun h => lt_of_le_of_ne h.1 h.2

def numbers : Scalars ℕ := ⟨fun _ => .boolean, fun a b => some (compare a b), id, .refl⟩

theorem arrayUnion_spec_numbers : ∃ out,
    arrayUnion numbers [.array (.list false .boolean) [some [2, 1], none], .scalar .null none] = .ok out ∧
      out.dataType = .list false .boolean ∧
      ∀ row, out.rows[0]? = some row → row.Pairwise (· < ·) ∧ ∀ x, x ∈ row ↔ x = 2 ∨ x = 1 := by
  have htyped : OfType numbers [.array (.list false .boolean) [some [2, 1], none], .scalar .null none] .boolean :=
    ⟨by simp [ColumnarValue.dataType], by simp [ColumnarValue.dataType], fun _ _ _ => rfl,
      by simp [ColumnarValue.len?]; rfl⟩
  obtain ⟨out, hout, htype, -, -, hrows⟩ := arrayUnion_spec htyped fun rows hlen hrows => by
    obtain ⟨row, row', rfl⟩ := length_eq_two.1 (show rows.length = 2 from hlen)
    have hsub : row ⊆ [2, 1] := fun x hx => by simpa [Occurs, ColumnarValue.row] using ((hrows 0 row rfl).2 x).1 hx
    have hsub' : row' ⊆ [] := fun x hx => by simpa [Occurs, ColumnarValue.row] using ((hrows 1 row' rfl).2 x).1 hx
    have hle := (subperm_of_subset (hrows 0 row rfl).1 hsub).length_le
    rw [subset_nil.1 hsub']
    simp at hle ⊢
    omega
  refine ⟨out, hout, htype.2 ⟨0, by decide, 1, by simp [Occurs, ColumnarValue.row]⟩, fun row hrow => ?_⟩
  obtain ⟨-, hmem, hsorted⟩ := hrows 0 row hrow
  exact ⟨hsorted fun _ _ _ _ => rfl, by simpa [Occurs, ColumnarValue.row] using hmem⟩

/-- A batch of one empty list. -/
theorem arrayUnion_empty : OfType numbers [.array (.list false .boolean) [some []]] .boolean ∧
    ∃ out, arrayUnion numbers [.array (.list false .boolean) [some []]] = .ok out ∧
      out.dataType ≠ .list false .boolean := by
  refine ⟨⟨by simp [ColumnarValue.dataType], by simp [ColumnarValue.dataType], fun _ _ _ => rfl,
    by simp [ColumnarValue.len?]; rfl⟩, ⟨.list false (.list false .boolean), [0, 0], [], none⟩, ?_, by decide⟩
  have hrows : unionRows numbers [.array (.list false .boolean) [some []]] = some [[]] := by
    show some [sorted numbers []] = _
    simp [sorted, numbers]
  rw [arrayUnion, hrows]
  rfl

end Auron.Functions
