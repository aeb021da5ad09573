import Mathlib.Data.List.Sort
import Mathlib.Data.List.Perm.Subperm

/-!
# The `L` smallest keys of a list

`smallest L xs` is the prefix of length `L` of the ascending sort of `xs`.  The point of the module is
`smallest_append`: cutting both parts of a list to their `L` smallest keys first does not change the `L` smallest
keys of the whole.  A limit may therefore be pushed below any number of merges.

`Keeps key L full kept` packages what a truncating step leaves of a list of records: the kept records are among the
full ones, and their keys are the `L` smallest.  `Keeps.append` and `Keeps.trans` compose such steps.  `Cut` says in
addition that there are as many of them as the limit allows.
-/

namespace Auron.Lib

open List

variable {κ : Type*} [LinearOrder κ]

def ascending (xs : List κ) : List κ := xs.mergeSort (fun a b => decide (a ≤ b))

/-- The `L` smallest keys of a list, in ascending order. -/
def smallest (L : ℕ) (xs : List κ) : List κ := (ascending xs).take L

/-! ### The ascending sort -/

lemma ascending_perm (xs : List κ) : (ascending xs).Perm xs := mergeSort_perm _ _

lemma ascending_pairwise (xs : List κ) : (ascending xs).Pairwise (· ≤ ·) := pairwise_mergeSort' _ xs

variable {xs ys : List κ}

lemma eq_of_perm_of_pairwise (h : xs.Perm ys) (hx : xs.Pairwise (· ≤ ·)) (hy : ys.Pairwise (· ≤ ·)) : xs = ys :=
  h.eq_of_pairwise (fun _ _ _ _ => le_antisymm) hx hy

lemma ascending_eq_of_perm (h : xs.Perm ys) : ascending xs = ascending ys :=
  eq_of_perm_of_pairwise ((ascending_perm xs).trans (h.trans (ascending_perm ys).symm))
    (ascending_pairwise xs) (ascending_pairwise ys)

lemma ascending_of_pairwise (h : xs.Pairwise (· ≤ ·)) : ascending xs = xs :=
  eq_of_perm_of_pairwise (ascending_perm xs) (ascending_pairwise xs) h

@[simp] lemma length_ascending (xs : List κ) : (ascending xs).length = xs.length :=
  (ascending_perm xs).length_eq

/-! ### Cutting to the smallest keys -/

lemma smallest_eq_of_perm (L : ℕ) (h : xs.Perm ys) : smallest L xs = smallest L ys := by
  unfold smallest
  rw [ascending_eq_of_perm h]

lemma smallest_of_pairwise (L : ℕ) (h : xs.Pairwise (· ≤ ·)) : smallest L xs = xs.take L := by
  unfold smallest
  rw [ascending_of_pairwise h]

lemma take_orderedInsert (L : ℕ) (x : κ) (s : List κ) :
    (s.orderedInsert (· ≤ ·) x).take L = ((s.take L).orderedInsert (· ≤ ·) x).take L := by
  induction s generalizing L with
  | nil => simp
  | cons a s ih =>
    cases L with
    | zero => rfl
    | succ L =>
      rw [take_succ_cons]
      by_cases hxa : x ≤ a
      · rw [orderedInsert_cons_of_le _ _ hxa, orderedInsert_cons_of_le _ _ hxa, take_succ_cons, take_succ_cons]
        cases L <;> simp [take_take]
      · rw [orderedInsert_of_not_le _ _ hxa, orderedInsert_of_not_le _ _ hxa, take_succ_cons, take_succ_cons, ih]

lemma ascending_cons (x : κ) (xs : List κ) : ascending (x :: xs) = (ascending xs).orderedInsert (· ≤ ·) x := by
  have hperm : (x :: xs).Perm ((ascending xs).orderedInsert (· ≤ ·) x) :=
    ((ascending_perm xs).symm.cons x).trans (perm_orderedInsert _ _ _).symm
  rw [ascending_eq_of_perm hperm, ascending_of_pairwise ((ascending_pairwise xs).orderedInsert x _)]

/-- The smallest keys of a list are known from its first key and the smallest of the rest. -/
lemma smallest_cons (L : ℕ) (x : κ) (xs : List κ) :
    smallest L (x :: xs) = ((smallest L xs).orderedInsert (· ≤ ·) x).take L := by
  rw [smallest, ascending_cons, take_orderedInsert, smallest]

lemma smallest_append_smallest (L : ℕ) (xs ys : List κ) :
    smallest L (xs ++ smallest L ys) = smallest L (xs ++ ys) := by
  induction xs with
  | nil =>
    have hsorted : (smallest L ys).Pairwise (· ≤ ·) := (ascending_pairwise ys).sublist (take_sublist L _)
    rw [nil_append, nil_append, smallest_of_pairwise L hsorted, smallest, take_take, min_self]
  | cons x xs ih => rw [cons_append, cons_append, smallest_cons, ih, smallest_cons]

/-- **A cut may be pushed below an append.** -/
theorem smallest_append (L : ℕ) (xs ys : List κ) :
    smallest L (smallest L xs ++ smallest L ys) = smallest L (xs ++ ys) := by
  rw [smallest_append_smallest, smallest_eq_of_perm L perm_append_comm, smallest_append_smallest,
    smallest_eq_of_perm L perm_append_comm]

/-! ### Truncating a list of records -/

/-- What a truncating step leaves of a list of records: records of the list, with the `L` smallest keys. -/
structure Keeps {α : Type*} (key : α → κ) (L : ℕ) (full kept : List α) : Prop where
  /-- Every kept record is a record of the full list, with multiplicity. -/
  sub : kept.Subperm full
  /-- The keys kept are the `L` smallest. -/
  keys : smallest L (kept.map key) = smallest L (full.map key)

namespace Keeps

variable {α : Type*} {key : α → κ} {L : ℕ}

lemma refl (xs : List α) : Keeps key L xs xs := ⟨Subperm.refl _, rfl⟩

variable {xs ys : List α}

lemma of_perm (h : xs.Perm ys) : Keeps key L xs ys :=
  ⟨h.symm.subperm, smallest_eq_of_perm L (h.symm.map key)⟩

lemma trans {zs : List α} (h₁ : Keeps key L xs ys) (h₂ : Keeps key L ys zs) : Keeps key L xs zs :=
  ⟨h₂.sub.trans h₁.sub, h₂.keys.trans h₁.keys⟩

lemma append {xs' ys' : List α} (h₁ : Keeps key L xs xs') (h₂ : Keeps key L ys ys') :
    Keeps key L (xs ++ ys) (xs' ++ ys') := by
  refine ⟨h₁.sub.append h₂.sub, ?_⟩
  rw [map_append, map_append, ← smallest_append, h₁.keys, h₂.keys, smallest_append]

lemma ne_nil (h : Keeps key L xs ys) (hL : 0 < L) (hne : xs ≠ []) : ys ≠ [] := by
  rintro rfl
  have hlen := congrArg List.length h.keys
  have hpos := length_pos_of_ne_nil hne
  simp only [smallest, length_take, length_ascending, length_map, length_nil] at hlen
  omega

lemma take (h : xs.Pairwise (fun a b => key a ≤ key b)) : Keeps key L xs (xs.take L) := by
  have hm : (xs.map key).Pairwise (· ≤ ·) := pairwise_map.2 h
  refine ⟨(take_sublist _ _).subperm, ?_⟩
  rw [map_take, smallest_of_pairwise L (hm.sublist (take_sublist _ _)), smallest_of_pairwise L hm,
    take_take, min_self]

end Keeps

/-- A list of records cut to length `L`: nothing but the limit takes records away. -/
structure Cut {α : Type*} (key : α → κ) (L : ℕ) (full kept : List α) : Prop extends Keeps key L full kept where
  length : kept.length = min L full.length

namespace Cut

variable {α : Type*} {key : α → κ} {L : ℕ}

lemma perm {full kept : List α} (h : Cut key L full kept) (hL : full.length ≤ L) : kept.Perm full := by
  refine h.sub.perm_of_length_le ?_
  rw [h.length]
  omega

end Cut

end Auron.Lib
