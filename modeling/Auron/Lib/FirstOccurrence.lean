import Mathlib.Data.List.Dedup
import Mathlib.Data.List.Perm.Subperm
import Mathlib.Data.List.TakeWhile

/-!
# Numbering by first occurrence

`firsts xs` is the distinct items of `xs` in the order in which they first occur, built by appending those that are new.
The place of an item in it is the number of distinct items before its first occurrence (`getElem?_firsts_iff`), and it
stays when the list grows (`firstIndex_append`).
-/

namespace Auron.Lib

open List

variable {α : Type*} [DecidableEq α]

def insertNew (acc : List α) (x : α) : List α := if x ∈ acc then acc else acc ++ [x]

def insertAll (acc xs : List α) : List α := xs.foldl insertNew acc

def firsts (xs : List α) : List α := insertAll [] xs

/-- The number of distinct items before the first occurrence of an item. -/
def firstIndex (xs : List α) (x : α) : ℕ := (xs.takeWhile (· ≠ x)).dedup.length

variable {acc : List α} {x : α}

lemma insertNew_of_mem (h : x ∈ acc) : insertNew acc x = acc := if_pos h

lemma insertNew_of_notMem (h : x ∉ acc) : insertNew acc x = acc ++ [x] := if_neg h

lemma prefix_insertNew (acc : List α) (x : α) : acc <+: insertNew acc x := by
  unfold insertNew
  split
  · exact prefix_rfl
  · exact prefix_append _ _

lemma prefix_insertAll (acc xs : List α) : acc <+: insertAll acc xs := by
  induction xs generalizing acc with
  | nil => exact prefix_rfl
  | cons x xs ih => exact (prefix_insertNew acc x).trans (ih _)

lemma mem_insertNew {y : α} : y ∈ insertNew acc x ↔ y ∈ acc ∨ y = x := by
  by_cases h : x ∈ acc
  · rw [insertNew_of_mem h]
    exact ⟨.inl, fun hy => hy.elim id fun heq => heq ▸ h⟩
  · simp [insertNew_of_notMem h]

variable {xs : List α}

lemma mem_insertAll {y : α} : y ∈ insertAll acc xs ↔ y ∈ acc ∨ y ∈ xs := by
  induction xs generalizing acc with
  | nil => simp [insertAll]
  | cons x xs ih =>
    rw [insertAll, foldl_cons, ← insertAll, ih, mem_insertNew, mem_cons, or_assoc]

lemma nodup_insertAll (h : acc.Nodup) (xs : List α) : (insertAll acc xs).Nodup := by
  induction xs generalizing acc with
  | nil => exact h
  | cons x xs ih =>
    refine ih ?_
    by_cases hx : x ∈ acc
    · rwa [insertNew_of_mem hx]
    · rw [insertNew_of_notMem hx]
      exact nodup_append.2 ⟨h, nodup_singleton x, by
        rintro a ha b hb rfl
        exact hx (mem_singleton.1 hb ▸ ha)⟩

lemma insertAll_append (acc xs ys : List α) : insertAll acc (xs ++ ys) = insertAll (insertAll acc xs) ys :=
  foldl_append

lemma nodup_firsts (xs : List α) : (firsts xs).Nodup := nodup_insertAll .nil xs

lemma mem_firsts : x ∈ firsts xs ↔ x ∈ xs := by
  simp [firsts, mem_insertAll]

lemma firsts_append (xs ys : List α) : firsts (xs ++ ys) = insertAll (firsts xs) ys := insertAll_append [] xs ys

lemma insertAll_of_nodup (h : (acc ++ xs).Nodup) : insertAll acc xs = acc ++ xs := by
  induction xs generalizing acc with
  | nil => exact (append_nil acc).symm
  | cons x xs ih =>
    have hx : x ∉ acc := fun hx => (nodup_append.1 h).2.2 x hx x mem_cons_self rfl
    have hrest : (acc ++ [x] ++ xs).Nodup := by rwa [append_assoc]
    rw [insertAll, foldl_cons, insertNew_of_notMem hx, ← insertAll, ih hrest, append_assoc]
    rfl

lemma length_firsts (xs : List α) : (firsts xs).length = xs.dedup.length := by
  refine ((perm_ext_iff_of_nodup (nodup_firsts xs) (nodup_dedup xs)).2 fun x => ?_).length_eq
  rw [mem_firsts, mem_dedup]

lemma exists_takeWhile_ne (h : x ∈ xs) : ∃ ys, xs = xs.takeWhile (· ≠ x) ++ x :: ys := by
  induction xs with
  | nil => cases h
  | cons y xs ih =>
    by_cases hyx : y = x
    · exact ⟨xs, by simp [hyx]⟩
    · obtain ⟨ys, hys⟩ := ih ((mem_cons.1 h).resolve_left (Ne.symm hyx))
      refine ⟨ys, ?_⟩
      rw [takeWhile_cons_of_pos (by simpa using hyx), cons_append, ← hys]

/-- **An item is at the number of distinct items before its first occurrence.** -/
theorem getElem?_firsts (h : x ∈ xs) : (firsts xs)[firstIndex xs x]? = some x := by
  obtain ⟨ys, hys⟩ := exists_takeWhile_ne h
  have hnot : x ∉ firsts (xs.takeWhile (· ≠ x)) := by
    rw [mem_firsts]
    intro hx
    simpa using mem_takeWhile_imp hx
  have hpre : firsts (xs.takeWhile (· ≠ x)) ++ [x] <+: firsts xs := by
    conv_rhs => rw [hys, firsts_append]
    rw [insertAll, foldl_cons, insertNew_of_notMem hnot]
    exact prefix_insertAll _ ys
  obtain ⟨_, hzs⟩ := hpre
  rw [firstIndex, ← length_firsts, ← hzs, append_assoc, getElem?_append_right (le_refl _), Nat.sub_self]
  rfl

lemma getElem?_firsts_iff {i : ℕ} : (firsts xs)[i]? = some x ↔ x ∈ xs ∧ firstIndex xs x = i := by
  constructor
  · intro h
    have hx : x ∈ xs := mem_firsts.1 (mem_of_getElem? h)
    refine ⟨hx, ?_⟩
    obtain ⟨_, hget⟩ := List.getElem?_eq_some_iff.1 h
    obtain ⟨_, hget'⟩ := List.getElem?_eq_some_iff.1 (getElem?_firsts hx)
    exact (Nodup.getElem_inj_iff (nodup_firsts xs)).1 (hget'.trans hget.symm)
  · rintro ⟨hx, rfl⟩
    exact getElem?_firsts hx

lemma idxOf_firsts [BEq α] [LawfulBEq α] (h : x ∈ xs) : (firsts xs).idxOf x = firstIndex xs x := by
  have hidx : (firsts xs).idxOf x < (firsts xs).length := idxOf_lt_length_iff.2 (mem_firsts.2 h)
  have hget : (firsts xs)[(firsts xs).idxOf x]? = some x := by
    rw [getElem?_eq_getElem hidx, getElem_idxOf]
  exact ((getElem?_firsts_iff.1 hget).2).symm

lemma firstIndex_append (h : x ∈ xs) (ys : List α) : firstIndex (xs ++ ys) x = firstIndex xs x := by
  refine (getElem?_firsts_iff.1 ?_).2
  obtain ⟨_, hzs⟩ := prefix_insertAll (firsts xs) ys
  have hget := getElem?_firsts h
  rw [firsts_append, ← hzs, getElem?_append_left (List.getElem?_eq_some_iff.1 hget).1, hget]

end Auron.Lib
