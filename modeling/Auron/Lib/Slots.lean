import Mathlib.Data.List.Infix

/-!
# Slots between offsets

A list of lists as one flat list and offsets into it: the list `i` lies between the offsets `i` and `i + 1`.  `slots` reads
the lists off, `offsetsOf` are the offsets of given lists, and reading gives these back (`slots_offsetsOf`).
-/

namespace Auron.Lib

open List

variable {α : Type}

def slots (offsets : List ℕ) (xs : List α) : List (List α) :=
  zipWith (fun start stop => (xs.drop start).take (stop - start)) offsets offsets.tail

variable (xss : List (List α))

def offsetsOf : List ℕ := xss.inits.map fun yss => yss.flatten.length

lemma length_offsetsOf : (offsetsOf xss).length = xss.length + 1 := by simp [offsetsOf]

lemma offsetsOf_concat (xs : List α) : offsetsOf (xss ++ [xs]) = offsetsOf xss ++ [(xss ++ [xs]).flatten.length] := by
  simp [offsetsOf]

lemma getElem_offsetsOf {i : ℕ} (hi : i < (offsetsOf xss).length) :
    (offsetsOf xss)[i] = (xss.take i).flatten.length := by
  simp [offsetsOf]

lemma getLast?_offsetsOf : (offsetsOf xss).getLast? = some xss.flatten.length := by
  rw [getLast?_eq_getElem?, length_offsetsOf, Nat.add_sub_cancel,
    getElem?_eq_getElem (by rw [length_offsetsOf]; exact Nat.lt_succ_self _), getElem_offsetsOf, take_length]

lemma pairwise_offsetsOf : (offsetsOf xss).Pairwise (· ≤ ·) := by
  refine pairwise_iff_getElem.2 fun i j hi hj hij => ?_
  rw [getElem_offsetsOf, getElem_offsetsOf]
  exact (take_prefix_take_left hij.le).flatten.length_le

lemma take_drop_flatten {i : ℕ} (hi : i < xss.length) (rest : List α) :
    ((xss.flatten ++ rest).drop (xss.take i).flatten.length).take
      ((xss.take (i + 1)).flatten.length - (xss.take i).flatten.length) = xss[i] := by
  have hnext : (xss.take (i + 1)).flatten = (xss.take i).flatten ++ xss[i] := by
    rw [take_succ_eq_append_getElem hi, flatten_append, flatten_singleton]
  have hsplit : xss.flatten = (xss.take i).flatten ++ (xss[i] ++ (xss.drop (i + 1)).flatten) := by
    rw [← append_assoc, ← hnext, ← flatten_append, take_append_drop]
  rw [hnext, length_append, Nat.add_sub_cancel_left, hsplit, append_assoc, append_assoc, drop_left, take_left]

/-- **Reading the slots gives the lists back**, whatever lies behind the last one. -/
theorem slots_offsetsOf (rest : List α) : slots (offsetsOf xss) (xss.flatten ++ rest) = xss := by
  apply ext_getElem
  · simp [slots, length_offsetsOf]
  · intro i _ hi
    simp only [slots, getElem_zipWith, getElem_tail, getElem_offsetsOf]
    exact take_drop_flatten xss hi rest

end Auron.Lib
