import Mathlib.Data.List.Basic
import Mathlib.Data.List.GetD
import Mathlib.Tactic.Ring

/-!
# Transposing a matrix in a list

A matrix of `height` rows of `width` elements is a list of `width * height` elements, row after row.  Transposing it and
transposing the result gives it back.
-/

namespace Auron.Lib

open List

variable {α : Type} [Inhabited α]

/-- The columns of the matrix one after the other: element `x * height + y` is element `y * width + x` of the input. -/
def transpose (input : List α) (width height : ℕ) : List α :=
  (range (width * height)).map fun i => input.getD (i % height * width + i / height) default

@[simp] lemma length_transpose (input : List α) (width height : ℕ) :
    (transpose input width height).length = width * height := by simp [transpose]

lemma transpose_transpose {input : List α} {width height : ℕ} (hlen : input.length = width * height) :
    transpose (transpose input width height) height width = input := by
  apply ext_getElem
  · rw [length_transpose, hlen, mul_comm]
  · intro j _ hj'
    have hj' : j < width * height := hlen ▸ hj'
    have hwidth : 0 < width := pos_of_ne_zero (by rintro rfl; omega)
    have hheight : 0 < height := pos_of_ne_zero (by rintro rfl; omega)
    -- column `j % width` and row `j / width`
    have hrow : j / width < height := Nat.div_lt_of_lt_mul hj'
    have hcol : j % width < width := Nat.mod_lt _ hwidth
    have hlt : j % width * height + j / width < width * height := by
      calc j % width * height + j / width < j % width * height + height := by omega
        _ = (j % width + 1) * height := by ring
        _ ≤ width * height := Nat.mul_le_mul_right _ hcol
    have hmod : (j % width * height + j / width) % height = j / width := by
      rw [add_comm, Nat.add_mul_mod_self_right, Nat.mod_eq_of_lt hrow]
    have hdiv : (j % width * height + j / width) / height = j % width := by
      rw [add_comm, Nat.add_mul_div_right _ _ hheight, Nat.div_eq_of_lt hrow, zero_add]
    have hback : j / width * width + j % width = j := by
      rw [mul_comm]
      exact Nat.div_add_mod j width
    simp only [transpose, getElem_map]
    rw [getD_eq_getElem _ _ (by simpa using hlt)]
    simp only [getElem_map, getElem_range]
    rw [hmod, hdiv, hback, getD_eq_getElem]

end Auron.Lib
