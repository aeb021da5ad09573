import Mathlib.Data.BitVec
import Mathlib.Data.Rat.Floor

/-!
# The average of decimals (`agg/avg.rs`, `agg/sum.rs`, `agg/count.rs`)

A record has the sum of the unscaled values, a number of 128 bits, and their count.  However the values of a group are split
into updates and merges, the record has their sum and their number (`AvgRun.sum_count`).

`final_merge` divides by `div_euclid`, which rounds down and not to the nearest: the average is right exactly if the part
that is cut off is less than half a unit, or half a unit of a negative sum (`finalMerge_rounds_iff`).
-/

namespace Auron.Agg

open List

/-- The record of a group in `AccAvgColumn`. -/
structure AvgAcc where
  sum : Option (BitVec 128)
  count : BitVec 64

def updateValue {α : Type} (slot : Option α) (defaultValue : α) (update : α → α) : Option α :=
  some (slot.elim defaultValue update)

namespace AvgAcc

def new : AvgAcc := ⟨none, 0⟩

def partialUpdate (acc : AvgAcc) (arg : Option (BitVec 128)) : AvgAcc where
  sum := match arg with
    | some value => updateValue acc.sum value (· + value)
    | none => acc.sum
  count := acc.count + if arg.isSome then 1 else 0

def partialMerge (acc merging : AvgAcc) : AvgAcc where
  sum := match merging.sum with
    | some value => updateValue acc.sum value (· + value)
    | none => acc.sum
  count := acc.count + merging.count

def checkedDivEuclid (a b : ℤ) : Option ℤ := if b = 0 ∨ (a = -2 ^ 127 ∧ b = -1) then none else some (a / b)

/-- `final_merge` of a decimal type: the unscaled average, or a null. -/
def finalMerge (acc : AvgAcc) : Option ℤ :=
  if acc.count = 0 then none
  else acc.sum.map fun sum => (checkedDivEuclid sum.toInt acc.count.toInt).getD 0

end AvgAcc

/-- The records that updates and merges lead to, with the values that are not null. -/
inductive AvgRun : List (BitVec 128) → AvgAcc → Prop
  | new : AvgRun [] .new
  | update {values : List (BitVec 128)} {acc : AvgAcc} (arg : Option (BitVec 128)) : AvgRun values acc →
      AvgRun (values ++ arg.toList) (acc.partialUpdate arg)
  | merge {values values' : List (BitVec 128)} {acc acc' : AvgAcc} : AvgRun values acc → AvgRun values' acc' →
      AvgRun (values ++ values') (acc.partialMerge acc')

/-- The sum of the values, in whole numbers. -/
def total (values : List (BitVec 128)) : ℤ := (values.map BitVec.toInt).sum

/-- `HALF_UP`: to the nearest, and from the middle away from zero. -/
def roundHalfUp (q : ℚ) : ℤ := if 0 ≤ q then round q else -round (-q)

variable {values values' : List (BitVec 128)} {acc acc' : AvgAcc}

/-- **A record has the sum and the number of its values**, whatever the split. -/
theorem AvgRun.sum_count (h : AvgRun values acc) :
    acc.sum = (if values = [] then none else some values.sum) ∧ acc.count = BitVec.ofNat 64 values.length := by
  -- adding a value, or the sum of some, to the slot of the sum
  have hadd : ∀ (values : List (BitVec 128)) (value : BitVec 128),
      updateValue (if values = [] then none else some values.sum) value (· + value) = some (values.sum + value) := by
    intro values value
    cases values with
    | nil => simp [updateValue]
    | cons v values => simp [updateValue]
  induction h with
  | new => exact ⟨rfl, rfl⟩
  | @update values acc arg _ ih =>
    obtain ⟨hsum, hcount⟩ := ih
    cases arg with
    | none => simpa [AvgAcc.partialUpdate] using ⟨hsum, hcount⟩
    | some value =>
      refine ⟨?_, ?_⟩
      · show updateValue acc.sum value (· + value) = _
        rw [hsum, hadd]
        simp
      · show acc.count + 1 = _
        simp [hcount, BitVec.ofNat_add]
  | @merge values values' acc acc' _ _ ih ih' =>
    obtain ⟨hsum, hcount⟩ := ih
    obtain ⟨hsum', hcount'⟩ := ih'
    refine ⟨?_, ?_⟩
    · unfold AvgAcc.partialMerge
      rw [hsum']
      cases values' with
      | nil => simpa using hsum
      | cons v values' =>
        simp only [reduceCtorEq, if_false]
        rw [hsum, hadd]
        simp
    · show acc.count + acc'.count = _
      rw [hcount, hcount', length_append, BitVec.ofNat_add]

lemma ofInt_total (values : List (BitVec 128)) : BitVec.ofInt 128 (total values) = values.sum := by
  induction values with
  | nil => rfl
  | cons v values ih =>
    rw [total, map_cons, sum_cons, BitVec.ofInt_add, BitVec.ofInt_toInt]
    exact congrArg _ ih

lemma AvgRun.finalMerge_eq (h : AvgRun values acc) (hpos : 0 < values.length) (hcount : values.length < 2 ^ 63)
    (hfits : -2 ^ 127 ≤ total values ∧ total values < 2 ^ 127) :
    acc.finalMerge = some (total values / values.length) := by
  obtain ⟨hsum, hc⟩ := h.sum_count
  have hint : acc.count.toInt = values.length := by
    rw [hc, BitVec.toInt_ofNat', Int.bmod_eq_of_le] <;> omega
  have hsumInt : values.sum.toInt = total values := by
    rw [← ofInt_total, BitVec.toInt_ofInt_eq_self (by decide) hfits.1 hfits.2]
  have hne : acc.count ≠ 0 := fun hzero => by
    rw [hzero] at hint
    simp at hint
    omega
  have hnil : values ≠ [] := ne_nil_of_length_pos hpos
  rw [AvgAcc.finalMerge, if_neg hne, hsum, if_neg hnil, Option.map_some, hsumInt, hint, AvgAcc.checkedDivEuclid, if_neg]
  · rfl
  · omega

lemma roundHalfUp_eq_iff (s : ℤ) {n : ℤ} (hn : 0 < n) (m : ℤ) : roundHalfUp (s / n) = m ↔
    if 0 ≤ s then (2 * m - 1) * n ≤ 2 * s ∧ 2 * s < (2 * m + 1) * n
    else (2 * m - 1) * n < 2 * s ∧ 2 * s ≤ (2 * m + 1) * n := by
  have hnq : (0 : ℚ) < n := by exact_mod_cast hn
  have hle : ∀ a b : ℤ, (a : ℚ) / 2 ≤ b / n ↔ a * n ≤ 2 * b := by
    intro a b
    rw [div_le_div_iff₀ two_pos hnq, mul_comm (b : ℚ)]
    exact_mod_cast Iff.rfl
  have hlt : ∀ a b : ℤ, (b : ℚ) / n < a / 2 ↔ 2 * b < a * n := by
    intro a b
    rw [div_lt_div_iff₀ hnq two_pos, mul_comm (b : ℚ)]
    exact_mod_cast Iff.rfl
  have hround : ∀ b m : ℤ, round ((b : ℚ) / n) = m ↔ (2 * m - 1) * n ≤ 2 * b ∧ 2 * b < (2 * m + 1) * n := by
    intro b m
    rw [round_eq_iff, Set.mem_Ico, ← hle, ← hlt]
    push_cast
    ring_nf
  unfold roundHalfUp
  by_cases hs : 0 ≤ s
  · rw [if_pos hs, if_pos (div_nonneg (by exact_mod_cast hs) hnq.le), hround]
  · have hq : ¬ (0 : ℚ) ≤ s / n := not_le.2 (div_neg_of_neg_of_pos (by exact_mod_cast not_le.1 hs) hnq)
    have hneg : -(s / n : ℚ) = ((-s : ℤ) : ℚ) / n := by push_cast; ring
    rw [if_neg hs, if_neg hq, neg_eq_iff_eq_neg, hneg, hround]
    constructor <;> rintro ⟨_, _⟩ <;> constructor <;> linarith

/-- Rounding down is rounding to the nearest, away from zero, if little enough is cut off. -/
lemma roundHalfUp_eq_div_iff (s : ℤ) {n : ℤ} (hn : 0 < n) :
    roundHalfUp (s / n) = s / n ↔ 2 * (s % n) < n ∨ (2 * (s % n) = n ∧ s < 0) := by
  have hdiv := Int.mul_ediv_add_emod s n
  have hmod := Int.emod_nonneg s hn.ne'
  have hup : (2 * (s / n) + 1) * n = 2 * (n * (s / n)) + n := by ring
  have hdown : (2 * (s / n) - 1) * n = 2 * (n * (s / n)) - n := by ring
  rw [roundHalfUp_eq_iff s hn]
  split <;> omega

/-- **When an average is rounded as it should be**, and when negated values have the negated average. -/
theorem finalMerge_rounds_iff (h : AvgRun values acc) (hpos : 0 < values.length) (hcount : values.length < 2 ^ 63)
    (hfits : -2 ^ 127 ≤ total values ∧ total values < 2 ^ 127) :
    (acc.finalMerge = some (roundHalfUp (total values / (values.length : ℤ))) ↔
      2 * (total values % values.length) < values.length
        ∨ (2 * (total values % values.length) = values.length ∧ total values < 0))
    ∧ ∀ values' acc', AvgRun values' acc' → values'.map BitVec.toInt = values.map (fun v => -v.toInt) →
      total values ≠ -2 ^ 127 → (acc'.finalMerge = acc.finalMerge.map Neg.neg ↔ (values.length : ℤ) ∣ total values) := by
  have hn : (0 : ℤ) < values.length := by exact_mod_cast hpos
  refine ⟨?_, fun values' acc' h' hneg hmin => ?_⟩
  · rw [h.finalMerge_eq hpos hcount hfits, ← roundHalfUp_eq_div_iff _ hn, Option.some_inj, eq_comm]
  · have hlen : values'.length = values.length := by simpa using congrArg length hneg
    have htotal : total values' = -total values := by
      rw [total, hneg, total, sum_neg, map_map]
      rfl
    have hfits' : -2 ^ 127 ≤ total values' ∧ total values' < 2 ^ 127 := by
      omega
    rw [h'.finalMerge_eq (hlen ▸ hpos) (hlen ▸ hcount) hfits', h.finalMerge_eq hpos hcount hfits, hlen, htotal,
      Option.map_some, Option.some_inj]
    constructor
    · intro heq
      have h₁ := Int.mul_ediv_add_emod (total values) values.length
      have h₂ := Int.mul_ediv_add_emod (-total values) values.length
      have h₃ := Int.emod_nonneg (total values) hn.ne'
      have h₄ := Int.emod_nonneg (-total values) hn.ne'
      rw [heq, mul_neg] at h₂
      exact Int.dvd_of_emod_eq_zero (by omega)
    · exact fun hdvd => Int.neg_ediv_of_dvd hdvd

lemma AvgRun.two (v w : BitVec 128) : AvgRun [v, w] ((AvgAcc.new.partialUpdate (some v)).partialUpdate (some w)) :=
  .update (some w) (.update (some v) .new)

/-- The average of 2, 4 is 3, and that of -2, -4 is -3. -/
theorem finalMerge_rounds_even :
    ((AvgAcc.new.partialUpdate (some 2)).partialUpdate (some 4)).finalMerge = some (roundHalfUp (total [2, 4] / (2 : ℤ)))
    ∧ ((AvgAcc.new.partialUpdate (some (-2))).partialUpdate (some (-4))).finalMerge
      = ((AvgAcc.new.partialUpdate (some 2)).partialUpdate (some 4)).finalMerge.map Neg.neg := by
  obtain ⟨hround, hneg⟩ := finalMerge_rounds_iff (.two 2 4) (by decide) (by decide) (by decide)
  exact ⟨hround.2 (by decide), (hneg _ _ (.two (-2) (-4)) (by decide) (by decide)).2 (by decide)⟩

/-- The average of 1, 2 is 1 and not 2, and that of -1, -2 is -2. -/
theorem finalMerge_rounds_down :
    AvgRun [1, 2] ((AvgAcc.new.partialUpdate (some 1)).partialUpdate (some 2))
    ∧ AvgRun [-1, -2] ((AvgAcc.new.partialUpdate (some (-1))).partialUpdate (some (-2)))
    ∧ ((AvgAcc.new.partialUpdate (some 1)).partialUpdate (some 2)).finalMerge = some 1
    ∧ roundHalfUp (total [1, 2] / (2 : ℤ)) = 2
    ∧ ((AvgAcc.new.partialUpdate (some (-1))).partialUpdate (some (-2))).finalMerge = some (-2) := by
  refine ⟨.two 1 2, .two (-1) (-2), by decide, ?_, by decide⟩
  have htotal : total [1, 2] = 3 := by decide
  rw [htotal, roundHalfUp, if_pos (by norm_num)]
  norm_num

end Auron.Agg
