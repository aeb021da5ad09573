import Mathlib.Data.List.Basic

/-!
# Limits (`limit_exec.rs`)

`execute_limit` sends rows until nothing remains of its limit, and `execute_limit_with_offset` skips some rows first.
Neither polls its input when nothing remains.  What remains behind the skipped rows is a difference of two `usize`, and it
wraps around if the offset is the greater one: all rows behind the offset are then sent (`executeLimit_slices_iff`).
-/

namespace Auron.LimitExec

open List

variable {α : Type}

/-- The batches an operator has sent, and how often it has polled its input. -/
structure Run (α : Type) where
  sent : List (List α)
  polls : ℕ

/-- A batch cut to the rows that remain, and what remains behind it. -/
def cut (remaining : ℕ) (batch : List α) : List α × ℕ :=
  if remaining < batch.length then (batch.take remaining, 0) else (batch, remaining - batch.length)

/-- The loop of `execute_limit`. -/
def limitLoop : ℕ → List (List α) → Run α
  | remaining, [] => ⟨[], if 0 < remaining then 1 else 0⟩
  | remaining, batch :: batches =>
    if 0 < remaining then
      let r := limitLoop (cut remaining batch).2 batches
      ⟨(cut remaining batch).1 :: r.sent, r.polls + 1⟩
    else ⟨[], 0⟩

/-- The loop of `execute_limit_with_offset`. -/
def limitOffsetLoop : ℕ → ℕ → List (List α) → Run α
  | _, remaining, [] => ⟨[], if 0 < remaining then 1 else 0⟩
  | skip, remaining, batch :: batches =>
    if 0 < remaining then
      if 0 < skip ∧ batch.length ≤ skip then
        let r := limitOffsetLoop (skip - batch.length) remaining batches
        ⟨r.sent, r.polls + 1⟩
      else
        let c := cut remaining (if 0 < skip then batch.drop skip else batch)
        let r := limitOffsetLoop 0 c.2 batches
        ⟨c.1 :: r.sent, r.polls + 1⟩
    else ⟨[], 0⟩

def executeLimit (limit : UInt64) (batches : List (List α)) : Run α := limitLoop limit.toNat batches

def executeLimitWithOffset (limit offset : UInt64) (batches : List (List α)) : Run α :=
  limitOffsetLoop offset.toNat (limit - offset).toNat batches

/-- The rows from the offset to the limit are sent, and the input is polled only as long as some of these may come. -/
def Run.Slices (r : Run α) (offset limit : ℕ) (batches : List (List α)) : Prop :=
  r.sent.flatten = (batches.flatten.take limit).drop offset ∧
    ∀ k < r.polls, offset < limit ∧ (batches.take k).flatten.length < limit

lemma cut_eq (remaining : ℕ) (batch : List α) : cut remaining batch = (batch.take remaining, remaining - batch.length) := by
  unfold cut
  split
  · rw [Nat.sub_eq_zero_of_le (by omega)]
  · rw [take_of_length_le (by omega)]

lemma limitLoop_eq (remaining : ℕ) (batches : List (List α)) :
    limitLoop remaining batches = limitOffsetLoop 0 remaining batches := by
  induction batches generalizing remaining with
  | nil => rfl
  | cons batch batches ih => simp [limitLoop, limitOffsetLoop, ih]

lemma limitOffsetLoop_slices (skip remaining : ℕ) (batches : List (List α)) :
    (limitOffsetLoop skip remaining batches).Slices skip (skip + remaining) batches := by
  unfold Run.Slices
  rw [drop_take, Nat.add_sub_cancel_left]
  induction batches generalizing skip remaining with
  | nil =>
    refine ⟨by simp [limitOffsetLoop], fun k hk => ?_⟩
    have hpos : 0 < remaining := by
      by_contra hzero
      simp [limitOffsetLoop, hzero] at hk
    simp
    omega
  | cons batch batches ih =>
    unfold limitOffsetLoop
    rcases Nat.eq_zero_or_pos remaining with rfl | hpos
    · simp
    rw [if_pos hpos]
    -- a later poll is one of the loop on the other batches
    have hlater : ∀ {polls : ℕ}, (∀ k < polls, (batches.take k).flatten.length < skip + remaining - batch.length) →
        ∀ k < polls + 1, skip < skip + remaining ∧ ((batch :: batches).take k).flatten.length < skip + remaining := by
      intro _ h k hk
      refine ⟨by omega, ?_⟩
      cases k with
      | zero => exact Nat.lt_of_lt_of_le hpos (Nat.le_add_left _ _)
      | succ k =>
        have := h k (by omega)
        rw [take_succ_cons, flatten_cons, length_append]
        omega
    split
    · next hskip =>
      obtain ⟨hsent, hpolls⟩ := ih (skip - batch.length) remaining
      refine ⟨?_, hlater fun k hk => ?_⟩
      · rw [hsent, flatten_cons, drop_append, drop_eq_nil_of_le hskip.2, nil_append]
      · have := (hpolls k hk).2
        omega
    · next hskip =>
      have hdrop : (if 0 < skip then batch.drop skip else batch) = batch.drop skip := by
        split
        · rfl
        · next hzero => rw [Nat.eq_zero_of_not_pos hzero, drop_zero]
      have hlt : skip ≤ batch.length := by omega
      obtain ⟨hsent, hpolls⟩ := ih 0 (remaining - (batch.drop skip).length)
      simp only [hdrop, cut_eq]
      refine ⟨?_, hlater fun k hk => ?_⟩
      · rw [flatten_cons, hsent, drop_zero, flatten_cons, drop_append_of_le_length hlt, take_append]
      · have := (hpolls k hk).2
        rw [length_drop] at this
        omega

/-- **A limit sends a slice of its input; one with an offset does if and only if the offset is not above the limit.** -/
theorem executeLimit_slices_iff (limit offset : UInt64) (batches : List (List α)) :
    (executeLimit limit batches).Slices 0 limit.toNat batches ∧
      ((executeLimitWithOffset limit offset batches).Slices offset.toNat limit.toNat batches ↔ offset ≤ limit) := by
  refine ⟨?_, fun h => ?_, fun h => ?_⟩
  · rw [executeLimit, limitLoop_eq]
    simpa using limitOffsetLoop_slices 0 limit.toNat batches
  · -- otherwise the input is polled before anything is sent
    by_contra hlt
    rw [UInt64.le_iff_toNat_le, Nat.not_le] at hlt
    have hpolls : 0 < (executeLimitWithOffset limit offset batches).polls := by
      have hpos : 0 < (limit - offset).toNat := by
        have := offset.toNat_lt
        rw [UInt64.toNat_sub]
        omega
      unfold executeLimitWithOffset
      cases batches with
      | nil => simp [limitOffsetLoop, hpos]
      | cons batch batches =>
        unfold limitOffsetLoop
        rw [if_pos hpos]
        split <;> exact Nat.succ_pos _
    exact Nat.lt_asymm hlt (h.2 0 hpolls).1
  · have hsum : offset.toNat + (limit - offset).toNat = limit.toNat := by
      have hle := UInt64.le_iff_toNat_le.1 h
      rw [UInt64.toNat_sub_of_le _ _ h]
      omega
    have := limitOffsetLoop_slices offset.toNat (limit - offset).toNat batches
    rwa [hsum] at this

/-- Limit 1 with offset 2: the rows behind the offset are sent, and not none. -/
theorem offset_above_limit : (executeLimitWithOffset 1 2 [[0, 1, 2, 3]]).sent = [[2, 3]] ∧
    ¬(executeLimitWithOffset 1 2 [[0, 1, 2, 3]]).Slices 2 1 [[0, 1, 2, 3]] :=
  ⟨by decide, fun h => absurd h.1 (by decide)⟩

end Auron.LimitExec
