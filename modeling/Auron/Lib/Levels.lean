import Mathlib.Algebra.BigOperators.Group.List.Lemmas
import Mathlib.Algebra.Order.BigOperators.Group.List
import Mathlib.Algebra.Order.Ring.Nat
import Mathlib.Data.List.Perm.Subperm
import Mathlib.Data.List.SplitBy
import Mathlib.Data.Nat.Log

/-!
# Labelled levels

Things carry a level, and `b` things of one level may be replaced by one of the next: a counter in base `b` with
digits that may be any number.  `weight b` of the levels counts a thing of level `l` as `b ^ l`, so no such step
increases it, and it bounds the levels in use by a logarithm (`le_log_of_weight_le`).

When the things are sorted by level and cut into runs of equal level, the position of a run is at most its level
(`Ascending`), so that labelling the runs by their positions does not increase the weight either (`posWeight_le`).
-/

namespace Auron.Lib

open List

variable {α : Type*}

/-! ### The weight of a list of levels -/

def weight (b : ℕ) (levels : List ℕ) : ℕ := (levels.map (b ^ ·)).sum

@[simp] lemma weight_append (b : ℕ) (xs ys : List ℕ) : weight b (xs ++ ys) = weight b xs + weight b ys := by
  simp [weight]

@[simp] lemma weight_replicate (b k l : ℕ) : weight b (replicate k l) = k * b ^ l := by
  simp [weight]

variable {levels : List ℕ}

lemma pow_le_weight (b : ℕ) {l : ℕ} (h : l ∈ levels) : b ^ l ≤ weight b levels :=
  single_le_sum (fun _ _ => Nat.zero_le _) _ (mem_map_of_mem h)

/-- **Levels are bounded by the logarithm of their weight.** -/
theorem le_log_of_weight_le {b n : ℕ} (hb : 1 < b) (h : weight b levels ≤ n) {l : ℕ} (hl : l ∈ levels) :
    l ≤ Nat.log b n := by
  have hpow : b ^ l ≤ n := (pow_le_weight b hl).trans h
  exact Nat.le_log_of_pow_le hb hpow

/-! ### Counting -/

lemma length_le_mul_dedup {k : ℕ} (h : ∀ l, levels.count l ≤ k) : levels.length ≤ k * levels.dedup.length := by
  have hsum := sum_le_card_nsmul (levels.dedup.map levels.count) k (by
    intro c hc
    obtain ⟨l, -, rfl⟩ := mem_map.1 hc
    exact h l)
  rw [sum_map_count_dedup_eq_length, length_map, Nat.nsmul_eq_mul, mul_comm] at hsum
  exact hsum

lemma length_dedup_le {m : ℕ} (h : ∀ l ∈ levels, l ≤ m) : levels.dedup.length ≤ m + 1 := by
  have hsub : levels.dedup ⊆ range (m + 1) := by
    intro l hl
    have := h l (mem_dedup.1 hl)
    exact mem_range.2 (by omega)
  simpa using (subperm_of_subset (nodup_dedup levels) hsub).length_le

/-! ### Runs of equal level -/

/-- The weight of groups that are labelled by their positions, counted from `k` on. -/
def posWeight (b : ℕ) : ℕ → List (List α) → ℕ
  | _, [] => 0
  | k, g :: gs => g.length * b ^ k + posWeight b (k + 1) gs

lemma posWeight_append_nil (b : ℕ) (gs : List (List α)) : ∀ k, posWeight b k (gs ++ [[]]) = posWeight b k gs := by
  induction gs with
  | nil => intro k; simp [posWeight]
  | cons g gs ih => intro k; rw [cons_append, posWeight, posWeight, ih]

lemma posWeight_map {β : Type*} (b : ℕ) (f : α → β) (gs : List (List α)) :
    ∀ k, posWeight b k (gs.map (map f)) = posWeight b k gs := by
  induction gs with
  | nil => intro k; rfl
  | cons g gs ih => intro k; rw [map_cons, posWeight, posWeight, ih, length_map]

/-- Groups of one level each, the levels increasing from `lo` on. -/
inductive Ascending (level : α → ℕ) : ℕ → List (List α) → Prop
  | nil (lo : ℕ) : Ascending level lo []
  | cons {lo l : ℕ} {g : List α} {gs : List (List α)} (le : lo ≤ l) (eq : ∀ a ∈ g, level a = l)
      (rest : Ascending level (l + 1) gs) : Ascending level lo (g :: gs)

variable {level : α → ℕ}

/-- **Positions are not above levels**, so they weigh no more. -/
theorem posWeight_le {b : ℕ} (hb : 0 < b) {lo : ℕ} {gs : List (List α)} (h : Ascending level lo gs) :
    ∀ {k : ℕ}, k ≤ lo → posWeight b k gs ≤ weight b (gs.flatten.map level) := by
  induction h with
  | nil lo => exact fun _ => Nat.zero_le _
  | @cons lo l g gs hle heq _ ih =>
    intro k _
    have hg : g.map level = replicate g.length l := by
      rw [eq_replicate_iff]
      exact ⟨length_map _, by simpa using heq⟩
    rw [flatten_cons, map_append, weight_append, hg, weight_replicate]
    exact add_le_add (Nat.mul_le_mul_left _ (Nat.pow_le_pow_right hb (by omega))) (ih (by omega))

lemma all_eq_of_isChain {g : List α} (h : g.IsChain fun a b => (level a == level b) = true) :
    ∀ l, (∀ a ∈ g.head?, level a = l) → ∀ a ∈ g, level a = l := by
  induction g with
  | nil => simp
  | cons x g ih =>
    intro l hx a ha
    have hxl : level x = l := hx x rfl
    rcases mem_cons.1 ha with rfl | ha
    · exact hxl
    · refine ih h.tail l (fun y hy => ?_) a ha
      cases g with
      | nil => simp at hy
      | cons z g =>
        obtain rfl : z = y := by simpa using hy
        have hxz : level x = level z := by simpa using (isChain_cons_cons.1 h).1
        rw [← hxz, hxl]

lemma ascending_of_sorted : ∀ {gs : List (List α)} {lo : ℕ}, [] ∉ gs →
    (∀ g ∈ gs, g.IsChain fun a b => (level a == level b) = true) →
    (gs.IsChain fun a b => ∃ ha hb, (level (a.getLast ha) == level (b.head hb)) = false) →
    (gs.flatten.Pairwise fun a b => level a ≤ level b) → (∀ a ∈ gs.flatten, lo ≤ level a) → Ascending level lo gs := by
  intro gs
  induction gs with
  | nil => exact fun _ _ _ _ _ => .nil _
  | cons g gs ih =>
    intro _ hne hruns hcuts hsorted hlo
    obtain ⟨a, g', rfl⟩ : ∃ a g', g = a :: g' :=
      exists_cons_of_ne_nil fun h => hne (h ▸ mem_cons_self)
    have hall := all_eq_of_isChain (hruns _ mem_cons_self) (level a) (by simp)
    obtain ⟨-, hsorted', hacross⟩ := pairwise_append.1 hsorted
    refine .cons (hlo a (by simp)) hall (ih (fun h => hne (mem_cons_of_mem _ h))
      (fun g hg => hruns g (mem_cons_of_mem _ hg)) hcuts.tail hsorted' fun c hc => ?_)
    -- the next run starts at another level, hence at a higher one, and everything behind it is as high
    cases gs with
    | nil => simp at hc
    | cons g2 gs =>
      obtain ⟨hl, hh, hcut⟩ := (isChain_cons_cons.1 hcuts).1
      have hlast : level ((a :: g').getLast hl) = level a := hall _ (getLast_mem hl)
      have hmem : g2.head hh ∈ (g2 :: gs).flatten := by simp
      have h1 : level a ≤ level (g2.head hh) := hacross a (by simp) _ hmem
      have h2 : level a ≠ level (g2.head hh) := by
        rw [hlast] at hcut
        simpa using hcut
      have h3 : level (g2.head hh) ≤ level c := by
        obtain ⟨b, g2', rfl⟩ := exists_cons_of_ne_nil hh
        rcases mem_cons.1 (show c ∈ b :: (g2' ++ gs.flatten) from hc) with rfl | hc
        · exact le_refl _
        · exact (pairwise_cons.1 (show (b :: (g2' ++ gs.flatten)).Pairwise _ from hsorted')).1 c hc
      omega

lemma ascending_splitBy {xs : List α} (h : xs.Pairwise fun a b => level a ≤ level b) :
    Ascending level 0 (xs.splitBy fun a b => level a == level b) := by
  refine ascending_of_sorted (nil_notMem_splitBy _ _) (fun g hg => isChain_of_mem_splitBy hg)
    (isChain_getLast_head_splitBy (fun a b => level a == level b) xs) ?_ (fun _ _ => Nat.zero_le _)
  rw [flatten_splitBy]
  exact h

end Auron.Lib
