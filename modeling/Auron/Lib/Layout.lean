import Mathlib.Data.List.Basic
import Mathlib.Data.List.Range
import Mathlib.Data.List.Flatten

/-!
# Parts laid out one after the other

`upTo parts n` is the first `n` of a family of lists, one after the other.  The place of a part is where the parts before
it end (`take_drop_upTo`), and a list that is sorted by a bounded key is its own parts, key after key
(`eq_upTo_of_pairwise`).
-/

namespace Auron.Lib

open List

variable {α β : Type*}

section UpTo

variable (parts : ℕ → List α)

def upTo (n : ℕ) : List α := (range n).flatMap parts

@[simp] lemma upTo_zero : upTo parts 0 = [] := rfl

lemma upTo_succ (n : ℕ) : upTo parts (n + 1) = upTo parts n ++ parts n := by
  simp [upTo, range_succ]

lemma length_upTo_succ (n : ℕ) : (upTo parts (n + 1)).length = (upTo parts n).length + (parts n).length := by
  rw [upTo_succ, length_append]

lemma flatMap_upTo (f : α → List β) (n : ℕ) : (upTo parts n).flatMap f = upTo (fun p => (parts p).flatMap f) n := by
  induction n with
  | zero => rfl
  | succ n ih => rw [upTo_succ, upTo_succ, flatMap_append, ih]

lemma map_upTo (f : α → β) (n : ℕ) : (upTo parts n).map f = upTo (fun p => (parts p).map f) n := by
  induction n with
  | zero => rfl
  | succ n ih => rw [upTo_succ, upTo_succ, map_append, ih]

end UpTo

variable {m n : ℕ}

lemma upTo_of_empty {parts : ℕ → List α} (hmn : m ≤ n) (h : ∀ p, m ≤ p → p < n → parts p = []) :
    upTo parts n = upTo parts m := by
  induction n, hmn using Nat.le_induction with
  | base => rfl
  | succ n hmn ih =>
    rw [upTo_succ, h n hmn (Nat.lt_succ_self n), append_nil, ih fun p hp hpn => h p hp (Nat.lt_succ_of_lt hpn)]

section Prefixes

variable (parts : ℕ → List α)

lemma upTo_eq_append (hmn : m ≤ n) : ∃ rest, upTo parts n = upTo parts m ++ rest := by
  induction n, hmn using Nat.le_induction with
  | base => exact ⟨[], (append_nil _).symm⟩
  | succ n _ ih =>
    obtain ⟨rest, hrest⟩ := ih
    exact ⟨rest ++ parts n, by rw [upTo_succ, hrest, append_assoc]⟩

lemma length_upTo_mono (hmn : m ≤ n) : (upTo parts m).length ≤ (upTo parts n).length := by
  obtain ⟨_, hrest⟩ := upTo_eq_append parts hmn
  rw [hrest, length_append]
  exact Nat.le_add_right _ _

/-- **A part lies between the ends of the parts before it and up to it.** -/
theorem take_drop_upTo {p : ℕ} (hp : p < n) :
    ((upTo parts n).drop (upTo parts p).length).take ((upTo parts (p + 1)).length - (upTo parts p).length) = parts p := by
  obtain ⟨_, hrest⟩ := upTo_eq_append parts (Nat.succ_le_of_lt hp)
  rw [hrest, upTo_succ, append_assoc, drop_left, length_append, Nat.add_sub_cancel_left, take_left]

end Prefixes

/-! ### Sorted lists -/

variable {key : α → ℕ} {l : List α}

variable (h : l.Pairwise fun x y => key x ≤ key y)

include h

lemma filter_lt_succ_of_pairwise (n : ℕ) :
    l.filter (fun x => key x < n + 1) = l.filter (fun x => key x < n) ++ l.filter fun x => key x = n := by
  induction l with
  | nil => rfl
  | cons x l ih =>
    obtain ⟨hx, hl⟩ := pairwise_cons.1 h
    rw [filter_cons, filter_cons, filter_cons, ih hl]
    rcases lt_trichotomy (key x) n with hlt | heq | hgt
    · rw [if_pos (decide_eq_true (Nat.lt_succ_of_lt hlt)), if_pos (decide_eq_true hlt),
        if_neg (by simp [ne_of_lt hlt]), cons_append]
    · -- nothing behind has a smaller key
      have hnone : l.filter (fun x => key x < n) = [] := filter_eq_nil_iff.2 fun y hy => by
        have := hx y hy
        simp only [decide_eq_true_eq]
        omega
      rw [if_pos (decide_eq_true (heq ▸ Nat.lt_succ_self _)), if_neg (by simp [heq]), if_pos (decide_eq_true heq), hnone]
      rfl
    · rw [if_neg (by simp; omega), if_neg (by simp; omega), if_neg (by simp; omega)]

lemma filter_lt_eq_upTo (n : ℕ) : l.filter (fun x => key x < n) = upTo (fun p => l.filter fun x => key x = p) n := by
  induction n with
  | zero => simp
  | succ n ih => rw [filter_lt_succ_of_pairwise h, upTo_succ, ih]

/-- **A sorted list is laid out by its keys.** -/
theorem eq_upTo_of_pairwise (hkeys : ∀ x ∈ l, key x < n) : l = upTo (fun p => l.filter fun x => key x = p) n := by
  rw [← filter_lt_eq_upTo h]
  exact (filter_eq_self.2 fun x hx => by simpa using hkeys x hx).symm

end Auron.Lib
