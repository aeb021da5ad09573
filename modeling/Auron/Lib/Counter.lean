import Mathlib.Algebra.BigOperators.Group.List.Basic
import Mathlib.Tactic.Linarith

/-!
# Counters of an unsigned machine integer

A counter that is added to and subtracted from.  `wrapped` remembers that some subtraction went below zero: from then on
the machine integer is the value modulo its range.  `Exact` says that none did and that the value is a given number.

A counter that stands for the sizes of the elements of a list goes with the list: `Tracks` says that it is exact, `Off` that
it is off by some amount.
-/

namespace Auron.Lib

open List

structure Counter where
  value : ℤ
  wrapped : Bool
  deriving DecidableEq, Repr

namespace Counter

def zero : Counter := ⟨0, false⟩

/-- `+= n`. -/
def add (c : Counter) (n : ℕ) : Counter := ⟨c.value + n, c.wrapped⟩

/-- `-= n`. -/
def sub (c : Counter) (n : ℕ) : Counter := ⟨c.value - n, c.wrapped || decide (c.value < n)⟩

/-- `+= new - old`. -/
def addDiff (c : Counter) (new old : ℕ) : Counter := ⟨c.value + (new - old), c.wrapped || decide (new < old)⟩

/-- The counter has a value, and never went below zero. -/
structure Exact (c : Counter) (n : ℕ) : Prop where
  value : c.value = n
  wrapped : c.wrapped = false

lemma Exact.zero : Exact .zero 0 := ⟨rfl, rfl⟩

variable {c : Counter} {n : ℕ}

lemma Exact.add (h : c.Exact n) (m : ℕ) : (c.add m).Exact (n + m) := by
  refine ⟨?_, h.wrapped⟩
  rw [Counter.add, h.value]
  rfl

lemma Exact.sub {m : ℕ} (h : c.Exact (n + m)) : (c.sub m).Exact n := by
  have hval := h.value
  refine ⟨?_, ?_⟩
  · show c.value - m = n
    rw [hval]
    push_cast
    linarith
  · show (c.wrapped || decide (c.value < m)) = false
    rw [h.wrapped, hval, Bool.false_or, decide_eq_false_iff_not]
    push_cast
    linarith

lemma Exact.addDiff {old new : ℕ} (h : c.Exact (n + old)) (hle : old ≤ new) :
    (c.addDiff new old).Exact (n + new) := by
  refine ⟨?_, ?_⟩
  · show c.value + ((new : ℤ) - old) = _
    rw [h.value]
    push_cast
    linarith
  · show (c.wrapped || decide (new < old)) = false
    rw [h.wrapped, Bool.false_or, decide_eq_false_iff_not]
    exact Nat.not_lt.2 hle

/-! ### Sizes of the elements of a list -/

section Sizes

variable {α : Type} (size : α → ℕ)

def total (items : List α) : ℕ := (items.map size).sum

def Tracks (c : Counter) (items : List α) : Prop := c.Exact (total size items)

/-- The counter is the sizes of the elements, up to some amount. -/
def Off (c : Counter) (items : List α) (d : ℤ) : Prop := c.value = total size items + d

variable {size}

lemma total_cons (a : α) (items : List α) : total size (a :: items) = size a + total size items := rfl

lemma total_append (xs ys : List α) : total size (xs ++ ys) = total size xs + total size ys := by
  rw [total, map_append, sum_append]
  rfl

lemma total_replicate (n : ℕ) (a : α) : total size (replicate n a) = n * size a := by
  rw [total, map_replicate, sum_replicate, nsmul_eq_mul, Nat.cast_id]

lemma total_eq_zero (hsize : ∀ a, size a = 0) (items : List α) : total size items = 0 := by
  induction items with
  | nil => rfl
  | cons a items ih => rw [total_cons, hsize, ih]

lemma total_set (size : α → ℕ) {items : List α} {i : ℕ} {a : α} (hi : items[i]? = some a) (b : α) :
    ∃ n, total size items = n + size a ∧ total size (items.set i b) = n + size b := by
  obtain ⟨hlt, rfl⟩ := List.getElem?_eq_some_iff.1 hi
  refine ⟨total size (items.take i) + total size (items.drop (i + 1)), ?_, ?_⟩
  · nth_rewrite 1 [← take_append_drop i items]
    rw [total_append, drop_eq_getElem_cons hlt, total_cons]
    omega
  · rw [set_eq_take_append_cons_drop, if_pos hlt, total_append, total_cons]
    omega

variable {c : Counter} {items : List α} {i : ℕ} {a b : α}

section Tracks

variable (h : c.Tracks size items)

include h

section Replace

variable (hi : items[i]? = some a)

include hi

lemma Tracks.set (b : α) : ((c.sub (size a)).add (size b)).Tracks size (items.set i b) := by
  obtain ⟨n, hold, hnew⟩ := total_set size hi b
  unfold Tracks at h ⊢
  rw [hold] at h
  rw [hnew]
  exact h.sub.add (size b)

lemma Tracks.set_zero (hb : size b = 0) : (c.sub (size a)).Tracks size (items.set i b) := by
  obtain ⟨n, hold, hnew⟩ := total_set size hi b
  unfold Tracks at h ⊢
  rw [hold] at h
  rw [hnew, hb]
  exact h.sub

lemma Tracks.set_addDiff (hle : size a ≤ size b) : (c.addDiff (size b) (size a)).Tracks size (items.set i b) := by
  obtain ⟨n, hold, hnew⟩ := total_set size hi b
  unfold Tracks at h ⊢
  rw [hold] at h
  rw [hnew]
  exact h.addDiff hle

end Replace

lemma Tracks.append_replicate (hb : size b = 0) (n : ℕ) : c.Tracks size (items ++ replicate n b) := by
  unfold Tracks
  rw [total_append, total_replicate, hb]
  exact h

end Tracks

lemma tracks_replicate (hb : size b = 0) (n : ℕ) : zero.Tracks size (replicate n b) := by
  unfold Tracks
  rw [total_replicate, hb]
  exact .zero

lemma Exact.foldl_sub {n : ℕ} (items : List α) {c : Counter} (h : c.Exact (n + total size items)) :
    (items.foldl (fun c a => c.sub (size a)) c).Exact n := by
  induction items generalizing c with
  | nil => exact h
  | cons a items ih =>
    refine ih (Exact.sub ?_)
    rwa [total_cons, add_comm (size a), ← add_assoc] at h

lemma Tracks.take (h : c.Tracks size items) (n : ℕ) :
    ((items.drop n).foldl (fun c a => c.sub (size a)) c).Tracks size (items.take n) := by
  refine Exact.foldl_sub (items.drop n) ?_
  rw [← total_append, take_append_drop]
  exact h

lemma tracks_foldl_add (items : List α) : (items.foldl (fun c a => c.add (size a)) zero).Tracks size items := by
  have hfrom : ∀ (xs : List α) (c : Counter) (n : ℕ), c.Exact n →
      (xs.foldl (fun c a => c.add (size a)) c).Exact (n + total size xs) := by
    intro xs
    induction xs with
    | nil => exact fun c n h => h
    | cons a xs ih =>
      intro c n h
      rw [total_cons, ← add_assoc]
      exact ih _ _ (h.add (size a))
  have h := hfrom items zero 0 .zero
  rwa [zero_add] at h

variable {d : ℤ}

section Off

variable (h : c.Off size items d)

include h

lemma Off.set_addDiff (hi : items[i]? = some a) (b : α) :
    (c.addDiff (size b) (size a)).Off size (items.set i b) d := by
  obtain ⟨n, _, _⟩ := total_set size hi b
  unfold Off at h ⊢
  rw [addDiff, h]
  push_cast
  linarith

lemma Off.set_sub (hi : items[i]? = some a) (b : α) : (c.sub (size a)).Off size (items.set i b) (d - size b) := by
  obtain ⟨n, _, _⟩ := total_set size hi b
  unfold Off at h ⊢
  rw [sub, h]
  push_cast
  linarith

lemma Off.add (n : ℕ) : (c.add n).Off size items (d + n) := by
  unfold Off at h ⊢
  rw [Counter.add, h, add_assoc]

lemma Off.append_replicate (n : ℕ) (b : α) : c.Off size (items ++ replicate n b) (d - n * size b) := by
  unfold Off at h ⊢
  rw [total_append, total_replicate]
  push_cast
  linarith

end Off

lemma value_foldl_sub (items : List α) (c : Counter) :
    (items.foldl (fun c a => c.sub (size a)) c).value = c.value - total size items := by
  induction items generalizing c with
  | nil => simp [total]
  | cons a items ih =>
    rw [foldl_cons, ih, Counter.sub, total_cons]
    push_cast
    linarith

lemma Off.take (h : c.Off size items d) (n : ℕ) :
    ((items.drop n).foldl (fun c a => c.sub (size a)) c).Off size (items.take n) d := by
  have hsplit : total size items = total size (items.take n) + total size (items.drop n) := by
    rw [← total_append, take_append_drop]
  unfold Off at h ⊢
  rw [value_foldl_sub, h, hsplit]
  push_cast
  linarith

lemma Off.tracks_iff (h : c.Off size items d) : c.Tracks size items ↔ d = 0 ∧ c.wrapped = false := by
  unfold Off at h
  constructor
  · intro hexact
    have hval := hexact.value
    exact ⟨by linarith, hexact.wrapped⟩
  · rintro ⟨rfl, hwrapped⟩
    exact ⟨by rw [h, add_zero], hwrapped⟩

end Sizes

end Counter

end Auron.Lib
