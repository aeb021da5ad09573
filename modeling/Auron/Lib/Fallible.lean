import Mathlib.Data.List.Forall2

/-!
# Loops that may fail

`mapM` and `foldlM` over lists in `Option`: what it means that they succeed, one element at a time.
-/

namespace Auron.Lib

open List

variable {α β : Type}

variable {f : α → Option β} {l : List α}

lemma mapM_cons_eq_some {a : α} {bs : List β} :
    (a :: l).mapM f = some bs ↔ ∃ b bs', f a = some b ∧ l.mapM f = some bs' ∧ bs = b :: bs' := by
  rw [mapM_cons]
  cases f a <;> cases l.mapM f <;> simp [eq_comm]

lemma foldlM_cons_eq_some {f : β → α → Option β} {x z : β} {a : α} :
    (a :: l).foldlM f x = some z ↔ ∃ y, f x a = some y ∧ l.foldlM f y = some z := by
  exact Option.bind_eq_some_iff

variable {xs : List α} {ys : List β}

lemma mapM_eq_some_iff_forall₂ : xs.mapM f = some ys ↔ Forall₂ (fun x y => f x = some y) xs ys := by
  induction xs generalizing ys with
  | nil => simp
  | cons x xs ih =>
    rw [mapM_cons_eq_some, forall₂_cons_left_iff]
    simp only [ih]

lemma mapM_eq_some_iff : xs.mapM f = some ys ↔ xs.map f = ys.map some := by
  rw [mapM_eq_some_iff_forall₂, ← forall₂_eq_eq_eq, forall₂_map_left_iff, forall₂_map_right_iff]

lemma exists_mapM (h : ∀ x ∈ xs, ∃ y, f x = some y) : ∃ ys, xs.mapM f = some ys := by
  induction xs with
  | nil => exact ⟨[], rfl⟩
  | cons x xs ih =>
    obtain ⟨⟨y, hy⟩, hrest⟩ := forall_mem_cons.1 h
    obtain ⟨ys, hys⟩ := ih hrest
    exact ⟨y :: ys, mapM_cons_eq_some.2 ⟨y, ys, hy, hys, rfl⟩⟩

lemma length_of_mapM (h : xs.mapM f = some ys) :
    ys.length = xs.length := (mapM_eq_some_iff_forall₂.1 h).length_eq.symm

variable {f : β → α → Option β}

lemma foldlM_keeps {P : β → Prop} (hstep : ∀ x a y, P x → f x a = some y → P y) {x z : β}
    (hx : P x) (h : l.foldlM f x = some z) : P z := by
  induction l generalizing x with
  | nil =>
    cases h
    exact hx
  | cons a l ih =>
    obtain ⟨y, hy, h⟩ := foldlM_cons_eq_some.1 h
    exact ih (hstep x a y hx hy) h

lemma foldlM_eq_some_foldl {g : β → α → β} (h : ∀ a ∈ l, ∀ x, f x a = some (g x a)) (x : β) :
    l.foldlM f x = some (l.foldl g x) := by
  induction l generalizing x with
  | nil => rfl
  | cons a l ih =>
    obtain ⟨ha, hrest⟩ := forall_mem_cons.1 h
    exact foldlM_cons_eq_some.2 ⟨g x a, ha x, ih hrest _⟩

end Auron.Lib
