import Mathlib.Data.List.Basic

/-!
# Selecting by a mask

`keep mask xs` are the elements of `xs` where the mask is set, and `spread z mask ys` puts the elements of `ys` one after
the other at the places where the mask is set, and `z` at the others.  Spreading what was kept gives the list back at the
places of the mask (`spread_keep`); a smaller mask can then be applied to it as to the list itself (`keep_blank`).
-/

namespace Auron.Lib

open List

variable {α β : Type}

def keep : List Bool → List α → List α
  | true :: mask, x :: xs => x :: keep mask xs
  | false :: mask, _ :: xs => keep mask xs
  | [], _ => []
  | _ :: _, [] => []

/-- The elements at the places where the mask is set, `z` at the others; `none` if there are too few. -/
def spread (z : α) : List Bool → List α → Option (List α)
  | [], _ => some []
  | true :: mask, x :: xs => (spread z mask xs).map (x :: ·)
  | true :: _, [] => none
  | false :: mask, xs => (spread z mask xs).map (z :: ·)

/-- The list with `z` where the mask is not set. -/
def blank (z : α) : List Bool → List α → List α := zipWith fun b x => if b then x else z

lemma keep_map (f : α → β) (mask : List Bool) (xs : List α) : keep mask (xs.map f) = (keep mask xs).map f := by
  induction mask generalizing xs with
  | nil => rfl
  | cons b mask ih =>
    cases xs with
    | nil => cases b <;> rfl
    | cons x xs => cases b <;> simp [keep, ih]

variable {mask : List Bool} {xs : List α}

lemma keep_eq_self (hlen : mask.length = xs.length) (hall : ∀ b ∈ mask, b = true) : keep mask xs = xs := by
  induction mask generalizing xs with
  | nil => simp [keep, length_eq_zero_iff.1 hlen.symm]
  | cons b mask ih =>
    obtain ⟨rfl, hrest⟩ := forall_mem_cons.1 hall
    cases xs with
    | nil => cases hlen
    | cons x xs => rw [keep, ih (Nat.succ.inj hlen) hrest]

lemma blank_eq_self (z : α) (hlen : mask.length = xs.length) (hall : ∀ b ∈ mask, b = true) :
    blank z mask xs = xs := by
  induction mask generalizing xs with
  | nil => simp [blank, length_eq_zero_iff.1 hlen.symm]
  | cons b mask ih =>
    obtain ⟨rfl, hrest⟩ := forall_mem_cons.1 hall
    cases xs with
    | nil => cases hlen
    | cons x xs => simpa [blank] using ih (Nat.succ.inj hlen) hrest

lemma sublist_keep (mask : List Bool) (xs : List α) : (keep mask xs).Sublist xs := by
  induction mask generalizing xs with
  | nil => exact nil_sublist xs
  | cons b mask ih =>
    cases xs with
    | nil => cases b <;> exact Sublist.refl []
    | cons x xs =>
      cases b with
      | true => exact (ih xs).cons_cons x
      | false => exact (ih xs).cons x

lemma all_of_length_keep (hlen : mask.length = xs.length) (hkeep : (keep mask xs).length = xs.length) :
    ∀ b ∈ mask, b = true := by
  induction mask generalizing xs with
  | nil => simp
  | cons b mask ih =>
    cases xs with
    | nil => cases hlen
    | cons x xs =>
      cases b with
      | true =>
        have h := ih (Nat.succ.inj hlen) (Nat.succ.inj hkeep)
        simpa using h
      | false =>
        have := (sublist_keep mask xs).length_le
        simp only [keep, length_cons] at hkeep
        omega

/-- **Spreading what was kept.** -/
theorem spread_keep (z : α) (hlen : mask.length = xs.length) :
    spread z mask (keep mask xs) = some (blank z mask xs) := by
  induction mask generalizing xs with
  | nil => simp [spread, blank]
  | cons b mask ih =>
    cases xs with
    | nil => cases hlen
    | cons x xs =>
      have h := ih (Nat.succ.inj hlen)
      cases b <;> simp [keep, spread, h, blank]

lemma keep_blank (z : α) {inner outer : List Bool} (hinner : inner.length = xs.length)
    (hsub : Forall₂ (fun a b => a = true → b = true) inner outer) :
    keep inner (blank z outer xs) = keep inner xs := by
  induction hsub generalizing xs with
  | nil => rfl
  | @cons a b inner outer hab _ ih =>
    cases xs with
    | nil => cases hinner
    | cons x xs =>
      have h := ih (Nat.succ.inj hinner)
      cases a with
      | false => simpa [keep, blank] using h
      | true =>
        rw [hab rfl]
        simpa [keep, blank] using h

lemma keep_zipWith {γ : Type} (f : α → β → γ) (mask : List Bool) (xs : List α) (ys : List β) :
    keep mask (zipWith f xs ys) = zipWith f (keep mask xs) (keep mask ys) := by
  induction mask generalizing xs ys with
  | nil => rfl
  | cons b mask ih =>
    cases xs with
    | nil => cases b <;> simp [keep]
    | cons x xs =>
      cases ys with
      | nil => cases b <;> simp [keep]
      | cons y ys => cases b <;> simp [keep, ih]

lemma keep_append {mask' : List Bool} {ys : List α} (h : mask.length = xs.length) :
    keep (mask ++ mask') (xs ++ ys) = keep mask xs ++ keep mask' ys := by
  induction mask generalizing xs with
  | nil =>
    obtain rfl := length_eq_zero_iff.1 h.symm
    rfl
  | cons b mask ih =>
    cases xs with
    | nil => cases h
    | cons x xs => cases b <;> simp [keep, ih (Nat.succ.inj h)]

lemma keep_map_self (p : α → Bool) (xs : List α) : keep (xs.map p) xs = xs.filter p := by
  induction xs with
  | nil => rfl
  | cons x xs ih =>
    rw [map_cons, filter_cons]
    cases p x <;> simp [keep, ih]

lemma blank_map (z : β) (p : α → Bool) (f : α → β) (xs : List α) :
    blank z (xs.map p) (xs.map f) = xs.map fun x => if p x then f x else z := by
  rw [blank, zipWith_map, zipWith_self]

lemma mem_keep {r : ℕ} {x : α} (hmask : mask[r]? = some true) (hx : xs[r]? = some x) : x ∈ keep mask xs := by
  induction mask generalizing xs r with
  | nil => simp at hmask
  | cons b mask ih =>
    cases xs with
    | nil => simp at hx
    | cons y xs =>
      cases r with
      | zero =>
        obtain rfl : b = true := by simpa using hmask
        obtain rfl : y = x := by simpa using hx
        exact mem_cons_self
      | succ r =>
        have h := ih (by simpa using hmask) (by simpa using hx)
        cases b with
        | true => exact mem_cons_of_mem _ h
        | false => exact h

lemma getElem?_blank (z : α) {r : ℕ} (hmask : mask[r]? = some true) (xs : List α) :
    (blank z mask xs)[r]? = xs[r]? := by
  rw [blank, getElem?_zipWith, hmask]
  cases xs[r]? <;> simp

lemma length_blank (z : α) (hlen : mask.length = xs.length) : (blank z mask xs).length = xs.length := by
  rw [blank, length_zipWith, hlen, Nat.min_self]

end Auron.Lib
