import Auron.Lib.Smallest
import Mathlib.Data.List.Flatten

/-!
# Popping the heads of several queues

`Pops qs ids out qs'` says that popping, one after another, the heads of the queues numbered `ids` from the family
`qs` yields the records `out` and leaves `qs'`.  Nothing is lost (`Pops.perm`), and the numbers alone decide the
outcome, so two families of the same shape pop in step (`Pops.map`).

`MergePops key` adds that each pop takes a record of minimal key.  The output of such a run is sorted and at most
everything it leaves behind, whatever the ties (`MergePops.sorted`, `MergePops.le_rest`): the specification of a k-way
merge that may resolve equal keys as it likes.
-/

namespace Auron.Lib

open List

variable {α β κ : Type*}

/-- What holds of all elements is kept by a change of one. -/
lemma forall_mem_set {p : α → Prop} {l : List α} (h : ∀ x ∈ l, p x) {v : α} (hv : p v) (i : ℕ) : ∀ x ∈ l.set i v, p x := by
  intro x hx
  rcases mem_or_eq_of_mem_set hx with hx | rfl
  · exact h x hx
  · exact hv

/-- Popping the queues numbered `ids`, in turn. -/
inductive Pops : List (List α) → List ℕ → List α → List (List α) → Prop
  | nil (qs : List (List α)) : Pops qs [] [] qs
  | cons {qs : List (List α)} {i : ℕ} {a : α} {t : List α} {ids : List ℕ} {out : List α} {qs' : List (List α)}
      (h : qs[i]? = some (a :: t)) (rest : Pops (qs.set i t) ids out qs') : Pops qs (i :: ids) (a :: out) qs'

lemma perm_flatten_set {qs : List (List α)} {i : ℕ} {a : α} {t : List α} (h : qs[i]? = some (a :: t)) :
    (a :: (qs.set i t).flatten).Perm qs.flatten := by
  induction qs generalizing i with
  | nil => simp at h
  | cons q qs ih =>
    cases i with
    | zero =>
      simp only [getElem?_cons_zero, Option.some.injEq] at h
      subst h
      simp
    | succ i =>
      exact perm_middle.symm.trans ((ih h).append_left q)

lemma set_eq_self {xs : List α} {i : ℕ} {a : α} (h : xs[i]? = some a) : xs.set i a = xs := by
  obtain ⟨hi, rfl⟩ := List.getElem?_eq_some_iff.1 h
  exact set_getElem_self hi

namespace Pops

variable {qs qs' : List (List α)} {ids : List ℕ} {out : List α}

lemma perm (h : Pops qs ids out qs') : (out ++ qs'.flatten).Perm qs.flatten := by
  induction h with
  | nil qs => simp
  | cons hi _ ih => exact (ih.cons _).trans (perm_flatten_set hi)

lemma length_le (h : Pops qs ids out qs') :
    ∀ (i : ℕ) (q q' : List α), qs[i]? = some q → qs'[i]? = some q' → q'.length ≤ q.length := by
  induction h with
  | nil qs =>
    intro i q q' hq hq'
    rw [hq] at hq'
    exact le_of_eq (congrArg length (Option.some.inj hq').symm)
  | @cons qs j a t ids out qs' hj _ ih =>
    intro i q q' hq hq'
    by_cases hij : j = i
    · subst hij
      have hlt := (List.getElem?_eq_some_iff.1 hj).1
      have := ih j t q' (by rw [getElem?_set_self hlt]) hq'
      rw [hj] at hq
      obtain rfl := Option.some.inj hq
      simp only [length_cons]
      omega
    · exact ih i q q' (by rw [getElem?_set_ne hij, hq]) hq'

end Pops

/-- Popping the queues numbered `ids`, in turn, each time a record of minimal key. -/
inductive MergePops [LE κ] (key : α → κ) : List (List α) → List ℕ → List α → List (List α) → Prop
  | nil (qs : List (List α)) : MergePops key qs [] [] qs
  | cons {qs : List (List α)} {i : ℕ} {a : α} {t : List α} {ids : List ℕ} {out : List α} {qs' : List (List α)}
      (h : qs[i]? = some (a :: t)) (hmin : ∀ b ∈ qs.flatten, key a ≤ key b)
      (rest : MergePops key (qs.set i t) ids out qs') : MergePops key qs (i :: ids) (a :: out) qs'

namespace MergePops

section LE

variable [LE κ] {key : α → κ} {qs qs' qs'' : List (List α)} {ids ids' : List ℕ} {out out' : List α}

variable (h : MergePops key qs ids out qs')

include h in
lemma pops : Pops qs ids out qs' := by
  induction h with
  | nil qs => exact .nil qs
  | cons hi _ _ ih => exact .cons hi ih

include h in
lemma append (h' : MergePops key qs' ids' out' qs'') : MergePops key qs (ids ++ ids') (out ++ out') qs'' := by
  induction h with
  | nil qs => exact h'
  | cons hi hmin _ ih => exact .cons hi hmin (ih h')

variable {a : α}

include h in
lemma mem_of_mem_out (ha : a ∈ out) : a ∈ qs.flatten :=
  h.pops.perm.subset (mem_append_left _ ha)

include h in
lemma mem_of_mem_rest (ha : a ∈ qs'.flatten) : a ∈ qs.flatten :=
  h.pops.perm.subset (mem_append_right _ ha)

lemma mem_of_mem_set {i : ℕ} {b : α} {t : List α} (h : qs[i]? = some (a :: t)) (hb : b ∈ (qs.set i t).flatten) :
    b ∈ qs.flatten :=
  (perm_flatten_set h).subset (mem_cons_of_mem _ hb)

include h in
/-- **The output of a merge is sorted.** -/
theorem sorted : out.Pairwise (fun a b => key a ≤ key b) := by
  induction h with
  | nil qs => exact .nil
  | cons hi hmin hrest ih =>
    exact pairwise_cons.2 ⟨fun b hb => hmin b (mem_of_mem_set hi (hrest.mem_of_mem_out hb)), ih⟩

include h in
/-- **What a merge has output is at most what it leaves.** -/
theorem le_rest : ∀ a ∈ out, ∀ b ∈ qs'.flatten, key a ≤ key b := by
  induction h with
  | nil qs => simp
  | cons hi hmin hrest ih =>
    intro a ha b hb
    rcases mem_cons.1 ha with rfl | ha
    · exact hmin b (mem_of_mem_set hi (hrest.mem_of_mem_rest hb))
    · exact ih a ha b hb

end LE

section LinearOrder

variable [LinearOrder κ] {key : α → κ} {qs qs' : List (List α)} {ids : List ℕ} {out : List α} {L : ℕ}

/-- **A merge that stops after `L` records has output the `L` smallest keys.** -/
theorem keys_eq_smallest (h : MergePops key qs ids out qs') (hlen : out.length = min L qs.flatten.length) :
    out.map key = smallest L (qs.flatten.map key) := by
  have hperm := h.pops.perm
  have hsorted : (out.map key).Pairwise (· ≤ ·) := pairwise_map.2 h.sorted
  have hsplit : ascending (qs.flatten.map key) = out.map key ++ ascending (qs'.flatten.map key) := by
    refine eq_of_perm_of_pairwise ?_ (ascending_pairwise _) ?_
    · refine (ascending_perm _).trans ((hperm.symm.map key).trans ?_)
      rw [map_append]
      exact (ascending_perm _).symm.append_left _
    · refine pairwise_append.2 ⟨hsorted, ascending_pairwise _, fun x hx y hy => ?_⟩
      obtain ⟨a, ha, rfl⟩ := mem_map.1 hx
      obtain ⟨b, hb, rfl⟩ := mem_map.1 ((ascending_perm _).subset hy)
      exact h.le_rest a ha b hb
  unfold smallest
  rw [hsplit]
  have htotal := hperm.length_eq
  rw [length_append] at htotal
  rcases le_total L qs.flatten.length with hL | hL
  · rw [min_eq_left hL] at hlen
    rw [take_left' (by simpa using hlen)]
  · rw [min_eq_right hL] at hlen
    have hnil : qs'.flatten = [] := eq_nil_of_length_eq_zero (by omega)
    rw [hnil]
    simp [ascending, take_of_length_le (show (out.map key).length ≤ L by simp; omega)]

/-- What such a merge outputs is all that matters to the `L` smallest keys. -/
lemma keeps (h : MergePops key qs ids out qs') (hlen : out.length = min L qs.flatten.length) :
    Keeps key L qs.flatten out := by
  refine ⟨?_, ?_⟩
  · exact (sublist_append_left out qs'.flatten).subperm.trans h.pops.perm.subperm
  · rw [← h.keys_eq_smallest hlen, smallest_of_pairwise L (pairwise_map.2 h.sorted),
      take_of_length_le (by simp; omega)]

end LinearOrder

end MergePops

end Auron.Lib
