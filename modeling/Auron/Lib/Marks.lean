import Auron.Lib.Gather

/-!
# Sets of positions as lists of bits

Marks are a bit for each position below a bound.  `marks n f` is the list of the bits `f` gives; marking positions one
after the other adds them to the set (`markAll_marks`), and the elements at the positions with a kept bit are gathered
(`collect_positions`).
-/

namespace Auron.Lib

open List

def marks (n : ℕ) (f : ℕ → Bool) : List Bool := (range n).map f

def markAll (bits : List Bool) (idxs : List ℕ) : List Bool := idxs.foldl (fun bits i => bits.set i true) bits

def positions (keep : Bool → Bool) (bits : List Bool) : List ℕ := (bits.zipIdx.filter fun x => keep x.1).map Prod.snd

variable {n : ℕ}

lemma getElem?_marks {i : ℕ} (f : ℕ → Bool) (hi : i < n) : (marks n f)[i]? = some (f i) := by
  simp [marks, hi]

variable {f : ℕ → Bool}

lemma marks_congr {g : ℕ → Bool} (h : ∀ i < n, f i = g i) : marks n f = marks n g :=
  map_congr_left fun i hi => h i (mem_range.1 hi)

lemma marks_false (n : ℕ) : marks n (fun _ => false) = replicate n false := by simp [marks]

lemma set_marks (n i : ℕ) (f : ℕ → Bool) : (marks n f).set i true = marks n fun j => f j || j == i := by
  apply ext_getElem?
  intro j
  by_cases hj : j < n
  · by_cases hij : i = j
    · subst hij
      simp [marks, hj]
    · rw [getElem?_set_ne hij, getElem?_marks _ hj, getElem?_marks _ hj]
      simp [Ne.symm hij]
  · simp [marks, hj]

/-- **Marking positions adds them to the set.** -/
theorem markAll_marks (n : ℕ) (f : ℕ → Bool) (idxs : List ℕ) :
    markAll (marks n f) idxs = marks n fun j => f j || idxs.contains j := by
  induction idxs generalizing f with
  | nil => simp [markAll]
  | cons i idxs ih =>
    show markAll ((marks n f).set i true) idxs = _
    rw [set_marks, ih]
    simp only [contains_cons, Bool.or_assoc]

lemma marks_eq_map {γ : Type*} {xs : List γ} {q : γ → Bool} (h : ∀ y ∈ xs.zipIdx, f y.2 = q y.1) :
    marks xs.length f = xs.map q := by
  have hrange : range xs.length = xs.zipIdx.map Prod.snd := by simp [range_eq_range']
  conv_rhs => rw [← zipIdx_map_fst 0 xs, map_map]
  unfold marks
  rw [hrange, map_map]
  exact map_congr_left h

/-- **The elements at the positions whose bit is kept.** -/
theorem collect_positions {γ δ : Type*} (keep : Bool → Bool) (g : γ → δ) (q : γ → Bool) (xs : List γ) :
    collect (fun i => xs[i]?.map g) (positions keep (xs.map q)) = some ((xs.filter fun x => keep (q x)).map g) := by
  have hfst : xs.filter (fun x => keep (q x)) = (xs.zipIdx.filter fun y => keep (q y.1)).map Prod.fst := by
    conv_lhs => rw [← zipIdx_map_fst 0 xs, filter_map]
    rfl
  unfold positions
  rw [zipIdx_map, filter_map, map_map, collect_eq_some_iff, hfst, map_map,
    forall₂_map_left_iff, forall₂_map_right_iff]
  show Forall₂ _ (xs.zipIdx.filter fun y => keep (q y.1)) _
  rw [forall₂_same]
  intro y hy
  show xs[y.2]?.map g = some (g y.1)
  rw [mk_mem_zipIdx_iff_getElem?.1 (mem_of_mem_filter hy)]
  rfl

lemma all_marks : (marks n f).all id = true ↔ ∀ i < n, f i = true := by
  simp [marks]

end Auron.Lib
