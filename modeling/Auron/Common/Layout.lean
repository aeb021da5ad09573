import Auron.Common.Offsetted
import Auron.Lib.Layout
import Mathlib.Algebra.Order.BigOperators.Group.List

/-!
# What the merged slices hold (`common/offsetted.rs`)

The offsets of an input *lay out* a family of parts if offset `p` is the length of the parts before part `p`
(`LaysOut`).  The slices of such an input are its parts that are not empty, and the slices of one partition, in whatever
order a merge yields them, hold that part of every input (`flatMap_slices_perm`).
-/

namespace Auron.Common

open Auron.Lib List

variable {w : ℕ} {T α β : Type}

/-- The offsets are the ends of the parts, which fit the offset type. -/
structure LaysOut (P : ℕ) (offsets : List (BitVec w)) (parts : ℕ → List α) : Prop where
  offsets_eq : offsets = (range (P + 1)).map fun p => BitVec.ofNat w (upTo parts p).length
  small : (upTo parts P).length < 2 ^ w

def Slice.of (x : Slice w) (data : List α) : List α := (data.drop x.start.toNat).take (x.stop.toNat - x.start.toNat)

namespace LaysOut

variable {P p : ℕ} {offsets : List (BitVec w)} {parts : ℕ → List α}

variable (h : LaysOut P offsets parts)

include h

lemma length_offsets : offsets.length = P + 1 := by
  rw [h.offsets_eq, length_map, length_range]

lemma toNat_offset (hp : p ≤ P) : (BitVec.ofNat w (upTo parts p).length).toNat = (upTo parts p).length := by
  rw [BitVec.toNat_ofNat, Nat.mod_eq_of_lt (lt_of_le_of_lt (length_upTo_mono parts hp) h.small)]

lemma getElem?_offsets (hp : p ≤ P) : offsets[p]? = some (BitVec.ofNat w (upTo parts p).length) := by
  rw [h.offsets_eq, getElem?_map, getElem?_range (Nat.lt_succ_of_le hp), Option.map_some]

lemma pairwise : offsets.Pairwise (· ≤ ·) := by
  rw [h.offsets_eq, pairwise_map]
  refine pairwise_lt_range.imp_of_mem fun {p q} _ hq hpq => ?_
  have hq' : q ≤ P := Nat.le_of_lt_succ (mem_range.1 hq)
  rw [BitVec.le_def, h.toNat_offset (hpq.le.trans hq'), h.toNat_offset hq']
  exact length_upTo_mono parts hpq.le

lemma slice_eq (hp : p < P) (i : ℕ) :
    slice i offsets p = if parts p = [] then none else
      some ⟨p, i, BitVec.ofNat w (upTo parts p).length, BitVec.ofNat w (upTo parts (p + 1)).length⟩ := by
  have hiff : BitVec.ofNat w (upTo parts p).length = BitVec.ofNat w (upTo parts (p + 1)).length ↔ parts p = [] := by
    rw [← BitVec.toNat_inj, h.toNat_offset hp.le, h.toNat_offset hp, length_upTo_succ, ← length_eq_zero_iff]
    omega
  rw [slice, h.getElem?_offsets hp.le, h.getElem?_offsets hp, Option.bind_some, Option.bind_some]
  by_cases hempty : parts p = []
  · rw [if_pos hempty, if_pos (hiff.2 hempty)]
  · rw [if_neg hempty, if_neg fun heq => hempty (hiff.1 heq)]

/-- **A slice holds its part.** -/
theorem slice_of (hp : p < P) {i : ℕ} {x : Slice w} (hx : slice i offsets p = some x) :
    x.of (upTo parts P) = parts p ∧ x.len = (parts p).length := by
  rw [h.slice_eq hp] at hx
  split at hx
  · cases hx
  · obtain rfl := Option.some.inj hx
    constructor
    · rw [Slice.of, h.toNat_offset hp.le, h.toNat_offset hp, take_drop_upTo parts hp]
    · rw [Slice.len, h.toNat_offset hp.le, h.toNat_offset hp, length_upTo_succ, Nat.add_sub_cancel_left]

end LaysOut

/-! ### The slices of one partition -/

variable {P : ℕ} {inputs : List (Offsetted w T)}

lemma slice_of_mem_slices {x : Slice w} (hx : x ∈ (slices P inputs).flatten) :
    x.partition < P ∧ ∃ o, inputs[x.input]? = some o ∧ slice x.input o.offsets x.partition = some x := by
  obtain ⟨hp, o, ho, hoffset, hne⟩ := mem_slices.1 hx
  refine ⟨hp, o, ho, slice_eq_some.2 ?_⟩
  obtain ⟨_, hstart, hstop⟩ := Option.bind_eq_some_iff.1 hoffset
  obtain ⟨_, hstop, heq⟩ := Option.map_eq_some_iff.1 hstop
  obtain ⟨rfl, rfl⟩ := Prod.mk.inj heq
  exact ⟨hstart, hstop, hne, rfl, rfl⟩

lemma length_slices_le (hlen : ∀ o ∈ inputs, o.offsets.length = P + 1) :
    (slices P inputs).flatten.length ≤ (inputs.map fun o => o.offsets.length).sum := by
  have hmap : inputs.map (fun o => o.offsets.length) = inputs.zipIdx.map fun oi => oi.1.offsets.length := by
    refine ext_getElem (by simp) fun i _ _ => ?_
    simp
  rw [slices, mapIdx_eq_zipIdx_map, length_flatten, map_map, hmap]
  refine sum_le_sum fun oi hoi => ?_
  rw [hlen oi.1 (fst_mem_of_mem_zipIdx hoi)]
  refine (length_filterMap_le _ _).trans ?_
  rw [length_range']
  omega

lemma filter_slicesFrom {p : ℕ} (hp : p < P) (i : ℕ) (offsets : List (BitVec w)) :
    (slicesFrom P i offsets 0).filter (fun x => x.partition = p) = (slice i offsets p).toList := by
  have hfilter : ∀ q, (slice i offsets q).toList.filter (fun x => decide (x.partition = p)) =
      if q = p then (slice i offsets p).toList else [] := by
    intro q
    cases hslice : slice i offsets q with
    | none =>
      by_cases hq : q = p
      · subst hq
        simp [hslice]
      · simp [hq]
    | some x =>
      have hx := (slice_eq_some.1 hslice).2.2.2.1
      by_cases hq : q = p
      · subst hq
        simp [hslice, hx]
      · simp [hq, hx]
  rw [slicesFrom, ← range_eq_range', filterMap_eq_flatMap_toList, filter_flatMap]
  simp only [hfilter]
  show upTo (fun q => if q = p then (slice i offsets p).toList else []) P = _
  rw [upTo_of_empty (Nat.succ_le_of_lt hp) fun q hq _ => if_neg (ne_of_gt hq), upTo_succ,
    upTo_of_empty (Nat.zero_le p) fun q _ hq => if_neg (ne_of_lt hq), if_pos rfl, upTo_zero, nil_append]

/-- **The slices of a partition**, in any order, hold that part of every input. -/
theorem flatMap_slices_perm {parts : ℕ → ℕ → List α} (h : ∀ i o, inputs[i]? = some o → LaysOut P o.offsets (parts i))
    {out : List (Slice w)} (hperm : out.Perm (slices P inputs).flatten) {p : ℕ} (hp : p < P)
    {content : Slice w → List β} {g : ℕ → List β}
    (hcontent : ∀ i o x, inputs[i]? = some o → slice i o.offsets p = some x → content x = g i)
    (hg : ∀ i o, inputs[i]? = some o → parts i p = [] → g i = []) :
    ((out.filter fun x => x.partition = p).flatMap content).Perm ((range inputs.length).flatMap g) := by
  refine ((hperm.filter _).flatMap_right content).trans (Perm.of_eq ?_)
  rw [filter_flatten, slices, mapIdx_eq_zipIdx_map, map_map, flatMap_def, map_flatten, flatten_flatten]
  congr 1
  refine ext_getElem (by simp) fun i hi _ => ?_
  have hi : i < inputs.length := by simpa using hi
  simp only [getElem_map, getElem_zipIdx, Function.comp_apply, zero_add, filter_slicesFrom hp]
  have hin : inputs[i]? = some inputs[i] := getElem?_eq_getElem hi
  cases hslice : slice i inputs[i].offsets p with
  | some x => simp [hcontent i _ x hin hslice]
  | none =>
    rw [(h i _ hin).slice_eq hp] at hslice
    split at hslice
    · rename_i hempty
      simp [hg i _ hin hempty]
    · cases hslice

section Merged

variable {out : List (Slice w)} (hsorted : out.Pairwise fun x y => x.partition ≤ y.partition) (content : Slice w → List β)

include hsorted

lemma flatMap_eq_upTo {P : ℕ} (hlt : ∀ x ∈ out, x.partition < P) :
    out.flatMap content = upTo (fun p => (out.filter fun x => x.partition = p).flatMap content) P := by
  rw [← flatMap_upTo, ← eq_upTo_of_pairwise hsorted hlt]

lemma lenBefore_eq_length (hlen : ∀ x ∈ out, (content x).length = x.len) (p : ℕ) :
    lenBefore out p = (upTo (fun p => (out.filter fun x => x.partition = p).flatMap content) p).length := by
  rw [← flatMap_upTo, ← filter_lt_eq_upTo hsorted, length_flatMap]
  exact congrArg sum (map_congr_left fun x hx => (hlen x (mem_of_mem_filter hx)).symm)

end Merged

end Auron.Common
