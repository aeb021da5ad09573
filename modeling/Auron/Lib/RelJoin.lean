import Mathlib.Data.List.Perm.Basic
import Mathlib.Data.List.ProdSigma

/-!
# Relational joins of lists

The rows of a join of two lists of records, for any decidable match of a record of the one with a record of the other:

* `outerJoin lo ro` pairs every left record with every right record that matches it, and extends the records of an outer
  side that have no partner by `none`;
* `tagJoin` keeps the left records in order, each at most once, with what a function makes of the question whether it
  has a partner: semi, anti and existence joins.

Both are computed piece by piece if no record of one piece matches a record of another (`outerJoin_append`,
`tagJoin_append`).  This is the rule an algorithm that works on runs of records is verified with.
-/

namespace Auron.Lib

open List
open Function (comp_def)

variable {α β τ : Type*}

section Partners

variable (m : α → β → Bool)

def hasPartner (bs : List β) (a : α) : Bool := bs.any (m a)

def innerJoin (as : List α) (bs : List β) : List (Option α × Option β) :=
  as.flatMap fun a => (bs.filter (m a)).map fun b => (some a, some b)

/-- The left records without a partner, extended by `none`. -/
def unmatchedLeft (as : List α) (bs : List β) : List (Option α × Option β) :=
  (as.filter fun a => !hasPartner m bs a).map fun a => (some a, none)

/-- The right records without a partner, extended by `none`. -/
def unmatchedRight (as : List α) (bs : List β) : List (Option α × Option β) :=
  (bs.filter fun b => !hasPartner (fun b a => m a b) as b).map fun b => (none, some b)

end Partners

/-- The rows of a join: inner, or outer on one side or both. -/
def outerJoin (lo ro : Bool) (m : α → β → Bool) (as : List α) (bs : List β) : List (Option α × Option β) :=
  innerJoin m as bs ++ (if lo then unmatchedLeft m as bs else []) ++ if ro then unmatchedRight m as bs else []

/-- The left records, each with what `f` makes of having a partner. -/
def tagJoin (m : α → β → Bool) (f : Bool → Option τ) (as : List α) (bs : List β) : List (α × τ) :=
  as.filterMap fun a => (f (hasPartner m bs a)).map fun t => (a, t)

variable {m : α → β → Bool} {as as1 as2 : List α} {bs bs1 bs2 : List β}

/-! ### No partners -/

def Apart (m : α → β → Bool) (as : List α) (bs : List β) : Prop := ∀ a ∈ as, ∀ b ∈ bs, m a b = false

variable {a : α}

lemma Apart.hasPartner_eq (h : Apart m as bs) (ha : a ∈ as) : hasPartner m bs a = false := by
  simpa [hasPartner] using h a ha

lemma Apart.filter_eq (h : Apart m as bs) (ha : a ∈ as) : bs.filter (m a) = [] := by
  rw [filter_eq_nil_iff]
  intro b hb
  simp [h a ha b hb]

lemma Apart.swap (h : Apart m as bs) : Apart (fun b a => m a b) bs as := fun b hb a ha => h a ha b hb

@[simp] lemma hasPartner_nil (a : α) : hasPartner m [] a = false := rfl

@[simp] lemma hasPartner_append (a : α) :
    hasPartner m (bs1 ++ bs2) a = (hasPartner m bs1 a || hasPartner m bs2 a) := any_append

/-! ### Pieces -/

section Apart

variable (h12 : Apart m as1 bs2)

include h12

variable (h21 : Apart m as2 bs1)

include h21

lemma innerJoin_append : innerJoin m (as1 ++ as2) (bs1 ++ bs2) = innerJoin m as1 bs1 ++ innerJoin m as2 bs2 := by
  unfold innerJoin
  rw [flatMap_append]
  congr 1
  · refine flatMap_congr fun a ha => ?_
    rw [filter_append, h12.filter_eq ha, append_nil]
  · refine flatMap_congr fun a ha => ?_
    rw [filter_append, h21.filter_eq ha, nil_append]

lemma unmatchedLeft_append :
    unmatchedLeft m (as1 ++ as2) (bs1 ++ bs2) = unmatchedLeft m as1 bs1 ++ unmatchedLeft m as2 bs2 := by
  unfold unmatchedLeft
  rw [filter_append, map_append]
  congr 2
  · refine filter_congr fun a ha => ?_
    rw [hasPartner_append, h12.hasPartner_eq ha, Bool.or_false]
  · refine filter_congr fun a ha => ?_
    rw [hasPartner_append, h21.hasPartner_eq ha, Bool.false_or]

lemma unmatchedRight_append :
    unmatchedRight m (as1 ++ as2) (bs1 ++ bs2) = unmatchedRight m as1 bs1 ++ unmatchedRight m as2 bs2 := by
  unfold unmatchedRight
  rw [filter_append, map_append]
  congr 2
  · refine filter_congr fun b hb => ?_
    rw [hasPartner_append, h21.swap.hasPartner_eq hb, Bool.or_false]
  · refine filter_congr fun b hb => ?_
    rw [hasPartner_append, h12.swap.hasPartner_eq hb, Bool.false_or]

end Apart

/-- **Pieces that do not match across are joined one by one.** -/
theorem outerJoin_append (lo ro : Bool) (h12 : Apart m as1 bs2) (h21 : Apart m as2 bs1) :
    (outerJoin lo ro m (as1 ++ as2) (bs1 ++ bs2)).Perm (outerJoin lo ro m as1 bs1 ++ outerJoin lo ro m as2 bs2) := by
  classical
  unfold outerJoin
  rw [innerJoin_append h12 h21, unmatchedLeft_append h12 h21, unmatchedRight_append h12 h21]
  cases lo <;> cases ro <;> simp only [if_true, Bool.false_eq_true, if_false, append_nil]
  · exact .refl _
  all_goals
    rw [perm_iff_count]
    intro x
    simp only [count_append]
    omega

/-- **Pieces that do not match across are joined one by one**, also in order. -/
theorem tagJoin_append (f : Bool → Option τ) (h12 : Apart m as1 bs2) (h21 : Apart m as2 bs1) :
    tagJoin m f (as1 ++ as2) (bs1 ++ bs2) = tagJoin m f as1 bs1 ++ tagJoin m f as2 bs2 := by
  unfold tagJoin
  rw [filterMap_append]
  congr 1
  · refine filterMap_congr fun a ha => ?_
    rw [hasPartner_append, h12.hasPartner_eq ha, Bool.or_false]
  · refine filterMap_congr fun a ha => ?_
    rw [hasPartner_append, h21.hasPartner_eq ha, Bool.false_or]

/-! ### Pieces of one kind -/

def Together (m : α → β → Bool) (as : List α) (bs : List β) : Prop := ∀ a ∈ as, ∀ b ∈ bs, m a b = true

lemma Together.hasPartner_eq (h : Together m as bs) (hne : bs ≠ []) (ha : a ∈ as) : hasPartner m bs a = true := by
  obtain ⟨b, _, rfl⟩ := exists_cons_of_ne_nil hne
  simp [hasPartner, h a ha b mem_cons_self]

lemma Together.swap (h : Together m as bs) : Together (fun b a => m a b) bs as := fun b hb a ha => h a ha b hb

def allPairs (as : List α) (bs : List β) : List (Option α × Option β) :=
  as.flatMap fun a => bs.map fun b => (some a, some b)

lemma outerJoin_together (lo ro : Bool) (h : Together m as bs) (hl : as ≠ []) (hr : bs ≠ []) :
    outerJoin lo ro m as bs = allPairs as bs := by
  have hinner : innerJoin m as bs = allPairs as bs := by
    refine flatMap_congr fun a ha => ?_
    rw [filter_eq_self.2 (h a ha)]
  have hleft : unmatchedLeft m as bs = [] := by
    unfold unmatchedLeft
    rw [map_eq_nil_iff, filter_eq_nil_iff]
    intro a ha
    simp [h.hasPartner_eq hr ha]
  have hright : unmatchedRight m as bs = [] := by
    unfold unmatchedRight
    rw [map_eq_nil_iff, filter_eq_nil_iff]
    intro b hb
    simp [h.swap.hasPartner_eq hl hb]
  unfold outerJoin
  rw [hinner, hleft, hright]
  simp

lemma outerJoin_nil_right (lo ro : Bool) (m : α → β → Bool) (as : List α) :
    outerJoin lo ro m as [] = if lo then as.map fun a => (some a, none) else [] := by
  simp [outerJoin, innerJoin, unmatchedLeft, unmatchedRight]

lemma outerJoin_nil_left (lo ro : Bool) (m : α → β → Bool) (bs : List β) :
    outerJoin lo ro m [] bs = if ro then bs.map fun b => (none, some b) else [] := by
  simp [outerJoin, innerJoin, unmatchedLeft, unmatchedRight]

lemma tagJoin_together (f : Bool → Option τ) (h : Together m as bs) (hr : bs ≠ []) :
    tagJoin m f as bs = as.filterMap fun a => (f true).map fun t => (a, t) := by
  refine filterMap_congr fun a ha => ?_
  rw [h.hasPartner_eq hr ha]

lemma tagJoin_nil_right (m : α → β → Bool) (f : Bool → Option τ) (as : List α) :
    tagJoin m f as [] = as.filterMap fun a => (f false).map fun t => (a, t) := rfl

/-! ### All pairs -/

lemma allPairs_append_left (as as' : List α) (bs : List β) :
    allPairs (as ++ as') bs = allPairs as bs ++ allPairs as' bs := flatMap_append

@[simp] lemma allPairs_nil_right (as : List α) : allPairs as ([] : List β) = [] := by simp [allPairs]

lemma allPairs_append_right (as : List α) (bs bs' : List β) :
    (allPairs as (bs ++ bs')).Perm (allPairs as bs ++ allPairs as bs') := by
  induction as with
  | nil => exact .refl _
  | cons a as ih =>
    simp only [allPairs, flatMap_cons, map_append] at ih ⊢
    rw [append_assoc, append_assoc]
    refine Perm.append_left _ ((Perm.append_left _ ih).trans ?_)
    rw [← append_assoc, ← append_assoc]
    exact perm_append_comm.append_right _

lemma allPairs_singleton_right (as : List α) (b : β) : allPairs as [b] = as.map fun a => (some a, some b) := by
  induction as with
  | nil => rfl
  | cons a as ih => simpa [allPairs] using ih

/-! ### One side after the other -/

lemma flatMap_singleton_if {γ δ : Type*} (q : γ → Bool) (f : γ → δ) (xs : List γ) :
    (xs.flatMap fun x => if q x then [f x] else []) = (xs.filter q).map f := by
  induction xs with
  | nil => rfl
  | cons x xs ih =>
    rw [flatMap_cons, ih]
    by_cases hx : q x = true <;> simp [hx]

def leftJoinOf (lo : Bool) (m : α → β → Bool) (bs : List β) (a : α) : List (Option α × Option β) :=
  ((bs.filter (m a)).map fun b => (some a, some b)) ++ if lo && !hasPartner m bs a then [(some a, none)] else []

/-- **Joining record by record** of the left side gives the join up to the right records without a partner. -/
theorem flatMap_leftJoinOf (lo : Bool) (m : α → β → Bool) (as : List α) (bs : List β) :
    (as.flatMap (leftJoinOf lo m bs)).Perm (innerJoin m as bs ++ if lo then unmatchedLeft m as bs else []) := by
  have hsplit := flatMap_append_perm as (fun a => (bs.filter (m a)).map fun b => (some a, some b))
    (fun a => if lo && !hasPartner m bs a then [(some a, (none : Option β))] else [])
  refine hsplit.symm.trans ?_
  rw [flatMap_singleton_if]
  cases lo with
  | true => simp [innerJoin, unmatchedLeft]
  | false => simp [innerJoin]

lemma innerJoin_swap (m : α → β → Bool) (as : List α) (bs : List β) :
    (innerJoin m as bs).Perm ((innerJoin (fun b a => m a b) bs as).map Prod.swap) := by
  induction as with
  | nil => simp [innerJoin]
  | cons a as ih =>
    have hhead : ((bs.filter (m a)).map fun b => (some a, some b)) =
        bs.flatMap fun b => if m a b then [(some a, some b)] else [] := (flatMap_singleton_if _ _ _).symm
    have hrest : (innerJoin (fun b a => m a b) bs as).map Prod.swap =
        bs.flatMap fun b => (as.filter fun a => m a b).map fun a => (some a, some b) := by
      simp [innerJoin, map_flatMap, comp_def]
    have hall : (innerJoin (fun b a => m a b) bs (a :: as)).map Prod.swap =
        bs.flatMap fun b => (if m a b then [(some a, some b)] else []) ++
          (as.filter fun a => m a b).map fun a => (some a, some b) := by
      simp only [innerJoin, map_flatMap]
      refine flatMap_congr fun b _ => ?_
      by_cases hab : m a b = true <;> simp [hab]
    rw [hall, innerJoin, flatMap_cons, hhead]
    refine (Perm.append_left _ (ih.trans (.of_eq hrest))).trans ?_
    exact flatMap_append_perm bs _ _

/-- **A join seen from the other side.** -/
theorem outerJoin_swap (lo ro : Bool) (m : α → β → Bool) (as : List α) (bs : List β) :
    (outerJoin lo ro m as bs).Perm ((outerJoin ro lo (fun b a => m a b) bs as).map Prod.swap) := by
  have hl : (unmatchedRight (fun b a => m a b) bs as).map Prod.swap = unmatchedLeft m as bs := by
    simp [unmatchedLeft, unmatchedRight]
  have hr : (unmatchedLeft (fun b a => m a b) bs as).map Prod.swap = unmatchedRight m as bs := by
    simp [unmatchedLeft, unmatchedRight]
  unfold outerJoin
  rw [map_append, map_append, append_assoc, append_assoc]
  refine (innerJoin_swap m as bs).append ?_
  cases lo <;> cases ro <;> simp [hl, hr, perm_append_comm]

/-! ### Records in another order -/

lemma hasPartner_perm {bs bs' : List β} (h : bs.Perm bs') (a : α) : hasPartner m bs a = hasPartner m bs' a := by
  rw [Bool.eq_iff_iff]
  simp only [hasPartner, any_eq_true, h.mem_iff]

/-- **A join does not depend on the order of the records.** -/
theorem outerJoin_perm (lo ro : Bool) (m : α → β → Bool) {as as' : List α} {bs bs' : List β} (ha : as.Perm as')
    (hb : bs.Perm bs') : (outerJoin lo ro m as bs).Perm (outerJoin lo ro m as' bs') := by
  have hinner : (innerJoin m as bs).Perm (innerJoin m as' bs') := by
    refine Perm.trans ?_ (ha.flatMap_right _)
    exact Perm.flatMap_left as fun a _ => (hb.filter _).map _
  have hleft : (unmatchedLeft m as bs).Perm (unmatchedLeft m as' bs') := by
    unfold unmatchedLeft
    simp only [hasPartner_perm hb]
    exact (ha.filter _).map _
  have hright : (unmatchedRight m as bs).Perm (unmatchedRight m as' bs') := by
    unfold unmatchedRight
    simp only [hasPartner_perm ha]
    exact (hb.filter _).map _
  refine (hinner.append ?_).append ?_
  · cases lo
    · exact .nil
    · exact hleft
  · cases ro
    · exact .nil
    · exact hright

/-! ### Records under a map, and a condition on the pairs -/

section Map

variable {α' β' : Type*} (f : α' → α) (g : β' → β)

lemma outerJoin_map (lo ro : Bool) (m : α → β → Bool) (as : List α') (bs : List β') :
    outerJoin lo ro m (as.map f) (bs.map g) =
      (outerJoin lo ro (fun a b => m (f a) (g b)) as bs).map (Prod.map (Option.map f) (Option.map g)) := by
  have hinner : innerJoin m (as.map f) (bs.map g) =
      (innerJoin (fun a b => m (f a) (g b)) as bs).map (Prod.map (Option.map f) (Option.map g)) := by
    simp [innerJoin, map_flatMap, flatMap_map, filter_map, comp_def]
  have hleft : unmatchedLeft m (as.map f) (bs.map g) =
      (unmatchedLeft (fun a b => m (f a) (g b)) as bs).map (Prod.map (Option.map f) (Option.map g)) := by
    simp [unmatchedLeft, filter_map, comp_def, hasPartner]
  have hright : unmatchedRight m (as.map f) (bs.map g) =
      (unmatchedRight (fun a b => m (f a) (g b)) as bs).map (Prod.map (Option.map f) (Option.map g)) := by
    simp [unmatchedRight, filter_map, comp_def, hasPartner]
  unfold outerJoin
  rw [hinner, hleft, hright]
  cases lo <;> cases ro <;> simp

lemma tagJoin_map (m : α → β → Bool) (t : Bool → Option τ) (as : List α') (bs : List β') :
    tagJoin m t (as.map f) (bs.map g) = (tagJoin (fun a b => m (f a) (g b)) t as bs).map (Prod.map f id) := by
  simp [tagJoin, map_filterMap, comp_def, hasPartner]

end Map

lemma filterMap_innerJoin {γ : Type*} (m q : α → β → Bool) (out : Option α × Option β → γ)
    (e : Option α × Option β → Option γ)
    (he : ∀ a b, e (some a, some b) = if q a b then some (out (some a, some b)) else none) (as : List α) (bs : List β) :
    (innerJoin m as bs).filterMap e = (innerJoin (fun a b => m a b && q a b) as bs).map out := by
  unfold innerJoin
  rw [filterMap_flatMap, map_flatMap]
  refine flatMap_congr fun a _ => ?_
  induction bs with
  | nil => rfl
  | cons b bs ih => by_cases hm : m a b = true <;> by_cases hq : q a b = true <;> simp_all

end Auron.Lib
