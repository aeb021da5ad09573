import Mathlib.Data.List.Induction
import Mathlib.Data.List.NodupEquivFin
import Auron.Lib.Masks

/-!
# Scans within groups

The elements of a list fall into groups by a key.  `scan` gives every element a value that depends on the elements of its
group before it.  A machine that is started anew whenever the key changes computes such a scan, if the list is clustered:
the elements of a group stand together (`steps_grouped`).

An element can be dropped by a test on the elements of its group before it.  If the test, once passed, was passed by all of
these, the scan of what is left is what is left of the scan (`scan_passing`).
-/

namespace Auron.Lib

open List

variable {α β κ σ τ : Type}

/-! ### Machines -/

/-- The outputs of a step function, and the state behind them. -/
def steps (step : τ → α → τ × β) : τ → List α → τ × List β
  | s, [] => (s, [])
  | s, x :: xs => ((steps step (step s x).1 xs).1, (step s x).2 :: (steps step (step s x).1 xs).2)

lemma steps_append (step : τ → α → τ × β) (s : τ) (xs ys : List α) :
    steps step s (xs ++ ys) =
      ((steps step (steps step s xs).1 ys).1, (steps step s xs).2 ++ (steps step (steps step s xs).1 ys).2) := by
  induction xs generalizing s with
  | nil => rfl
  | cons x xs ih => simp only [cons_append, steps, ih]

lemma length_steps (step : τ → α → τ × β) (s : τ) (xs : List α) : (steps step s xs).2.length = xs.length := by
  induction xs generalizing s with
  | nil => rfl
  | cons x xs ih => exact congrArg Nat.succ (ih _)

/-- Two step functions that keep their states related give the same outputs. -/
lemma steps_sim {step : τ → α → τ × β} {step' : σ → α → σ × β} {R : τ → σ → Prop}
    (h : ∀ s s' x, R s s' → (step s x).2 = (step' s' x).2 ∧ R (step s x).1 (step' s' x).1) (xs : List α) {s : τ} {s' : σ}
    (hs : R s s') : (steps step s xs).2 = (steps step' s' xs).2 := by
  induction xs generalizing s s' with
  | nil => rfl
  | cons x xs ih =>
    obtain ⟨hvalue, hstates⟩ := h s s' x hs
    rw [steps, steps, hvalue, ih hstates]

structure Machine (α β σ : Type) where
  start : σ
  step : σ → α → σ × β

def Machine.state (m : Machine α β σ) (xs : List α) : σ := (steps m.step m.start xs).1

def Machine.value (m : Machine α β σ) (before : List α) (x : α) : β := (m.step (m.state before) x).2

lemma Machine.state_concat (m : Machine α β σ) (xs : List α) (x : α) :
    m.state (xs ++ [x]) = (m.step (m.state xs) x).1 := by
  rw [Machine.state, steps_append]
  rfl

/-! ### Groups -/

def Clustered (key : α → κ) (xs : List α) : Prop :=
  ∀ i j k : Fin xs.length, i < j → j < k → key (xs.get i) = key (xs.get k) → key (xs.get j) = key (xs.get k)

lemma Clustered.sublist {key : α → κ} {xs ys : List α} (h : Clustered key ys) (hsub : xs <+ ys) : Clustered key xs := by
  obtain ⟨f, hf⟩ := sublist_iff_exists_fin_orderEmbedding_get_eq.1 hsub
  intro i j k hij hjk hik
  rw [hf, hf] at hik ⊢
  exact h (f i) (f j) (f k) (f.lt_iff_lt.2 hij) (f.lt_iff_lt.2 hjk) hik

lemma Clustered.key_eq {key : α → κ} {xs : List α} {a b c : α} (h : Clustered key xs) (hsub : [a, c, b] <+ xs)
    (hab : key a = key b) : key c = key b :=
  h.sublist hsub 0 1 2 (show (0 : Fin 3) < 1 by decide) (show (1 : Fin 3) < 2 by decide) hab

lemma Clustered.key_getLast {key : α → κ} {done rest : List α} {x y : α} (h : Clustered key (done ++ x :: rest))
    (hy : y ∈ done)
    (hkey : key y = key x) : ∃ z, done.getLast? = some z ∧ key z = key x := by
  obtain ⟨done, z, rfl⟩ := (eq_nil_or_concat' done).resolve_left (ne_nil_of_mem hy)
  refine ⟨z, getLast?_concat, ?_⟩
  rcases mem_append.1 hy with hy | hy
  · exact h.key_eq (((singleton_sublist.2 hy).append (Sublist.refl [z])).append ((nil_sublist rest).cons_cons x)) hkey
  · rw [← mem_singleton.1 hy, hkey]

section Groups

variable [DecidableEq κ] (key : α → κ)

/-- The elements with the key of `x`. -/
def groupOf (done : List α) (x : α) : List α := done.filter fun y => key y = key x

def scan (val : List α → α → β) : List α → List α → List β
  | _, [] => []
  | done, x :: rest => val (groupOf key done x) x :: scan val (done ++ [x]) rest

instance (xs : List α) : Decidable (Clustered key xs) := by
  unfold Clustered
  infer_instance

variable {key}

lemma groupOf_concat (done : List α) (x y : α) :
    groupOf key (done ++ [y]) x = groupOf key done x ++ if key y = key x then [y] else [] := by
  by_cases h : key y = key x <;> simp [h, groupOf]

variable {x : α}

lemma groupOf_congr (done : List α) {y : α} (h : key x = key y) : groupOf key done x = groupOf key done y := by
  rw [groupOf, groupOf, h]

variable {done : List α}

lemma scan_eq_scan_iff {val val' : List α → α → β} {rest : List α} :
    scan key val done rest = scan key val' done rest ↔
      ∀ xs x ys, rest = xs ++ x :: ys → val (groupOf key (done ++ xs) x) x = val' (groupOf key (done ++ xs) x) x := by
  induction rest generalizing done with
  | nil => exact ⟨fun _ xs x ys h => by simp at h, fun _ => rfl⟩
  | cons x rest ih =>
    rw [scan, scan, cons.injEq, ih]
    constructor
    · rintro ⟨_, htail⟩ xs y ys hrest
      cases xs with
      | nil =>
        obtain ⟨rfl, rfl⟩ := cons.inj hrest
        rwa [append_nil]
      | cons z xs =>
        obtain ⟨rfl, hrest'⟩ := cons.inj hrest
        have h := htail xs y ys hrest'
        rwa [append_assoc] at h
    · intro h
      refine ⟨by simpa using h [] x rest rfl, fun xs y ys hrest => ?_⟩
      rw [append_assoc]
      exact h ([x] ++ xs) y ys (by rw [hrest]; rfl)

lemma scan_append (val : List α → α → β) (done xs ys : List α) :
    scan key val done (xs ++ ys) = scan key val done xs ++ scan key val (done ++ xs) ys := by
  induction xs generalizing done with
  | nil => simp [scan]
  | cons x xs ih => simp [scan, ih]

lemma length_scan (val : List α → α → β) (done xs : List α) : (scan key val done xs).length = xs.length := by
  induction xs generalizing done with
  | nil => rfl
  | cons x xs ih => exact congrArg Nat.succ (ih _)

lemma scan_map {γ : Type} (f : β → γ) (val : List α → α → β) (done xs : List α) :
    (scan key val done xs).map f = scan key (fun before x => f (val before x)) done xs := by
  induction xs generalizing done with
  | nil => rfl
  | cons x xs ih => rw [scan, scan, map_cons, ih]

/-! ### A machine for every group -/

def groupedStep (key : α → κ) (m : Machine α β σ) (s : κ × σ) (x : α) : (κ × σ) × β :=
  let r := m.step (if key x = s.1 then s.2 else m.start) x
  ((key x, r.1), r.2)

/-- What the state of the grouped machine says about the elements it has read. -/
def GroupState (key : α → κ) (m : Machine α β σ) (done : List α) (s : κ × σ) : Prop :=
  (∀ x, key x = s.1 → s.2 = m.state (groupOf key done x)) ∧ (done = [] ∨ ∃ y, done.getLast? = some y ∧ key y = s.1)

lemma groupState_step {m : Machine α β σ} {rest : List α} {s : κ × σ}
    (hclustered : Clustered key (done ++ x :: rest)) (h : GroupState key m done s) :
    (if key x = s.1 then s.2 else m.start) = m.state (groupOf key done x) ∧
      GroupState key m (done ++ [x]) (groupedStep key m s x).1 := by
  have hstate : (if key x = s.1 then s.2 else m.start) = m.state (groupOf key done x) := by
    split
    · next hsame => exact h.1 x hsame
    · next hnew =>
      -- the first of its group
      have hnone : groupOf key done x = [] := by
        refine filter_eq_nil_iff.2 fun y hy hkey => ?_
        obtain ⟨z, hz, hzx⟩ := hclustered.key_getLast hy (by simpa using hkey)
        rcases h.2 with rfl | ⟨z', hz', hcur⟩
        · cases hz
        · rw [hz] at hz'
          cases hz'
          exact hnew (hzx.symm.trans hcur)
      rw [hnone]
      rfl
  refine ⟨hstate, fun y hy => ?_, .inr ⟨x, by simp, rfl⟩⟩
  have hyx : key y = key x := hy
  rw [groupOf_concat, if_pos hyx.symm, Machine.state_concat, groupOf_congr done hyx, ← hstate]
  rfl

/-- **The grouped machine computes the scan of its values.** -/
theorem steps_grouped (m : Machine α β σ) (cur : κ) {xs : List α} (hclustered : Clustered key xs) :
    (steps (groupedStep key m) (cur, m.start) xs).2 = scan key m.value [] xs := by
  suffices h : ∀ rest done s, done ++ rest = xs → GroupState key m done s →
      (steps (groupedStep key m) s rest).2 = scan key m.value done rest from
    h xs [] (cur, m.start) rfl ⟨fun _ _ => rfl, .inl rfl⟩
  intro rest
  induction rest with
  | nil =>
    intros
    rfl
  | cons x rest ih =>
    rintro done s rfl hs
    obtain ⟨hstate, hs'⟩ := groupState_step hclustered hs
    rw [steps, ih (done ++ [x]) _ (by simp) hs']
    rw [groupedStep, hstate]
    rfl

/-! ### Dropping elements -/

variable (key)

def passing (ok : List α → α → Bool) (xs : List α) : List α := keep (scan key ok [] xs) xs

variable {key} {ok : List α → α → Bool}

lemma passing_concat (done : List α) (x : α) :
    passing key ok (done ++ [x]) = passing key ok done ++ if ok (groupOf key done x) x then [x] else [] := by
  rw [passing, scan_append, keep_append (length_scan ok [] done)]
  rw [nil_append, scan]
  cases ok (groupOf key done x) x <;> rfl

lemma groupOf_passing (h : ∀ before y after, groupOf key done x = before ++ y :: after → ok before y = true) :
    groupOf key (passing key ok done) x = groupOf key done x := by
  induction done using reverseRecOn with
  | nil => rfl
  | append_singleton done y ih =>
    rw [groupOf_concat] at h
    rw [passing_concat, groupOf_concat]
    by_cases hkey : key y = key x
    · rw [if_pos hkey] at h ⊢
      have hok : ok (groupOf key done y) y = true := by
        rw [groupOf_congr done hkey]
        exact h _ y [] rfl
      rw [if_pos hok, groupOf_concat, if_pos hkey, ih]
      rintro before z after heq
      exact h before z (after ++ [y]) (by rw [heq]; simp)
    · rw [if_neg hkey, append_nil] at h ⊢
      rw [← ih h]
      split
      · rw [groupOf_concat, if_neg hkey, append_nil]
      · rw [append_nil]

/-- **The scan of what passes**, for a test that is passed by all elements of a group before one that passes it. -/
theorem scan_passing (val : List α → α → β) {xs : List α}
    (hok : ∀ done x rest, xs = done ++ x :: rest → ok (groupOf key done x) x = true →
      ∀ before y after, groupOf key done x = before ++ y :: after → ok before y = true) :
    scan key val [] (passing key ok xs) = keep (scan key ok [] xs) (scan key val [] xs) := by
  suffices h : ∀ rest done, done ++ rest = xs →
      scan key val (passing key ok done) (keep (scan key ok done rest) rest) =
        keep (scan key ok done rest) (scan key val done rest) from h xs [] rfl
  intro rest
  induction rest with
  | nil =>
    intros
    rfl
  | cons x rest ih =>
    rintro done rfl
    have hrest := ih (done ++ [x]) (by simp)
    rw [passing_concat] at hrest
    rw [scan, scan]
    cases hx : ok (groupOf key done x) x with
    | false =>
      rw [hx, if_neg (by decide), append_nil] at hrest
      exact hrest
    | true =>
      rw [hx, if_pos rfl] at hrest
      rw [keep, keep, scan, hrest, groupOf_passing (hok done x rest rfl hx)]

end Groups

lemma filter_eq_keep_iff (p : α → Bool) {mask : List Bool} {xs : List α} (hlen : mask.length = xs.length) :
    xs.filter p = keep mask xs ↔ mask = xs.map p := by
  refine ⟨fun h => ?_, fun h => by rw [h, keep_map_self]⟩
  induction xs generalizing mask with
  | nil => exact length_eq_zero_iff.1 hlen
  | cons x xs ih =>
    cases mask with
    | nil => cases hlen
    | cons b mask =>
      rw [filter_cons] at h
      cases hp : p x <;> cases b <;> simp only [hp, keep, if_true, if_false, Bool.false_eq_true] at h
      · rw [ih (Nat.succ.inj hlen) h, map_cons, hp]
      · have hmem : x ∈ xs.filter p := h ▸ mem_cons_self
        rw [(mem_filter.1 hmem).2] at hp
        cases hp
      · -- the mask drops `x`, and would have to keep as many of the others
        have hall : (keep mask xs).filter p = keep mask xs := by
          rw [← h, filter_cons, hp]
          simp
        have hsub := (sublist_keep mask xs).filter p
        rw [hall, ← h] at hsub
        have := hsub.length_le
        exact absurd this (by simp)
      · rw [ih (Nat.succ.inj hlen) (cons.inj h).2, map_cons, hp]

end Auron.Lib
