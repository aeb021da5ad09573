import Auron.Lib.FirstOccurrence
import Auron.Lib.GroupScan

/-!
# Shares of a clustered list

`shares key xs` is the list cut into its keys: each key in the order of first occurrence, with its items in their order.
A clustered list that grows at its end either adds to its last share (`Clustered.shares_append_same`) or opens a new one
(`shares_append_new`); no other share ever changes.
-/

namespace Auron.Lib

open List

variable {α κ : Type}

namespace Clustered

variable {key : α → κ} {xs ys : List α}

lemma key_between {us zs ws : List α} {a b c : α} (h : Clustered key (us ++ a :: (zs ++ b :: ws))) (hab : key a = key b)
    (hc : c ∈ zs) : key c = key a := by
  have hbehind : [c, b] <+ zs ++ b :: ws := (singleton_sublist.2 hc).append ((nil_sublist ws).cons_cons b)
  exact (h.key_eq ((hbehind.cons_cons a).trans (sublist_append_right us _)) hab).trans hab.symm

lemma left (h : Clustered key (xs ++ ys)) : Clustered key xs := h.sublist (sublist_append_left xs ys)

lemma right (h : Clustered key (xs ++ ys)) : Clustered key ys := h.sublist (sublist_append_right xs ys)

lemma notMem_of_ne {l a : α} (h : Clustered key (xs ++ l :: a :: ys)) (hne : key a ≠ key l) :
    key a ∉ (xs ++ [l]).map key := by
  intro hmem
  obtain ⟨b, hb, hba⟩ := mem_map.1 hmem
  have hnext : Clustered key (xs ++ [l] ++ a :: ys) := by simpa using h
  obtain ⟨z, hz, hkey⟩ := hnext.key_getLast hb hba
  obtain rfl : l = z := by simpa using hz
  exact hne hkey.symm

lemma take_of_getElem? {a b : α} {i : ℕ} (h : Clustered key (a :: xs)) (hi : (a :: xs)[i]? = some b)
    (hab : key a = key b) : ∀ c ∈ (a :: xs).take (i + 1), key c = key a := by
  intro c hc
  cases i with
  | zero =>
    obtain rfl : c = a := by simpa using hc
    rfl
  | succ i =>
    rw [getElem?_cons_succ] at hi
    obtain ⟨hlt, rfl⟩ := List.getElem?_eq_some_iff.1 hi
    have hsplit : a :: xs = [] ++ a :: (xs.take i ++ xs[i] :: xs.drop (i + 1)) := by simp
    rw [hsplit] at h
    rw [take_succ_cons, take_succ_eq_append_getElem hlt] at hc
    rcases mem_cons.1 hc with rfl | hc
    · rfl
    · rcases mem_append.1 hc with hc | hc
      · exact h.key_between hab hc
      · rw [mem_singleton.1 hc, hab]

end Clustered

/-! ### Shares -/

variable [DecidableEq κ]

/-- Each key in the order of first occurrence, with its items. -/
def shares (key : α → κ) (xs : List α) : List (κ × List α) :=
  (firsts (xs.map key)).map fun k => (k, xs.filter fun x => key x = k)

lemma insertAll_of_forall_mem {acc xs : List κ} (h : ∀ x ∈ xs, x ∈ acc) : insertAll acc xs = acc := by
  induction xs with
  | nil => rfl
  | cons x xs ih =>
    rw [insertAll, foldl_cons, insertNew_of_mem (h x mem_cons_self)]
    exact ih fun y hy => h y (mem_cons_of_mem _ hy)

lemma filter_eq_self_of_forall {key : α → κ} {ys : List α} {k : κ} (h : ∀ y ∈ ys, key y = k) :
    (ys.filter fun x => key x = k) = ys :=
  filter_eq_self.2 fun y hy => by simpa using h y hy

lemma filter_eq_nil_of_ne {key : α → κ} {ys : List α} {k k' : κ} (h : ∀ y ∈ ys, key y = k) (hne : k ≠ k') :
    (ys.filter fun x => key x = k') = [] :=
  filter_eq_nil_iff.2 fun y hy => by simpa [h y hy] using hne

/-- **Items of a new key** open a share. -/
theorem shares_append_new {key : α → κ} {xs ys : List α} {k : κ} (hk : k ∉ xs.map key) (hne : ys ≠ [])
    (hys : ∀ y ∈ ys, key y = k) : shares key (xs ++ ys) = shares key xs ++ [(k, ys)] := by
  have hfirsts : firsts ((xs ++ ys).map key) = firsts (xs.map key) ++ [k] := by
    obtain ⟨y, _, rfl⟩ := exists_cons_of_ne_nil hne
    rw [map_append, firsts_append, map_cons, insertAll, foldl_cons, hys y mem_cons_self,
      insertNew_of_notMem (mt mem_firsts.1 hk)]
    refine insertAll_of_forall_mem fun x hx => ?_
    obtain ⟨z, hz, rfl⟩ := mem_map.1 hx
    simp [hys z (mem_cons_of_mem _ hz)]
  have hnone : (xs.filter fun x => key x = k) = [] :=
    filter_eq_nil_iff.2 fun x hx => by simpa using fun heq => hk (mem_map.2 ⟨x, hx, heq⟩)
  rw [shares, hfirsts, map_append, map_singleton, filter_append, hnone, filter_eq_self_of_forall hys]
  congr 1
  refine map_congr_left fun k' hk' => ?_
  have hkk' : k ≠ k' := fun heq => hk (heq ▸ mem_firsts.1 hk')
  rw [filter_append, filter_eq_nil_of_ne hys hkk', append_nil]

lemma Clustered.firsts_eq {key : α → κ} {xs : List α} {l : α} (h : Clustered key (xs ++ [l])) :
    ∃ pre, firsts ((xs ++ [l]).map key) = pre ++ [key l] := by
  have hstep : firsts ((xs ++ [l]).map key) = insertNew (firsts (xs.map key)) (key l) := by
    rw [map_append, firsts_append]
    rfl
  rw [hstep]
  by_cases hmem : key l ∈ firsts (xs.map key)
  · rw [insertNew_of_mem hmem]
    rcases eq_nil_or_concat xs with rfl | ⟨xs, l', rfl⟩
    · cases hmem
    · have hkey : key l = key l' := by
        by_contra hne
        rw [concat_eq_append] at h hmem
        have hnext : Clustered key (xs ++ l' :: l :: []) := by simpa using h
        exact hnext.notMem_of_ne hne (mem_firsts.1 hmem)
      rw [concat_eq_append] at h ⊢
      rw [hkey]
      exact Clustered.firsts_eq h.left
  · exact ⟨_, insertNew_of_notMem hmem⟩
termination_by xs.length

/-- **Items of the last key** are added to the last share. -/
theorem Clustered.shares_append_same {key : α → κ} {xs ys : List α} {l : α} (h : Clustered key (xs ++ [l]))
    (hys : ∀ y ∈ ys, key y = key l) :
    ∃ pre g, shares key (xs ++ [l]) = pre ++ [(key l, g)] ∧ shares key (xs ++ [l] ++ ys) = pre ++ [(key l, g ++ ys)] := by
  obtain ⟨pre, hpre⟩ := h.firsts_eq
  have hsame : firsts ((xs ++ [l] ++ ys).map key) = firsts ((xs ++ [l]).map key) := by
    rw [map_append, firsts_append]
    refine insertAll_of_forall_mem fun k hk => ?_
    obtain ⟨y, hy, rfl⟩ := mem_map.1 hk
    rw [hpre, hys y hy]
    simp
  refine ⟨pre.map fun k => (k, (xs ++ [l]).filter fun x => key x = k), (xs ++ [l]).filter fun x => key x = key l, ?_, ?_⟩
  · rw [shares, hpre, map_append, map_singleton]
  · rw [shares, hsame, hpre, map_append, map_singleton]
    congr 1
    · refine map_congr_left fun k hk => ?_
      have hne : key l ≠ k := by
        have hnodup := nodup_firsts ((xs ++ [l]).map key)
        rw [hpre] at hnodup
        exact fun heq => (nodup_append.1 hnodup).2.2 k hk (key l) (by simp) heq.symm
      rw [filter_append (xs ++ [l]) ys, filter_eq_nil_of_ne hys hne, append_nil]
    · rw [filter_append (xs ++ [l]) ys, filter_eq_self_of_forall hys]

end Auron.Lib
