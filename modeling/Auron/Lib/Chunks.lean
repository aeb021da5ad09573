import Mathlib.Data.List.Perm.Basic
import Mathlib.Data.List.Pairwise
import Mathlib.Order.Lattice

/-!
# Chunks of equal keys

`chunkBy key` cuts a list where the key changes.  In a list sorted by the key, the chunk of a key is the sublist of all
elements with that key (`mem_chunkBy_eq_filter`), and the keys of the chunks ascend.
-/

namespace Auron.Lib

open List

variable {α K : Type*} [LinearOrder K] (key : α → K)

def chunkBy : List α → List (List α)
  | [] => []
  | a :: as =>
    match chunkBy as with
    | (b :: c) :: chunks => if key a = key b then (a :: b :: c) :: chunks else [a] :: (b :: c) :: chunks
    | chunks => [a] :: chunks

variable {key}

variable {as c : List α}

section Cons

variable (key) (a : α) (as : List α)

lemma exists_chunkBy_cons : ∃ c chunks, chunkBy key (a :: as) = (a :: c) :: chunks := by
  rw [chunkBy]
  split
  · split
    · exact ⟨_, _, rfl⟩
    · exact ⟨_, _, rfl⟩
  · exact ⟨_, _, rfl⟩

lemma chunkBy_cons :
    (as = [] ∧ chunkBy key (a :: as) = [[a]]) ∨
    (∃ b c chunks, chunkBy key as = (b :: c) :: chunks ∧ key a = key b ∧
      chunkBy key (a :: as) = (a :: b :: c) :: chunks) ∨
    (∃ b c chunks, chunkBy key as = (b :: c) :: chunks ∧ key a ≠ key b ∧
      chunkBy key (a :: as) = [a] :: (b :: c) :: chunks) := by
  cases as with
  | nil => exact .inl ⟨rfl, rfl⟩
  | cons b as =>
    obtain ⟨c, chunks, has⟩ := exists_chunkBy_cons key b as
    rw [chunkBy, has]
    by_cases hab : key a = key b
    · exact .inr (.inl ⟨b, c, chunks, rfl, hab, if_pos hab⟩)
    · exact .inr (.inr ⟨b, c, chunks, rfl, hab, if_neg hab⟩)

end Cons

variable (key) in
lemma flatten_chunkBy (as : List α) : (chunkBy key as).flatten = as := by
  induction as with
  | nil => rfl
  | cons a as ih =>
    rcases chunkBy_cons key a as with ⟨rfl, h⟩ | ⟨b, c, chunks, has, -, h⟩ | ⟨b, c, chunks, has, -, h⟩
    · simp [h]
    · rw [h, ← ih, has]
      rfl
    · rw [h, ← ih, has]
      rfl

lemma exists_of_mem_chunkBy (hc : c ∈ chunkBy key as) : ∃ x xs, c = x :: xs ∧ ∀ a ∈ c, key a = key x := by
  induction as generalizing c with
  | nil => cases hc
  | cons x as ih =>
    rcases chunkBy_cons key x as with ⟨-, h⟩ | ⟨y, d, chunks, has, hxy, h⟩ | ⟨y, d, chunks, has, -, h⟩
    · rw [h, mem_singleton] at hc
      exact ⟨x, [], hc, by simp [hc]⟩
    · rw [h] at hc
      rw [has] at ih
      rcases mem_cons.1 hc with rfl | hc
      · obtain ⟨_, _, ⟨⟩, hd⟩ := ih mem_cons_self
        exact ⟨x, y :: d, rfl, forall_mem_cons.2 ⟨rfl, fun a ha => (hd a ha).trans hxy.symm⟩⟩
      · exact ih (mem_cons_of_mem _ hc)
    · rw [h] at hc
      rw [has] at ih
      rcases mem_cons.1 hc with rfl | hc
      · exact ⟨x, [], rfl, by simp⟩
      · exact ih hc

lemma ne_nil_of_mem_chunkBy (hc : c ∈ chunkBy key as) : c ≠ [] := by
  obtain ⟨x, xs, rfl, -⟩ := exists_of_mem_chunkBy hc
  exact cons_ne_nil x xs

lemma key_eq_of_mem_chunkBy (hc : c ∈ chunkBy key as) : ∀ a ∈ c, ∀ b ∈ c, key a = key b := by
  obtain ⟨x, _, -, h⟩ := exists_of_mem_chunkBy hc
  exact fun a ha b hb => (h a ha).trans (h b hb).symm

lemma pairwise_chunkBy (hs : as.Pairwise fun a b => key a ≤ key b) :
    (chunkBy key as).Pairwise fun c c' => ∀ a ∈ c, ∀ b ∈ c', key a < key b := by
  induction as with
  | nil => exact .nil
  | cons x as ih =>
    have hx : ∀ a ∈ as, key x ≤ key a := (pairwise_cons.1 hs).1
    have hrec := ih (pairwise_cons.1 hs).2
    have hmem : ∀ c ∈ chunkBy key as, ∀ a ∈ c, a ∈ as := by
      intro c hc a ha
      rw [← flatten_chunkBy key as]
      exact mem_flatten.2 ⟨c, hc, ha⟩
    rcases chunkBy_cons key x as with ⟨rfl, h⟩ | ⟨y, d, chunks, has, hxy, h⟩ | ⟨y, d, chunks, has, hne, h⟩
    · rw [h]
      exact pairwise_singleton _ _
    · rw [has] at hrec
      rw [h, pairwise_cons]
      refine ⟨fun c hc a ha b hb => ?_, (pairwise_cons.1 hrec).2⟩
      have hbelow := (pairwise_cons.1 hrec).1 c hc
      rcases mem_cons.1 ha with rfl | ha
      · rw [hxy]
        exact hbelow y mem_cons_self b hb
      · exact hbelow a ha b hb
    · rw [has] at hrec hmem
      rw [h, pairwise_cons]
      refine ⟨fun c hc a ha b hb => ?_, hrec⟩
      obtain rfl := mem_singleton.1 ha
      have hay : key a < key y :=
        lt_of_le_of_ne (hx y (hmem _ mem_cons_self y mem_cons_self)) hne
      rcases mem_cons.1 hc with rfl | hc
      · have heq : key b = key y := by
          have hmem' : y :: d ∈ chunkBy key as := by
            rw [has]
            exact mem_cons_self
          exact key_eq_of_mem_chunkBy hmem' b hb y mem_cons_self
        rwa [heq]
      · exact lt_trans hay ((pairwise_cons.1 hrec).1 c hc y mem_cons_self b hb)

/-- **The chunk of a key** has all elements with that key. -/
theorem mem_chunkBy_eq_filter (hs : as.Pairwise fun a b => key a ≤ key b) (hc : c ∈ chunkBy key as) {k : K}
    (hk : ∀ a ∈ c, key a = k) : c = as.filter fun a => key a = k := by
  obtain ⟨pre, post, heq⟩ := append_of_mem hc
  have hpair := pairwise_chunkBy hs
  rw [heq, pairwise_append, pairwise_cons] at hpair
  obtain ⟨x, c', rfl⟩ := exists_cons_of_ne_nil (ne_nil_of_mem_chunkBy hc)
  have hx : key x = k := hk x mem_cons_self
  have hother : ∀ ds : List (List α), (∀ d ∈ ds, ∀ a ∈ d, key a ≠ key x) → ds.flatten.filter (key · = k) = [] := by
    intro ds hds
    rw [filter_eq_nil_iff]
    intro a ha
    obtain ⟨d, hd, had⟩ := mem_flatten.1 ha
    simpa [hx] using hds d hd a had
  have hpre := hother pre fun d hd a had => (hpair.2.2 d hd _ mem_cons_self a had x mem_cons_self).ne
  have hpost := hother post fun d hd a had => (hpair.2.1.1 d hd x mem_cons_self a had).ne'
  have hself : (x :: c').filter (fun a => key a = k) = x :: c' := by
    rw [filter_eq_self]
    intro a ha
    simpa using hk a ha
  rw [← flatten_chunkBy key as, heq, flatten_append, flatten_cons, filter_append,
    filter_append, hpre, hpost, hself, nil_append, append_nil]

end Auron.Lib
