import Auron.Algorithm.LoserTree
import Auron.Lib.Pops

/-!
# Merging through a loser tree (`algorithm/loser_tree.rs`)

`peek_mut` hands out a guard through which the winner is read and replaced; a replaced winner makes the guard dirty, and
the tree is adjusted by `adjust` or when the guard is dropped.  Whenever the guard is clean the winner is a smallest value
(`LoserTreePeekMut.Sound.least`), whatever was written before.

A merge takes the winner of a tree of cursors, advances it and drops the guard, until the winner is finished.
-/

namespace Auron.Algorithm

open ComparableForLoserTree (lt)
open Auron.Lib List LoserTree

variable {T α : Type}

/-! ### The guard -/

structure LoserTreePeekMut (T : Type) where
  tree : LoserTree T
  dirty : Bool

namespace LoserTreePeekMut

/-- `peek_mut`. -/
def new (tree : LoserTree T) : LoserTreePeekMut T := ⟨tree, false⟩

/-- `deref`; `none` if an unchecked index is out of bounds. -/
def deref (g : LoserTreePeekMut T) : Option T := g.tree.peekMut

def derefMut (g : LoserTreePeekMut T) (v : T) : LoserTreePeekMut T := ⟨g.tree.setWinner v, true⟩

section Ops

variable [ComparableForLoserTree T]

def adjust (g : LoserTreePeekMut T) : LoserTreePeekMut T := if g.dirty then ⟨g.tree.adjustTree, false⟩ else g

/-- `drop`: the tree that is left. -/
def drop (g : LoserTreePeekMut T) : LoserTree T := if g.dirty then g.tree.adjustTree else g.tree

end Ops

end LoserTreePeekMut

/-- What is done with a guard.  One that is dropped is followed by the next `peek_mut`. -/
inductive Access (T : Type) where
  | write (v : T)
  | adjust
  | drop

def LoserTreePeekMut.access [ComparableForLoserTree T] (g : LoserTreePeekMut T) : Access T → LoserTreePeekMut T
  | .write v => g.derefMut v
  | .adjust => g.adjust
  | .drop => new g.drop

def guardAfter [ComparableForLoserTree T] (values : List T) (accesses : List (Access T)) : LoserTreePeekMut T :=
  accesses.foldl LoserTreePeekMut.access (.new (new values))

/-! ### The winner of a clean guard -/

lemma LoserTree.winner_setWinner (t : LoserTree T) (v : T) : (t.setWinner v).winner = t.winner := by
  unfold setWinner
  split <;> rfl

lemma LoserTree.setWinner_setWinner (t : LoserTree T) (v v' : T) : (t.setWinner v).setWinner v' = t.setWinner v' := by
  cases hw : t.winner with
  | none => simp only [setWinner, hw]
  | some w =>
    have hw' : (t.setWinner v).winner = some w := (t.winner_setWinner v).trans hw
    rw [setWinner, hw']
    simp only [setWinner, hw, set_set]

lemma LoserTree.values_setWinner (t : LoserTree T) (v : T) :
    (t.setWinner v).values = t.winner.elim t.values fun w => t.values.set w v := by
  unfold setWinner
  cases t.winner <;> rfl

section Sound

variable [ComparableForLoserTree T] {le : T → T → Prop}

/-- A clean guard has a loser tree; a dirty one has a loser tree whose winner has been replaced. -/
inductive LoserTreePeekMut.Sound (le : T → T → Prop) : LoserTreePeekMut T → Prop
  | clean {tree : LoserTree T} (h : tree.Wf le) : Sound le ⟨tree, false⟩
  | dirty {tree : LoserTree T} (h : tree.Wf le) (v : T) : Sound le ⟨tree.setWinner v, true⟩

variable {g : LoserTreePeekMut T}

/-- **Every access keeps the tree**, and only a write changes the values: at the place of the winner. -/
theorem LoserTreePeekMut.Sound.access (hle : Compat le) (h : g.Sound le) (a : Access T) :
    (g.access a).Sound le ∧ (g.access a).tree.values =
      match a with
      | .write v => g.tree.winner.elim g.tree.values fun w => g.tree.values.set w v
      | _ => g.tree.values := by
  cases a with
  | write v =>
    refine ⟨?_, g.tree.values_setWinner v⟩
    cases h with
    | clean h => exact .dirty h v
    | @dirty tree h u =>
      show LoserTreePeekMut.Sound le ⟨(tree.setWinner u).setWinner v, true⟩
      rw [setWinner_setWinner]
      exact .dirty h v
  | adjust | drop =>
    cases h with
    | clean h => exact ⟨.clean h, rfl⟩
    | dirty h v => exact ⟨.clean (h.adjust hle v).1, (h.adjust hle v).2⟩

/-- **A run of accesses.** -/
theorem LoserTreePeekMut.Sound.run (hle : Compat le) (h : g.Sound le) (accesses : List (Access T)) :
    (accesses.foldl LoserTreePeekMut.access g).Sound le := by
  induction accesses generalizing g with
  | nil => exact h
  | cons a accesses ih => exact ih (h.access hle a).1

/-- **A clean guard exposes a smallest value.** -/
theorem LoserTreePeekMut.Sound.least (hle : Compat le) (h : g.Sound le) (hclean : g.dirty = false) :
    ∃ w v, g.tree.winner = some w ∧ g.tree.values[w]? = some v ∧ g.deref = some v ∧ ∀ u ∈ g.tree.values, le v u := by
  cases h with
  | dirty => cases hclean
  | @clean tree h =>
    obtain ⟨w, hw, hlt, hleast⟩ := h.winner_le hle
    have hv : tree.values[w]? = some tree.values[w] := getElem?_eq_getElem hlt
    refine ⟨w, tree.values[w], hw, hv, ?_, fun u hu => ?_⟩
    · rw [deref, peekMut, hw, Option.bind_some, hv]
    · obtain ⟨i, hi, rfl⟩ := getElem_of_mem hu
      obtain ⟨x, y, hx, hy, _⟩ := hleast i hi
      rw [hv] at hx
      rw [getElem?_eq_getElem hi] at hy
      rwa [Option.some.inj hx, Option.some.inj hy]

end Sound

/-! ### Strict weak orders -/

abbrev StrictWeak (T : Type) [ComparableForLoserTree T] : Prop := IsStrictWeakOrder T fun a b => lt a b = true

section Weak

variable [ComparableForLoserTree T]

lemma StrictWeak.not_lt_trans (h : StrictWeak T) {a b c : T} (hba : lt b a = false) (hcb : lt c b = false) :
    lt c a = false := by
  rw [← Bool.not_eq_true] at hba hcb ⊢
  intro hca
  -- `b` is neither below `a` nor above `c`, so it ties with both
  have hab : lt a b ≠ true := fun hab => hcb (h.trans c a b hca hab)
  have hbc : lt b c ≠ true := fun hbc => hba (h.trans b c a hbc hca)
  exact (h.incomp_trans c b a ⟨hcb, hbc⟩ ⟨hba, hab⟩).1 hca

lemma StrictWeak.compat (h : StrictWeak T) : Compat fun a b : T => lt b a = false where
  trans hab hbc := h.not_lt_trans hab hbc
  of_lt {a b} hab := by
    rw [← Bool.not_eq_true]
    exact fun hba => h.irrefl a (h.trans a b a hab hba)
  of_not_lt hab := hab

end Weak

/-! ### Cursors over sequences -/

/-- A cursor: what is left of its sequence. -/
structure SeqCursor (α : Type) where
  rest : List α

/-- Cursors are compared by their next elements; a finished one is greatest. -/
instance [ComparableForLoserTree α] : ComparableForLoserTree (SeqCursor α) where
  lt a b :=
    match a.rest, b.rest with
    | x :: _, y :: _ => lt x y
    | [], _ => false
    | _ :: _, [] => true

/-- The loop of a merge, with a bound on its rounds: the winner is taken and advanced until it is finished. -/
def mergeLoop [ComparableForLoserTree α] : ℕ → LoserTree (SeqCursor α) → Option (List α)
  | 0, _ => none
  | rounds + 1, tree =>
    (LoserTreePeekMut.new tree).deref.bind fun min =>
      match min.rest with
      | [] => some []
      | x :: rest => (mergeLoop rounds ((LoserTreePeekMut.new tree).derefMut ⟨rest⟩).drop).map (x :: ·)

section Merge

variable [ComparableForLoserTree α]

lemma strictWeak_seqCursor (h : StrictWeak α) : StrictWeak (SeqCursor α) := by
  refine { irrefl := ?_, trans := ?_, incomp_trans := ?_ }
  · rintro ⟨_ | ⟨x, xs⟩⟩
    · exact Bool.false_ne_true
    · exact h.irrefl x
  · rintro ⟨_ | ⟨x, xs⟩⟩ ⟨_ | ⟨y, ys⟩⟩ ⟨_ | ⟨z, zs⟩⟩ hab hbc
    all_goals first
      | exact absurd hab Bool.false_ne_true
      | exact absurd hbc Bool.false_ne_true
      | rfl
      | exact h.trans x y z hab hbc
  · rintro ⟨_ | ⟨x, _⟩⟩ ⟨_ | ⟨y, _⟩⟩ ⟨_ | ⟨z, _⟩⟩ hab hbc
    all_goals first
      | exact absurd rfl hab.1
      | exact absurd rfl hab.2
      | exact absurd rfl hbc.1
      | exact absurd rfl hbc.2
      | exact ⟨Bool.false_ne_true, Bool.false_ne_true⟩
      | exact h.incomp_trans x y z hab hbc

lemma not_lt_of_least (h : StrictWeak α) {seqs : List (List α)}
    (hsorted : ∀ s ∈ seqs, s.Pairwise fun a b => lt b a = false) {x : α} {rest : List α}
    (hleast : ∀ s ∈ seqs, lt (SeqCursor.mk s) ⟨x :: rest⟩ = false) {y : α} (hy : y ∈ seqs.flatten) : lt y x = false := by
  obtain ⟨s, hs, hy⟩ := mem_flatten.1 hy
  cases s with
  | nil => cases hy
  | cons z s =>
    have hzx : lt z x = false := hleast _ hs
    rcases mem_cons.1 hy with rfl | hy
    · exact hzx
    · exact h.not_lt_trans hzx ((pairwise_cons.1 (hsorted _ hs)).1 y hy)

/-- **A merge from a loser tree of cursors** takes everything that is left, in order. -/
theorem mergeLoop_spec (h : StrictWeak α) {tree : LoserTree (SeqCursor α)}
    (htree : tree.Wf fun a b => lt b a = false) {seqs : List (List α)} (hvalues : tree.values = seqs.map SeqCursor.mk)
    (hsorted : ∀ s ∈ seqs, s.Pairwise fun a b => lt b a = false) :
    ∃ ids out, (∀ rounds, seqs.flatten.length < rounds → mergeLoop rounds tree = some out) ∧
      Pops seqs ids out (seqs.map fun _ => []) ∧ out.Pairwise fun a b => lt b a = false := by
  have hle := (strictWeak_seqCursor h).compat
  generalize hn : seqs.flatten.length = n
  induction n using Nat.strongRecOn generalizing tree seqs with
  | ind n ih =>
    obtain ⟨w, ⟨cur⟩, hwinner, hw, hderef, hleast⟩ := (LoserTreePeekMut.Sound.clean htree).least hle rfl
    replace hw : tree.values[w]? = some ⟨cur⟩ := hw
    have hleast : ∀ s ∈ seqs, lt (SeqCursor.mk s) ⟨cur⟩ = false := fun s hs =>
      hleast ⟨s⟩ (by
        rw [hvalues]
        exact mem_map_of_mem hs)
    have hcur : seqs[w]? = some cur := by
      rw [hvalues, getElem?_map] at hw
      obtain ⟨s, hs, hseq⟩ := Option.map_eq_some_iff.1 hw
      exact (SeqCursor.mk.inj hseq) ▸ hs
    cases cur with
    | nil =>
      -- a finished winner: nothing is left anywhere
      have hempty : ∀ s ∈ seqs, s = [] := by
        intro s hs
        cases s with
        | nil => rfl
        | cons y s => exact absurd (hleast _ hs) (Bool.false_ne_true ∘ Eq.symm)
      refine ⟨[], [], fun rounds hrounds => ?_, ?_, .nil⟩
      · obtain ⟨rounds, rfl⟩ := Nat.exists_eq_succ_of_ne_zero (Nat.ne_zero_of_lt hrounds)
        rw [mergeLoop, LoserTreePeekMut.new, hderef]
        rfl
      · have hmap : seqs.map (fun _ => []) = seqs := by
          conv_rhs => rw [← map_id seqs]
          exact map_congr_left fun s hs => (hempty s hs).symm
        rw [hmap]
        exact .nil seqs
    | cons x rest =>
      obtain ⟨htree', hvalues'⟩ := htree.adjust hle ⟨rest⟩
      have hset : ((tree.setWinner ⟨rest⟩).adjustTree).values = (seqs.set w rest).map SeqCursor.mk := by
        rw [hvalues', values_setWinner, show tree.winner = some w from hwinner, hvalues, Option.elim_some, map_set]
      have hperm := perm_flatten_set hcur
      have hlen : (seqs.set w rest).flatten.length + 1 = n := by
        have := hperm.length_eq
        rw [length_cons] at this
        omega
      have hsorted' := forall_mem_set hsorted (pairwise_cons.1 (hsorted _ (mem_of_getElem? hcur))).2 w
      obtain ⟨ids, out, hloop, hpops, hout⟩ := ih _ (by omega) htree' hset hsorted' rfl
      have hall : (out ++ ((seqs.set w rest).map fun _ => ([] : List α)).flatten).Perm (seqs.set w rest).flatten :=
        hpops.perm
      have hmap : (seqs.set w rest).map (fun _ => ([] : List α)) = seqs.map fun _ => [] := by
        rw [map_set, map_const', set_replicate_self]
      rw [hmap] at hpops
      refine ⟨w :: ids, x :: out, fun rounds hrounds => ?_, .cons hcur hpops, pairwise_cons.2 ⟨fun y hy => ?_, hout⟩⟩
      · obtain ⟨rounds, rfl⟩ := Nat.exists_eq_succ_of_ne_zero (Nat.ne_zero_of_lt hrounds)
        rw [mergeLoop, LoserTreePeekMut.new, hderef]
        exact congrArg (Option.map (x :: ·)) (hloop rounds (by omega))
      · refine not_lt_of_least h hsorted hleast (hperm.subset (mem_cons_of_mem _ (hall.subset ?_)))
        exact mem_append_left _ hy

/-- **A loser tree merges.**  After its construction and any accesses through the guards of `peek_mut`, a guard that is
clean exposes a smallest value; `adjust` and `drop` leave the values at their places, a write replaces the winner in its
place.  Taking and advancing the winner of a tree of cursors outputs the sorted merge of their sequences. -/
theorem loserTree_merges [ComparableForLoserTree T] (hT : StrictWeak T) (hα : StrictWeak α) :
    (∀ values : List T, values ≠ [] → ∀ accesses : List (Access T),
      ((guardAfter values accesses).dirty = false →
        ∃ v, (guardAfter values accesses).deref = some v ∧ v ∈ (guardAfter values accesses).tree.values ∧
          ∀ u ∈ (guardAfter values accesses).tree.values, lt u v = false) ∧
      ∀ a : Access T, ((guardAfter values accesses).access a).tree.values =
        match a with
        | .write v => (guardAfter values accesses).tree.winner.elim (guardAfter values accesses).tree.values
            fun w => (guardAfter values accesses).tree.values.set w v
        | _ => (guardAfter values accesses).tree.values) ∧
    ∀ seqs : List (List α), seqs ≠ [] → (∀ s ∈ seqs, s.Pairwise fun a b => lt b a = false) →
      ∃ ids out, (∀ rounds, seqs.flatten.length < rounds →
          mergeLoop rounds (new (seqs.map SeqCursor.mk)) = some out) ∧
        Pops seqs ids out (seqs.map fun _ => []) ∧ out.Perm seqs.flatten ∧ out.Pairwise fun a b => lt b a = false := by
  refine ⟨fun values hne accesses => ?_, fun seqs hne hsorted => ?_⟩
  · have hle := hT.compat
    have hsound := (LoserTreePeekMut.Sound.clean (new_wf hle (length_pos_of_ne_nil hne))).run hle accesses
    refine ⟨fun hclean => ?_, fun a => (hsound.access hle a).2⟩
    obtain ⟨w, v, -, hw, hderef, hleast⟩ := hsound.least hle hclean
    exact ⟨v, hderef, mem_of_getElem? hw, hleast⟩
  · have hle := (strictWeak_seqCursor hα).compat
    have hpos : 0 < (seqs.map SeqCursor.mk).length := by
      rw [length_map]
      exact length_pos_of_ne_nil hne
    obtain ⟨ids, out, hloop, hpops, hout⟩ := mergeLoop_spec hα (new_wf hle hpos) rfl hsorted
    refine ⟨ids, out, hloop, hpops, ?_, hout⟩
    have hperm := hpops.perm
    simpa using hperm

end Merge

instance : ComparableForLoserTree ℕ := ⟨fun a b => decide (a < b)⟩

lemma strictWeak_nat : StrictWeak ℕ := by
  refine { irrefl := fun a => ?_, trans := fun a b c => ?_, incomp_trans := fun a b c => ?_ } <;>
    simp only [lt, decide_eq_true_eq] <;> omega

/-- Three sequences of numbers, one of them empty. -/
theorem loserTree_merges_numbers : ∃ ids out, (∀ rounds, 4 < rounds →
      mergeLoop rounds (new ([[1, 4], [], [2, 3]].map SeqCursor.mk)) = some out) ∧
    Pops [[1, 4], [], [2, 3]] ids out [[], [], []] ∧ out.Perm [1, 4, 2, 3] ∧
    out.Pairwise fun a b : ℕ => lt b a = false :=
  (loserTree_merges strictWeak_nat strictWeak_nat).2 [[1, 4], [], [2, 3]] (by decide) (by decide)

end Auron.Algorithm
