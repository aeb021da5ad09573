import Mathlib.Data.List.GetD
import Mathlib.Data.List.Nodup
import Mathlib.Data.List.Perm.Subperm
import Mathlib.Algebra.Order.BigOperators.Group.List
import Mathlib.Algebra.Order.Ring.Nat
import Auron.Lib.Fallible

/-!
# Radix sort in place (`algorithm/rdx_sort.rs`)

The items are counted by key, which gives every key its part of the array.  Then, part by part, each item is swapped to the
next free place of the part of its own key, until all parts but one are exhausted.

`Settled` says how many items of each part are in place: they are at the front of their parts.  An item that is not in place
finds room in its part, because a part has as many places as there are items of its key (`Settled.lt_count`); so every
swap settles one more item (`Settled.settle`).  When a single part is left, its items have nowhere else to be
(`Settled.key_eq`).
-/

namespace Auron.Algorithm

open Lib List
open Option (bind_some map_some)

variable {T : Type}

/-! ### The algorithm -/

/-- A part of the array: the next free place, and the end. -/
structure Part where
  cur : ℕ
  endIdx : ℕ
  deriving DecidableEq, Repr

/-- The items are counted; `none` if an unchecked index is out of bounds. -/
def countKeys (key : T → ℕ) (counts : List ℕ) (array : List T) : Option (List ℕ) :=
  array.foldlM (fun counts item => if key item < counts.length then some (counts.modify (key item) (· + 1)) else none)
    counts

def buildParts : ℕ → List ℕ → List Part
  | _, [] => []
  | beg, count :: counts =>
    if 0 < count then ⟨beg, beg + count⟩ :: buildParts (beg + count) counts else ⟨0, 0⟩ :: buildParts beg counts

structure RadixState (T : Type) where
  array : List T
  parts : List Part

/-- An item is swapped to the next free place of its part; `none` if an unchecked index is out of bounds. -/
def settle (key : T → ℕ) (s : RadixState T) (itemIdx : ℕ) : Option (RadixState T) :=
  s.array[itemIdx]?.bind fun item =>
    s.parts[key item]?.bind fun targetPart =>
      if targetPart.cur < s.array.length then
        some ⟨s.array.swap itemIdx targetPart.cur, s.parts.set (key item) ⟨targetPart.cur + 1, targetPart.endIdx⟩⟩
      else none

def settlePart (key : T → ℕ) (s : RadixState T) (partIdx : ℕ) : Option (RadixState T) :=
  s.parts[partIdx]?.bind fun part => (range' part.cur (part.endIdx - part.cur)).foldlM (settle key) s

def inexhausted (parts : List Part) (i : ℕ) : Bool := parts[i]?.any fun part => part.cur < part.endIdx

/-- The parts that are retained at the head of the loop; `none` if an unchecked index is out of bounds. -/
def retain (parts : List Part) (indices : List ℕ) : Option (List ℕ) :=
  if indices.all (· < parts.length) then some (indices.filter (inexhausted parts)) else none

/-- The loop over the parts, with a bound on its rounds. -/
def reorganize (key : T → ℕ) : ℕ → RadixState T → List ℕ → Option (RadixState T)
  | 0, s, indices => (retain s.parts indices).bind fun indices => if indices.length > 1 then none else some s
  | rounds + 1, s, indices =>
    (retain s.parts indices).bind fun indices =>
      if indices.length > 1 then
        (indices.foldlM (settlePart key) s).bind fun s' => reorganize key rounds s' indices
      else some s

/-- `radix_sort_by_key`: every round settles an item. -/
def radixSortByKey (key : T → ℕ) (array : List T) (counts : List ℕ) : Option (List T × List ℕ) :=
  (countKeys key counts array).bind fun counts =>
    (reorganize key array.length ⟨array, buildParts 0 counts⟩ (List.range counts.length)).map fun s => (s.array, counts)

/-! ### Counts and places -/

variable {key : T → ℕ} {array : List T}

section Counts

variable (counts : List ℕ)

lemma countKeys_eq (hkeys : ∀ x ∈ array, key x < counts.length) :
    countKeys key counts array = some (counts.mapIdx fun k n => n + array.countP fun x => key x = k) := by
  induction array generalizing counts with
  | nil =>
    refine congrArg some (ext_getElem (by simp) fun k h1 h2 => ?_)
    simp
  | cons x array ih =>
    have hx : key x < counts.length := hkeys x mem_cons_self
    have hrest : ∀ y ∈ array, key y < (counts.modify (key x) (· + 1)).length := fun y hy => by
      rw [length_modify]
      exact hkeys y (mem_cons_of_mem x hy)
    have hstep : countKeys key counts (x :: array) = countKeys key (counts.modify (key x) (· + 1)) array := by
      rw [countKeys, foldlM_cons, if_pos hx]
      rfl
    rw [hstep, ih _ hrest]
    refine congrArg some (ext_getElem (by simp) fun k h1 h2 => ?_)
    by_cases hk : key x = k
    · simp [hk]
      omega
    · simp [hk]

lemma countKeys_replicate {n : ℕ} (hkeys : ∀ x ∈ array, key x < n) :
    countKeys key (replicate n 0) array = some ((List.range n).map fun k => array.countP fun x => key x = k) := by
  rw [countKeys_eq _ (by simpa using hkeys)]
  refine congrArg some (ext_getElem (by simp) fun k h1 h2 => ?_)
  simp

def base (k : ℕ) : ℕ := (counts.take k).sum

lemma base_succ (k : ℕ) : base counts (k + 1) = base counts k + counts.getD k 0 := by
  rw [base, base, take_add_one, getD_eq_getElem?_getD]
  cases counts[k]? <;> simp

end Counts

variable {counts : List ℕ}

lemma base_le {k k' : ℕ} (h : k ≤ k') : base counts k ≤ base counts k' := by
  refine monotone_nat_of_le_succ (fun k => ?_) h
  rw [base_succ]
  exact Nat.le_add_right _ _

lemma base_length (counts : List ℕ) : base counts counts.length = counts.sum := by
  rw [base, take_length]

lemma eq_of_place {k k' i : ℕ} (h : base counts k ≤ i) (hlt : i < base counts k + counts.getD k 0)
    (h' : base counts k' ≤ i) (hlt' : i < base counts k' + counts.getD k' 0) : k = k' := by
  rw [← base_succ] at hlt hlt'
  rcases lt_trichotomy k k' with hlt0 | heq | hgt
  · have : base counts (k + 1) ≤ base counts k' := base_le hlt0
    omega
  · exact heq
  · have : base counts (k' + 1) ≤ base counts k := base_le hgt
    omega

lemma exists_place {i m : ℕ} (h : i < base counts m) :
    ∃ k < m, base counts k ≤ i ∧ i < base counts k + counts.getD k 0 := by
  induction m with
  | zero => simp [base] at h
  | succ m ih =>
    by_cases hi : i < base counts m
    · obtain ⟨k, _, hplace⟩ := ih hi
      exact ⟨k, by omega, hplace⟩
    · rw [base_succ] at h
      exact ⟨m, by omega, by omega, h⟩

lemma length_le_countP {l : List T} {p : T → Bool} {places : List ℕ} (hnodup : places.Nodup)
    (h : ∀ i ∈ places, ∃ x, l[i]? = some x ∧ p x = true) : places.length ≤ l.countP p := by
  rw [← length_findIdxs (s := 0)]
  refine (subperm_of_subset hnodup fun i hi => ?_).length_le
  obtain ⟨x, hx, hp⟩ := h i hi
  obtain ⟨hlt, rfl⟩ := List.getElem?_eq_some_iff.1 hx
  exact (mem_findIdxs_iff_pos_getElem hlt).2 hp

/-! ### Items in place -/

/-- The part of a key of which `n` items are in place. -/
def partOf (counts : List ℕ) (n k : ℕ) : Part :=
  if 0 < counts.getD k 0 then ⟨base counts k + n, base counts k + counts.getD k 0⟩ else ⟨0, 0⟩

lemma buildParts_eq (beg : ℕ) (counts : List ℕ) :
    buildParts beg counts = counts.mapIdx fun k count =>
      if 0 < count then ⟨beg + base counts k, beg + base counts k + count⟩ else ⟨0, 0⟩ := by
  induction counts generalizing beg with
  | nil => rfl
  | cons count counts ih =>
    have hbase : ∀ k, base (count :: counts) (k + 1) = count + base counts k := fun k => by
      rw [base, take_succ_cons, sum_cons, base]
    rw [buildParts, mapIdx_cons]
    simp only [hbase]
    split
    · rw [ih]
      simp [base, add_assoc]
    · rw [ih]
      simp [show count = 0 by omega]

/-- Of every key `k`, the first `n k` places of its part hold items of the key. -/
structure Settled (key : T → ℕ) (counts : List ℕ) (n : ℕ → ℕ) (s : RadixState T) : Prop where
  counts_eq : ∀ k, k < counts.length → counts.getD k 0 = s.array.countP fun x => key x = k
  keys : ∀ x ∈ s.array, key x < counts.length
  total : s.array.length = counts.sum
  le_count : ∀ k, n k ≤ counts.getD k 0
  parts : s.parts = (List.range counts.length).map fun k => partOf counts (n k) k
  inPlace : ∀ k, k < counts.length → ∀ j, j < n k → ∃ x, s.array[base counts k + j]? = some x ∧ key x = k

def Free (counts : List ℕ) (n : ℕ → ℕ) (i : ℕ) : Prop := ∀ k, k < counts.length → ∀ j, j < n k → i ≠ base counts k + j

section Settled

variable {key : T → ℕ} {counts : List ℕ} {n : ℕ → ℕ} {s : RadixState T}

variable {i : ℕ}

variable (h : Settled key counts n s)

include h in
/-- **An item that is not in place finds room in its part.** -/
theorem Settled.lt_count {x : T} (hx : s.array[i]? = some x) (hfree : Free counts n i) :
    n (key x) < counts.getD (key x) 0 := by
  have hk := h.keys x (mem_of_getElem? hx)
  rw [h.counts_eq _ hk]
  -- the places of the items in place, and this one
  have hle : (i :: (List.range (n (key x))).map (base counts (key x) + ·)).length ≤
      s.array.countP fun y => key y = key x := by
    apply length_le_countP
    · refine nodup_cons.2 ⟨?_, Nodup.map (fun a b hab => by simpa using hab) nodup_range⟩
      intro hmem
      obtain ⟨j, hj, rfl⟩ := mem_map.1 hmem
      exact hfree _ hk j (mem_range.1 hj) rfl
    · refine forall_mem_cons.2 ⟨⟨x, hx, by simp⟩, ?_⟩
      intro _ hplace
      obtain ⟨j, hj, rfl⟩ := mem_map.1 hplace
      obtain ⟨y, hy, hkey⟩ := h.inPlace _ hk j (mem_range.1 hj)
      exact ⟨y, hy, by simpa using hkey⟩
  rw [length_cons, length_map, length_range] at hle
  omega

variable {k : ℕ}

include h in
lemma getElem?_parts (hk : k < counts.length) : s.parts[k]? = some (partOf counts (n k) k) := by
  rw [h.parts, getElem?_map, getElem?_range hk, map_some]

include h in
lemma Settled.free_of_place {p : ℕ} (hle : base counts p + n p ≤ i) (hlt : i < base counts p + counts.getD p 0) :
    Free counts n i := by
  intro k _ j _ _
  have hcount := h.le_count k
  have hplace : base counts k ≤ i := by omega
  obtain rfl : p = k := eq_of_place (by omega) hlt hplace (by omega)
  omega

include h in
lemma Settled.lt_length {p : ℕ} (hp : p < counts.length) (hlt : i < base counts p + counts.getD p 0) :
    i < s.array.length := by
  have hend : base counts (p + 1) ≤ base counts counts.length := base_le hp
  rw [base_succ, base_length, ← h.total] at hend
  omega

def bump (n : ℕ → ℕ) (k : ℕ) : ℕ → ℕ := fun k' => if k' = k then n k + 1 else n k'

lemma bump_self (n : ℕ → ℕ) (k : ℕ) : bump n k k = n k + 1 := if_pos rfl

lemma bump_of_ne (n : ℕ → ℕ) {k' : ℕ} (h : k' ≠ k) : bump n k k' = n k' := if_neg h

lemma map_partOf_bump (hlt : n k < counts.getD k 0) :
    ((List.range counts.length).map fun k => partOf counts (n k) k).set k
        ⟨base counts k + n k + 1, base counts k + counts.getD k 0⟩ =
      (List.range counts.length).map fun k' => partOf counts (bump n k k') k' := by
  apply ext_getElem (by simp)
  intro _ _ _
  rw [getElem_set]
  split
  · next heq =>
    subst heq
    have hpos : 0 < counts.getD k 0 := by omega
    rw [getElem_map, getElem_range, bump_self, partOf, if_pos hpos, add_assoc]
  · next hne => simp [bump_of_ne n (Ne.symm hne)]

include h in
/-- **A swap settles one more item.** -/
theorem Settled.settle (hi : i < s.array.length) (hfree : Free counts n i) :
    ∃ s' k, k < counts.length ∧ n k < counts.getD k 0 ∧ Algorithm.settle key s i = some s' ∧
      Settled key counts (bump n k) s' ∧ s'.array.Perm s.array := by
  have hx : s.array[i]? = some s.array[i] := getElem?_eq_getElem hi
  set k := key s.array[i] with hkey
  have hk : k < counts.length := h.keys _ (getElem_mem hi)
  have hlt : n k < counts.getD k 0 := h.lt_count hx hfree
  have hpart : s.parts[k]? = some ⟨base counts k + n k, base counts k + counts.getD k 0⟩ := by
    rw [getElem?_parts h hk, partOf, if_pos (by omega)]
  have hroom : base counts k + n k < s.array.length := h.lt_length hk (by omega)
  have hnext : Free counts n (base counts k + n k) := h.free_of_place le_rfl (by omega)
  have hperm : (s.array.swap i (base counts k + n k)).Perm s.array := swap_perm _ _ _
  refine ⟨⟨s.array.swap i (base counts k + n k), s.parts.set k ⟨base counts k + n k + 1, base counts k + counts.getD k 0⟩⟩,
    k, hk, hlt, ?_, ?_, hperm⟩
  · rw [Algorithm.settle, hx, bind_some, ← hkey, hpart, bind_some, if_pos hroom]
  · refine ⟨fun k' hk' => ?_, fun x hx => ?_, ?_, fun k' => ?_, ?_, fun k' hk' j hj => ?_⟩
    · rw [h.counts_eq k' hk', hperm.countP_eq]
    · exact h.keys x (hperm.mem_iff.1 hx)
    · rw [← h.total, hperm.length_eq]
    · by_cases hkk : k' = k
      · rw [hkk, bump_self]
        exact hlt
      · rw [bump_of_ne n hkk]
        exact h.le_count k'
    · rw [h.parts, map_partOf_bump hlt]
    · by_cases hnew : k' = k ∧ j = n k
      · -- the item that was swapped
        obtain ⟨rfl, rfl⟩ := hnew
        refine ⟨s.array[i], ?_, hkey.symm⟩
        rw [getElem?_eq_getElem (by simpa using hroom), getElem_swap_right_of_lt hi]
      · have hj' : j < n k' := by
          rcases eq_or_ne k' k with rfl | hkk
          · rw [bump_self] at hj
            exact Nat.lt_of_le_of_ne (Nat.le_of_lt_succ hj) fun heq => hnew ⟨rfl, heq⟩
          · rwa [bump_of_ne n hkk] at hj
        -- the items in place stay where they are
        obtain ⟨x, hx', hkx⟩ := h.inPlace k' hk' j hj'
        have hne : base counts k' + j ≠ i := fun heq => hfree k' hk' j hj' heq.symm
        have hne' : base counts k' + j ≠ base counts k + n k := fun heq => hnext k' hk' j hj' heq.symm
        have hlt' : base counts k' + j < s.array.length := (List.getElem?_eq_some_iff.1 hx').1
        refine ⟨x, ?_, hkx⟩
        rw [getElem?_eq_getElem (by simpa using hlt'), getElem_swap_of_ne hne hne']
        rwa [getElem?_eq_getElem hlt'] at hx'

/-- The items that are not in place, of the first `m` keys. -/
def left (counts : List ℕ) (n : ℕ → ℕ) (m : ℕ) : ℕ := ((List.range m).map fun k => counts.getD k 0 - n k).sum

lemma left_succ (counts : List ℕ) (n : ℕ → ℕ) (m : ℕ) :
    left counts n (m + 1) = left counts n m + (counts.getD m 0 - n m) := by
  simp [left, range_succ]

lemma left_bump (hlt : n k < counts.getD k 0) (m : ℕ) :
    left counts (bump n k) m + (if k < m then 1 else 0) = left counts n m := by
  induction m with
  | zero => simp [left]
  | succ m ih =>
    rw [left_succ, left_succ, ← ih]
    rcases lt_trichotomy k m with hk | rfl | hk
    · rw [bump_of_ne n (by omega), if_pos hk, if_pos (by omega)]
      omega
    · rw [bump_self, if_neg (lt_irrefl k), if_pos (Nat.lt_succ_self k)]
      omega
    · rw [bump_of_ne n (by omega), if_neg (by omega), if_neg (by omega)]
      omega

lemma le_left (counts : List ℕ) (n : ℕ → ℕ) {m : ℕ} (hk : k < m) : counts.getD k 0 - n k ≤ left counts n m :=
  single_le_sum (by simp) _ (mem_map.2 ⟨k, mem_range.2 hk, rfl⟩)

/-- What a part of the loop leaves: fewer items that are not in place, by `m`. -/
def Progress (key : T → ℕ) (counts : List ℕ) (n : ℕ → ℕ) (s : RadixState T) (m : ℕ) (res : Option (RadixState T)) : Prop :=
  ∃ s' n', res = some s' ∧ Settled key counts n' s' ∧ s'.array.Perm s.array ∧ (∀ k, n k ≤ n' k) ∧
    left counts n' counts.length + m ≤ left counts n counts.length

variable {p : ℕ}

lemma Settled.settleRange (hp : p < counts.length) (len : ℕ) : ∀ {i : ℕ} {n : ℕ → ℕ} {s : RadixState T},
    Settled key counts n s → base counts p + n p ≤ i → i + len = base counts p + counts.getD p 0 →
      Progress key counts n s len ((range' i len).foldlM (Algorithm.settle key) s) := by
  induction len with
  | zero => exact fun h _ _ => ⟨_, _, rfl, h, .refl _, fun _ => le_rfl, by omega⟩
  | succ len ih =>
    intro i n s h _ _
    have hfree : Free counts n i := h.free_of_place (p := p) (by omega) (by omega)
    have hroom : i < s.array.length := h.lt_length hp (by omega)
    obtain ⟨s1, k, hk, hlt, hs1, hsettled, hperm⟩ := h.settle hroom hfree
    have hbump : ∀ k', n k' ≤ bump n k k' ∧ bump n k k' ≤ n k' + 1 := by
      intro k'
      by_cases hkk : k' = k
      · rw [hkk, bump_self]
        omega
      · rw [bump_of_ne n hkk]
        omega
    have hone := left_bump hlt counts.length
    rw [if_pos hk] at hone
    have hp1 := (hbump p).2
    obtain ⟨s2, n2, hres, hs2, hperm2, hle2, _⟩ := ih hsettled (show base counts p + bump n k p ≤ i + 1 by omega)
      (by omega)
    refine ⟨s2, n2, ?_, hs2, hperm2.trans hperm, fun k' => (hbump k').1.trans (hle2 k'), by omega⟩
    rw [range'_succ]
    exact foldlM_cons_eq_some.2 ⟨s1, hs1, hres⟩

include h in
/-- **All free places of a part.** -/
theorem Settled.settlePart (hp : p < counts.length) :
    Progress key counts n s (counts.getD p 0 - n p) (Algorithm.settlePart key s p) := by
  have hle := h.le_count p
  rw [Algorithm.settlePart, getElem?_parts h hp, bind_some, partOf]
  split
  · have hlen : base counts p + counts.getD p 0 - (base counts p + n p) = counts.getD p 0 - n p := by omega
    dsimp only
    rw [hlen]
    exact settleRange hp _ h le_rfl (by omega)
  · exact ⟨s, n, rfl, h, .refl _, fun _ => le_rfl, by omega⟩

variable {indices : List ℕ}

/-- The first of the parts is exhausted. -/
lemma Settled.settleParts : ∀ {p : ℕ} {n : ℕ → ℕ} {s : RadixState T}, (∀ k ∈ p :: indices, k < counts.length) →
    Settled key counts n s →
      Progress key counts n s (counts.getD p 0 - n p) ((p :: indices).foldlM (Algorithm.settlePart key) s) := by
  induction indices with
  | nil =>
    intro p n s hp h
    obtain ⟨s1, n1, hres, hprogress⟩ := h.settlePart (hp p mem_cons_self)
    exact ⟨s1, n1, foldlM_cons_eq_some.2 ⟨s1, hres, rfl⟩, hprogress⟩
  | cons q indices ih =>
    intro p n s hindices h
    obtain ⟨hp, hindices⟩ := forall_mem_cons.1 hindices
    obtain ⟨s1, _, hres1, hs1, hperm1, hle1, _⟩ := h.settlePart hp
    obtain ⟨s2, n2, hres2, hs2, hperm2, hle2, _⟩ := ih hindices hs1
    exact ⟨s2, n2, foldlM_cons_eq_some.2 ⟨s1, hres1, hres2⟩, hs2, hperm2.trans hperm1,
      fun k => (hle1 k).trans (hle2 k), by omega⟩

include h in
lemma inexhausted_iff : inexhausted s.parts k = true ↔ k < counts.length ∧ n k < counts.getD k 0 := by
  by_cases hk : k < counts.length
  · rw [inexhausted, getElem?_parts h hk, Option.any_some, decide_eq_true_eq, partOf]
    split
    · exact ⟨fun hlt => ⟨hk, by simpa using hlt⟩, fun hlt => by simpa using hlt.2⟩
    · exact ⟨fun hlt => absurd hlt (lt_irrefl 0), fun hlt => absurd hlt.2 (by omega)⟩
  · have hnone : s.parts[k]? = none := by
      rw [getElem?_eq_none_iff, h.parts, length_map, length_range]
      omega
    rw [inexhausted, hnone]
    simp [hk]

include h in
/-- **A single part that is left has its own items only**: every item is in the part of its key. -/
theorem Settled.key_eq (hindices : ∀ k, inexhausted s.parts k = true → k ∈ indices)
    (hone : indices.length ≤ 1) {x : T} (hx : s.array[i]? = some x) :
    base counts (key x) ≤ i ∧ i < base counts (key x) + counts.getD (key x) 0 := by
  have hi : i < s.array.length := (List.getElem?_eq_some_iff.1 hx).1
  rw [h.total, ← base_length] at hi
  obtain ⟨p, hp, hle, hlt⟩ := exists_place hi
  suffices hkey : key x = p by
    rw [hkey]
    exact ⟨hle, hlt⟩
  by_cases hplaced : i < base counts p + n p
  · obtain ⟨y, hy, hkey⟩ := h.inPlace p hp (i - base counts p) (by omega)
    rw [Nat.add_sub_cancel' hle, hx] at hy
    rw [Option.some.inj hy, hkey]
  · -- neither its own part nor the one it is in is exhausted
    have hfree : Free counts n i := h.free_of_place (by omega) hlt
    have hkeyx := hindices _ ((inexhausted_iff h).2 ⟨h.keys x (mem_of_getElem? hx), h.lt_count hx hfree⟩)
    have hkeyp := hindices p ((inexhausted_iff h).2 ⟨hp, by omega⟩)
    obtain ⟨k, rfl⟩ : ∃ k, indices = [k] := by
      rw [← length_eq_one_iff]
      have := length_pos_of_mem hkeyp
      omega
    rw [mem_singleton.1 hkeyx, mem_singleton.1 hkeyp]

def InParts (key : T → ℕ) (counts : List ℕ) (array : List T) : Prop :=
  ∀ i x, array[i]? = some x → base counts (key x) ≤ i ∧ i < base counts (key x) + counts.getD (key x) 0

include h in
lemma retain_eq (hlt : ∀ k ∈ indices, k < counts.length) :
    retain s.parts indices = some (indices.filter (inexhausted s.parts)) := by
  rw [retain, if_pos]
  refine all_eq_true.2 fun k hk => decide_eq_true ?_
  rw [h.parts, length_map, length_range]
  exact hlt k hk

/-- **The loop over the parts ends with every item in the part of its key.**  By induction on the rounds; each of them leaves
fewer items that are not in place. -/
theorem Settled.reorganize (rounds : ℕ) : ∀ {n : ℕ → ℕ} {s : RadixState T} {indices : List ℕ}, Settled key counts n s →
    (∀ k ∈ indices, k < counts.length) → (∀ k, inexhausted s.parts k = true → k ∈ indices) →
      left counts n counts.length ≤ rounds →
      ∃ s', Algorithm.reorganize key rounds s indices = some s' ∧ s'.array.Perm s.array ∧ InParts key counts s'.array := by
  have hretain : ∀ {s : RadixState T} {indices : List ℕ}, (∀ k, inexhausted s.parts k = true → k ∈ indices) →
      ∀ k, inexhausted s.parts k = true → k ∈ indices.filter (inexhausted s.parts) := fun h k hk =>
    mem_filter.2 ⟨h k hk, hk⟩
  induction rounds with
  | zero =>
    intro n s indices h hbound hindices hleft
    have hnone : indices.filter (inexhausted s.parts) = [] := by
      refine filter_eq_nil_iff.2 fun k _ hk => ?_
      obtain ⟨hlt, hroom⟩ := (inexhausted_iff h).1 hk
      have := le_left counts n hlt
      omega
    refine ⟨s, ?_, .refl _, fun i x hx => h.key_eq (hretain hindices) (by rw [hnone]; simp) hx⟩
    rw [Algorithm.reorganize, retain_eq h hbound, hnone]
    rfl
  | succ rounds ih =>
    intro n s indices h hbound hindices _
    rw [Algorithm.reorganize, retain_eq h hbound, bind_some]
    by_cases hmore : (indices.filter (inexhausted s.parts)).length > 1
    · rw [if_pos hmore]
      obtain ⟨p, rest, hfilter⟩ := exists_cons_of_length_pos (Nat.zero_lt_of_lt hmore)
      have hmem : ∀ k ∈ p :: rest, k ∈ indices ∧ inexhausted s.parts k = true := fun k hk => mem_filter.1 (hfilter ▸ hk)
      have hp := ((inexhausted_iff h).1 (hmem p mem_cons_self).2).2
      obtain ⟨s1, _, hres, hs1, hperm1, hle1, _⟩ := settleParts (fun k hk => hbound k (hmem k hk).1) h
      -- a part that is exhausted stays so
      have hindices1 : ∀ k, inexhausted s1.parts k = true → k ∈ indices.filter (inexhausted s.parts) := by
        intro k hk
        obtain ⟨hlt, hroom⟩ := (inexhausted_iff hs1).1 hk
        exact hretain hindices k ((inexhausted_iff h).2 ⟨hlt, (hle1 k).trans_lt hroom⟩)
      obtain ⟨s2, hres2, hperm2, hparts⟩ :=
        ih hs1 (fun k hk => hbound k (mem_of_mem_filter hk)) hindices1 (by omega)
      refine ⟨s2, ?_, hperm2.trans hperm1, hparts⟩
      rw [hfilter] at hres2 ⊢
      rw [hres, bind_some, hres2]
    · rw [if_neg hmore]
      exact ⟨s, rfl, .refl _, fun i x hx => h.key_eq (hretain hindices) (by omega) hx⟩

end Settled

/-! ### Sorting -/

lemma countP_lt_succ (key : T → ℕ) (l : List T) (k : ℕ) :
    (l.countP fun x => key x < k + 1) = (l.countP fun x => key x < k) + l.countP fun x => key x = k := by
  induction l with
  | nil => rfl
  | cons x l ih =>
    simp only [countP_cons, ih, decide_eq_true_eq]
    split_ifs <;> omega

lemma sum_countP (key : T → ℕ) (l : List T) (m : ℕ) :
    ((List.range m).map fun k => l.countP fun x => key x = k).sum = l.countP fun x => key x < m := by
  induction m with
  | zero => simp
  | succ m ih => rw [range_succ, map_append, sum_append, ih, countP_lt_succ, map_singleton, sum_singleton]

lemma left_zero (counts : List ℕ) (m : ℕ) : left counts (fun _ => 0) m = base counts m := by
  induction m with
  | zero => simp [left, base]
  | succ m ih => rw [left_succ, base_succ, ih, Nat.sub_zero]

/-- **`radix_sort_by_key` sorts by the key**, counts the items of every key, and never leaves the array. -/
theorem radixSortByKey_spec {numKeys : ℕ} (hkeys : ∀ x ∈ array, key x < numKeys) :
    ∃ sorted, radixSortByKey key array (replicate numKeys 0) =
        some (sorted, (List.range numKeys).map fun k => array.countP fun x => key x = k) ∧
      sorted.Perm array ∧ sorted.Pairwise fun x y => key x ≤ key y := by
  set counts := (List.range numKeys).map fun k => array.countP fun x => key x = k with hcounts
  have hlen : counts.length = numKeys := by simp [hcounts]
  have hcount : ∀ k, k < counts.length → counts.getD k 0 = array.countP fun x => key x = k := by
    intro k hk
    rw [getD_eq_getElem _ _ hk]
    simp [hcounts]
  have htotal : array.length = counts.sum := by
    rw [hcounts, sum_countP, countP_eq_length.2 (by simpa using hkeys)]
  have hstart : Settled key counts (fun _ => 0) ⟨array, buildParts 0 counts⟩ := by
    refine ⟨hcount, fun x hx => hlen ▸ hkeys x hx, htotal, fun _ => Nat.zero_le _, ?_, fun _ _ _ h => by cases h⟩
    rw [buildParts_eq]
    apply ext_getElem (by simp)
    intro k h1 _
    have hk : k < counts.length := by simpa using h1
    simp [partOf, hk]
  have hindices : ∀ k, inexhausted (buildParts 0 counts) k = true → k ∈ List.range counts.length := fun k hk =>
    mem_range.2 ((inexhausted_iff hstart).1 hk).1
  have hrounds : left counts (fun _ => 0) counts.length ≤ array.length := by
    rw [left_zero, base_length, htotal]
  obtain ⟨s, hs, hperm, hparts⟩ :=
    Settled.reorganize array.length hstart (fun k hk => mem_range.1 hk) hindices hrounds
  refine ⟨s.array, ?_, hperm, ?_⟩
  · rw [radixSortByKey, countKeys_replicate hkeys, bind_some, ← hcounts, hs, map_some]
  · rw [pairwise_iff_getElem]
    intro i j hi hj _
    obtain ⟨_, _⟩ := hparts i _ (getElem?_eq_getElem hi)
    obtain ⟨_, _⟩ := hparts j _ (getElem?_eq_getElem hj)
    by_contra hgt
    have hend : base counts (key s.array[j] + 1) ≤ base counts (key s.array[i]) := base_le (by omega)
    rw [base_succ] at hend
    omega

/-- **The sort in place.**  With counts of zero for every key, `radix_sort_by_key` ends, uses no index out of bounds, leaves
the items sorted by key, and leaves the number of the items of each key in the counts. -/
theorem radixSort_sorts_in_place {key : T → ℕ} {array : List T} {counts : List ℕ} (hzero : ∀ n ∈ counts, n = 0)
    (hkeys : ∀ x ∈ array, key x < counts.length) :
    ∃ sorted counts', radixSortByKey key array counts = some (sorted, counts') ∧ sorted.Perm array ∧
      sorted.Pairwise (fun x y => key x ≤ key y) ∧ counts'.length = counts.length ∧
      ∀ k < counts.length, counts'[k]? = some (array.countP fun x => key x = k) := by
  have hreplicate : counts = replicate counts.length 0 := eq_replicate_iff.2 ⟨rfl, hzero⟩
  obtain ⟨sorted, hsort, hperm, hsorted⟩ := radixSortByKey_spec hkeys
  refine ⟨sorted, _, by rw [hreplicate]; exact hsort, hperm, hsorted, by simp, fun k hk => ?_⟩
  rw [getElem?_map, getElem?_range hk, map_some]

/-- Five numbers by their last digits. -/
theorem radixSort_sorts_in_place_numbers :
    ∃ sorted counts', radixSortByKey (· % 3) [5, 3, 7, 4, 6] [0, 0, 0] = some (sorted, counts') ∧
      sorted.Perm [5, 3, 7, 4, 6] ∧ sorted.Pairwise (fun x y => x % 3 ≤ y % 3) ∧ counts'.length = 3 ∧
      ∀ k < 3, counts'[k]? = some ([5, 3, 7, 4, 6].countP fun x => x % 3 = k) :=
  radixSort_sorts_in_place (by decide) (by decide)

end Auron.Algorithm
