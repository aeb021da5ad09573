import Auron.Lib.Gather

/-!
# The loser tree of `algorithm/loser_tree.rs`

A tournament over `n` values.  Node `n + i` of the implicit binary tree is the leaf of value `i`; the inner nodes are
`1 … n - 1`, and node `j` stores the *loser* of the match between the winners of its two subtrees.  `losers[0]` is the
winner of the whole.  A replaced winner replays the matches of its own path only (`adjustTree`); the tree is built by
letting the leaves arrive one by one, the first of two subtrees waiting at the node above them (`initTree`).

Both are the same argument.  `Tour D W c` says: in the nodes `D` that are decided, with `W j` the winner below `j`,
every match is right except possibly on the way from `c` to the root, where the nodes hold the winner of the *other*
side or nothing.  `Tour.play` moves `c` one node up, `Tour.deposit` stops at a node whose other side is undecided.

The comparison of a cursor need not be a strict order (two finished cursors are each less than the other), so all that
is asked of it is `Compat`: it decides some transitive relation, whichever way the ties go.
-/

namespace Auron.Algorithm

open List

class ComparableForLoserTree (T : Type) where
  lt : T → T → Bool

open ComparableForLoserTree (lt)

/-- `LoserTree`; an entry `none` of `losers` is the `usize::MAX` of a node nobody has reached. -/
structure LoserTree (T : Type) where
  losers : List (Option ℕ)
  values : List T

variable {T : Type}

def loserAt (losers : List (Option ℕ)) (node : ℕ) : Option ℕ := (losers[node]?).join

section Ops

variable [ComparableForLoserTree T]

/-- `self.values[a].lt(&self.values[b])`. -/
def valueLt (values : List T) (a b : ℕ) : Bool :=
  match values[a]?, values[b]? with
  | some x, some y => lt x y
  | _, _ => false

/-- The inner loop of `init_tree`: a winner climbs until it meets an empty node or the root. -/
def insertLoop (values : List T) : ℕ → List (Option ℕ) → ℕ → ℕ → List (Option ℕ)
  | 0, losers, winner, node => losers.set node (some winner)
  | fuel + 1, losers, winner, node =>
    if node = 0 then losers.set node (some winner)
    else match loserAt losers node with
      | none => losers.set node (some winner)
      | some challenger =>
        if valueLt values challenger winner then
          insertLoop values fuel (losers.set node (some winner)) challenger (node / 2)
        else insertLoop values fuel (losers.set node (some challenger)) winner (node / 2)

def initTree (values : List T) : List (Option ℕ) :=
  (range values.length).foldl
    (fun losers i => insertLoop values ((values.length + i) / 2) losers i ((values.length + i) / 2))
    (replicate values.length none)

def LoserTree.new (values : List T) : LoserTree T := ⟨initTree values, values⟩

/-- The loop of `adjust_tree`. -/
def adjustLoop (values : List T) : ℕ → List (Option ℕ) → ℕ → ℕ → List (Option ℕ)
  | 0, losers, winner, _ => losers.set 0 (some winner)
  | fuel + 1, losers, winner, node =>
    if node = 0 then losers.set 0 (some winner)
    else match loserAt losers node with
      | none => losers
      | some challenger =>
        if valueLt values challenger winner then
          adjustLoop values fuel (losers.set node (some winner)) challenger (node / 2)
        else adjustLoop values fuel losers winner (node / 2)

def LoserTree.adjustTree (t : LoserTree T) : LoserTree T :=
  match loserAt t.losers 0 with
  | none => t
  | some winner =>
    { t with
      losers := adjustLoop t.values ((t.values.length + winner) / 2) t.losers winner
        ((t.values.length + winner) / 2) }

end Ops

/-- The number of the smallest value, `self.losers[0]`. -/
def LoserTree.winner (t : LoserTree T) : Option ℕ := loserAt t.losers 0

def LoserTree.peekMut (t : LoserTree T) : Option T := t.winner.bind fun w => t.values[w]?

/-- Writing through a `LoserTreePeekMut`: the winner gets a new value, the losers stay as they are. -/
def LoserTree.setWinner (t : LoserTree T) (v : T) : LoserTree T :=
  match t.winner with
  | none => t
  | some w => { t with values := t.values.set w v }

/-! ### The way from a node to the root -/

/-- `Path c q`: the node `q` is `c` or above it. -/
inductive Path (c : ℕ) : ℕ → Prop
  | refl : Path c c
  | half {q : ℕ} (h : Path c q) : Path c (q / 2)

namespace Path

variable {c q s : ℕ}

lemma le (h : Path c q) : q ≤ c := by
  induction h with
  | refl => exact Nat.le_refl c
  | half _ ih => omega

lemma of_half (h : Path (c / 2) q) : Path c q := by
  induction h with
  | refl => exact .half .refl
  | half _ ih => exact .half ih

lemma eq_or_half (h : Path c q) : q = c ∨ Path (c / 2) q := by
  induction h with
  | refl => exact .inl rfl
  | half _ ih =>
    rcases ih with rfl | ih
    · exact .inr .refl
    · exact .inr (.half ih)

lemma comparable (hq : Path c q) (hs : Path c s) : Path q s ∨ Path s q := by
  induction hq with
  | refl => exact .inl hs
  | half _ ih =>
    rcases ih with ih | ih
    · rcases ih.eq_or_half with rfl | h
      · exact .inr (.half .refl)
      · exact .inl h
    · exact .inr (.half ih)

lemma eq_of_half_eq (hq : Path c q) (hs : Path c s) (h : q / 2 = s / 2) (hq0 : 0 < q) (hs0 : 0 < s) : q = s := by
  rcases comparable hq hs with h' | h'
  · rcases h'.eq_or_half with h'' | h''
    · exact h''.symm
    · have := h''.le
      omega
  · rcases h'.eq_or_half with h'' | h''
    · exact h''
    · have := h''.le
      omega

end Path

/-! ### Tournaments -/

/-- What is asked of the comparison: it decides a transitive relation, up to ties. -/
structure Compat [ComparableForLoserTree T] (le : T → T → Prop) : Prop where
  trans : ∀ {a b c : T}, le a b → le b c → le a c
  of_lt : ∀ {a b : T}, lt a b = true → le a b
  of_not_lt : ∀ {a b : T}, lt a b = false → le b a

variable {le : T → T → Prop}

lemma Compat.refl [ComparableForLoserTree T] (hle : Compat le) (a : T) : le a a := by
  cases h : lt a a with
  | false => exact hle.of_not_lt h
  | true => exact hle.of_lt h

/-- Value number `a` is at most value number `b`. -/
def Below (le : T → T → Prop) (values : List T) (a b : ℕ) : Prop :=
  ∃ x y, values[a]? = some x ∧ values[b]? = some y ∧ le x y

variable {values : List T} {a b : ℕ}

lemma Below.trans [ComparableForLoserTree T] (hle : Compat le) {c : ℕ} (h₁ : Below le values a b)
    (h₂ : Below le values b c) : Below le values a c := by
  obtain ⟨x, y, hx, hy, hxy⟩ := h₁
  obtain ⟨y', z, hy', hz, hyz⟩ := h₂
  obtain rfl : y = y' := by rw [hy] at hy'; exact Option.some.inj hy'
  exact ⟨x, z, hx, hz, hle.trans hxy hyz⟩

lemma Below.lt_left (h : Below le values a b) : a < values.length := by
  obtain ⟨x, _, hx, _⟩ := h
  exact (List.getElem?_eq_some_iff.1 hx).1

lemma below_of_valueLt [ComparableForLoserTree T] (hle : Compat le) (ha : a < values.length)
    (hb : b < values.length) :
    (valueLt values a b = true → Below le values a b) ∧ (valueLt values a b = false → Below le values b a) := by
  have hx : values[a]? = some (values[a]) := getElem?_eq_getElem ha
  have hy : values[b]? = some (values[b]) := getElem?_eq_getElem hb
  unfold valueLt
  rw [hx, hy]
  exact ⟨fun h => ⟨_, _, hx, hy, hle.of_lt h⟩, fun h => ⟨_, _, hy, hx, hle.of_not_lt h⟩⟩

/-- The node `j` is right: decided when both sides are, holding the loser then, and otherwise the winner of the side
that has arrived, if any. -/
structure NodeOk (le : T → T → Prop) (values : List T) (losers : List (Option ℕ)) (D : ℕ → Prop) (W : ℕ → ℕ)
    (j : ℕ) : Prop where
  full : D j → ∃ a b, a ≠ b ∧ a / 2 = j ∧ b / 2 = j ∧ D a ∧ D b ∧ W j = W a ∧ loserAt losers j = some (W b) ∧
    Below le values (W a) (W b)
  half : ∀ a b, a ≠ b → a / 2 = j → b / 2 = j → D a → ¬ D b → ¬ D j ∧ loserAt losers j = some (W a)
  none : ∀ a b, a ≠ b → a / 2 = j → b / 2 = j → ¬ D a → ¬ D b → ¬ D j ∧ loserAt losers j = none
  both : ∀ a b, a ≠ b → a / 2 = j → b / 2 = j → D a → D b → D j

/-- A tournament that is right except above `c`. -/
structure Tour (le : T → T → Prop) (values : List T) (losers : List (Option ℕ)) (D : ℕ → Prop) (W : ℕ → ℕ)
    (c : ℕ) : Prop where
  len : losers.length = values.length
  leaf : ∀ i < values.length, D (values.length + i) → W (values.length + i) = i
  win : ∀ j, 0 < j → j < 2 * values.length → D j → W j < values.length
  node : ∀ j, 0 < j → j < values.length → ¬ Path (c / 2) j → NodeOk le values losers D W j
  /-- Above `c` the nodes hold the winner of the other side, or nothing. -/
  path : ∀ q s, Path c q → 2 ≤ q → s ≠ q → s / 2 = q / 2 → ¬ D (q / 2) ∧
    (D s → loserAt losers (q / 2) = some (W s)) ∧ (¬ D s → loserAt losers (q / 2) = Option.none)

variable {losers : List (Option ℕ)} {j : ℕ}

lemma loserAt_set_self (h : j < losers.length) (w : ℕ) : loserAt (losers.set j (some w)) j = some w := by
  simp [loserAt, getElem?_set_self h]

lemma loserAt_set_of_ne {k : ℕ} (h : j ≠ k) (w : ℕ) : loserAt (losers.set j (some w)) k = loserAt losers k := by
  simp [loserAt, getElem?_set_ne h]

lemma set_loserAt {w : ℕ} (h : loserAt losers j = some w) : losers.set j (some w) = losers := by
  obtain ⟨hj, hw⟩ := List.getElem?_eq_some_iff.1 (Option.join_eq_some_iff.1 h)
  rw [← hw]
  exact set_getElem_self hj

section Nodes

variable {D : ℕ → Prop} {W : ℕ → ℕ} {q s : ℕ}

lemma exists_sibling (hq : 2 ≤ q) : ∃ s, s ≠ q ∧ s / 2 = q / 2 := by
  by_cases hodd : q % 2 = 0
  · exact ⟨q + 1, by omega, by omega⟩
  · exact ⟨q - 1, by omega, by omega⟩

lemma children {p a b a' b' : ℕ} (hab : a ≠ b) (ha : a / 2 = p) (hb : b / 2 = p) (hab' : a' ≠ b') (ha' : a' / 2 = p)
    (hb' : b' / 2 = p) : (a' = a ∧ b' = b) ∨ (a' = b ∧ b' = a) := by
  omega

/-- A node is right by what it and its children hold. -/
lemma NodeOk.congr {values' : List T} {losers' : List (Option ℕ)} {D' : ℕ → Prop} {W' : ℕ → ℕ}
    (h : NodeOk le values losers D W j) (hD : ∀ k, k = j ∨ k / 2 = j → (D' k ↔ D k))
    (hW : ∀ k, k = j ∨ k / 2 = j → W' k = W k) (hl : loserAt losers' j = loserAt losers j)
    (hv : ∀ a b, a / 2 = j → b / 2 = j → Below le values (W a) (W b) → Below le values' (W a) (W b)) :
    NodeOk le values' losers' D' W' j := by
  have hj := hD j (.inl rfl)
  refine ⟨fun hd => ?_, fun a b hab ha hb hDa hDb => ?_, fun a b hab ha hb hDa hDb => ?_, fun a b hab ha hb hDa hDb => ?_⟩
  · obtain ⟨a, b, hab, ha, hb, hDa, hDb, hWj, hlj, hle⟩ := h.full (hj.1 hd)
    refine ⟨a, b, hab, ha, hb, (hD a (.inr ha)).2 hDa, (hD b (.inr hb)).2 hDb, ?_⟩
    rw [hW j (.inl rfl), hW a (.inr ha), hW b (.inr hb), hl]
    exact ⟨hWj, hlj, hv a b ha hb hle⟩
  · rw [hj, hl, hW a (.inr ha)]
    exact h.half a b hab ha hb ((hD a (.inr ha)).1 hDa) (mt (hD b (.inr hb)).2 hDb)
  · rw [hj, hl]
    exact h.none a b hab ha hb (mt (hD a (.inr ha)).2 hDa) (mt (hD b (.inr hb)).2 hDb)
  · exact hj.2 (h.both a b hab ha hb ((hD a (.inr ha)).1 hDa) ((hD b (.inr hb)).1 hDb))

lemma NodeOk.of_undecided (hj : ¬ D j) (hq : q / 2 = j) (hs : s / 2 = j) (hne : s ≠ q) (hDq : ¬ D q)
    (hsome : D s → loserAt losers j = some (W s)) (hnone : ¬ D s → loserAt losers j = Option.none) :
    NodeOk le values losers D W j := by
  refine ⟨fun hd => absurd hd hj, fun a b hab ha hb hDa _ => ⟨hj, ?_⟩, fun a b hab ha hb hDa hDb => ⟨hj, ?_⟩,
    fun a b hab ha hb hDa hDb => ?_⟩
  · rcases children hne hs hq hab ha hb with ⟨rfl, rfl⟩ | ⟨rfl, rfl⟩
    · exact hsome hDa
    · exact absurd hDa hDq
  · rcases children hne hs hq hab ha hb with ⟨rfl, rfl⟩ | ⟨rfl, rfl⟩
    · exact hnone hDa
    · exact hnone hDb
  · rcases children hne hs hq hab ha hb with ⟨rfl, rfl⟩ | ⟨rfl, rfl⟩
    · exact absurd hDb hDq
    · exact absurd hDa hDq

end Nodes

namespace Tour

variable {le : T → T → Prop} {values : List T} {losers : List (Option ℕ)} {D : ℕ → Prop} {W : ℕ → ℕ} {c : ℕ}

/-- **One match.**  With both sides of the node above `c` decided, playing the match there moves `c` up. -/
theorem play (h : Tour le values losers D W c) (hc : 2 ≤ c) (hcn : c < 2 * values.length) {a b : ℕ}
    (hab : a ≠ b) (ha : a / 2 = c / 2) (hb : b / 2 = c / 2) (hDa : D a) (hDb : D b)
    (hle : Below le values (W a) (W b)) :
    Tour le values (losers.set (c / 2) (some (W b))) (fun j => D j ∨ j = c / 2)
      (fun j => if j = c / 2 then W a else W j) (c / 2) := by
  have hpn : c / 2 < values.length := by omega
  have hane : a ≠ c / 2 := by omega
  have hbne : b ≠ c / 2 := by omega
  refine ⟨by rw [length_set]; exact h.len, ?_, ?_, ?_, ?_⟩
  · intro i hi hD
    have hne : values.length + i ≠ c / 2 := by omega
    rw [if_neg hne]
    exact h.leaf i hi (hD.resolve_right hne)
  · intro j hj hjn hD
    by_cases hjp : j = c / 2
    · rw [if_pos hjp]
      exact hle.lt_left
    · rw [if_neg hjp]
      exact h.win j hj hjn (hD.resolve_right hjp)
  · intro j hj hjn hpath
    by_cases hjp : j = c / 2
    · subst hjp
      have hpair : ∀ a' b', a' ≠ b' → a' / 2 = c / 2 → b' / 2 = c / 2 → D a' ∧ D b' := by
        intro a' b' hne ha' hb'
        rcases children hab ha hb hne ha' hb' with ⟨rfl, rfl⟩ | ⟨rfl, rfl⟩
        · exact ⟨hDa, hDb⟩
        · exact ⟨hDb, hDa⟩
      refine ⟨fun _ => ⟨a, b, hab, ha, hb, .inl hDa, .inl hDb, ?_, ?_, ?_⟩, ?_, ?_, ?_⟩
      · rw [if_pos rfl, if_neg hane]
      · rw [if_neg hbne]
        exact loserAt_set_self (by rw [h.len]; exact hpn) _
      · rw [if_neg hane, if_neg hbne]
        exact hle
      · intro a' b' hne ha' hb' _ hn
        exact absurd (.inl (hpair a' b' hne ha' hb').2) hn
      · intro a' b' hne ha' hb' hn _
        exact absurd (.inl (hpair a' b' hne ha' hb').1) hn
      · exact fun _ _ _ _ _ _ _ => .inr rfl
    · -- a node off the way keeps its match: neither it nor a child of it is the node that changed
      have hne : ∀ k, k = j ∨ k / 2 = j → k ≠ c / 2 := by
        rintro k (rfl | hk) rfl
        · exact hjp rfl
        · exact hpath (hk ▸ .refl)
      have hnotc : ¬ Path (c / 2) j := fun hP => hP.eq_or_half.elim hjp hpath
      exact (h.node j hj hjn hnotc).congr (fun k hk => or_iff_left (hne k hk)) (fun k hk => if_neg (hne k hk))
        (loserAt_set_of_ne (Ne.symm hjp) _) fun _ _ _ _ hbelow => hbelow
  · intro q s hq hq2 hs hsq
    have hqle := hq.le
    have hqp : q / 2 ≠ c / 2 := by omega
    have hsp : s ≠ c / 2 := by
      rintro rfl
      rcases hq.eq_or_half with h' | h'
      · exact hs h'.symm
      · have := h'.le
        omega
    obtain ⟨h1, h2, h3⟩ := h.path q s hq.of_half hq2 hs hsq
    have hset : loserAt (losers.set (c / 2) (some (W b))) (q / 2) = loserAt losers (q / 2) :=
      loserAt_set_of_ne (Ne.symm hqp) _
    refine ⟨fun hD => h1 (hD.resolve_right hqp), fun hD => ?_, fun hD => ?_⟩
    · rw [if_neg hsp, hset]
      exact h2 (hD.resolve_right hsp)
    · rw [hset]
      exact h3 (fun h => hD (.inl h))

lemma exists_child {c j : ℕ} (h : Path (c / 2) j) : ∃ q, Path c q ∧ q / 2 = j := by
  cases h with
  | refl => exact ⟨c, .refl, rfl⟩
  | @half q h => exact ⟨q, h.of_half, rfl⟩

lemma not_decided (h : Tour le values losers D W c) {j : ℕ} (hj : Path (c / 2) j) (hj0 : 0 < j) : ¬ D j := by
  obtain ⟨q, hq, rfl⟩ := exists_child hj
  obtain ⟨s, hs, hsq⟩ := exists_sibling (q := q) (by omega)
  exact (h.path q s hq (by omega) hs hsq).1

lemma path_one (c : ℕ) (hc : 0 < c) : Path c 1 := by
  induction c using Nat.strongRecOn with
  | ind c ih =>
    rcases Nat.lt_or_ge c 2 with h | h
    · obtain rfl : c = 1 := by omega
      exact .refl
    · exact (ih (c / 2) (by omega) (by omega)).of_half

lemma deposit (h : Tour le values losers D W c) (hc : 2 ≤ c) (hcn : c < 2 * values.length) (hD : D c) {s : ℕ}
    (hs : s ≠ c) (hsc : s / 2 = c / 2) (hDs : ¬ D s) : Tour le values (losers.set (c / 2) (some (W c))) D W 1 := by
  have hnone : ¬ D (c / 2) := h.not_decided .refl (by omega)
  refine ⟨by rw [length_set]; exact h.len, h.leaf, h.win, ?_, ?_⟩
  · intro j hj hjn _
    by_cases hjp : j = c / 2
    · subst hjp
      exact .of_undecided hnone hsc rfl (Ne.symm hs) hDs (fun _ => loserAt_set_self (by rw [h.len]; omega) _)
        fun hn => absurd hD hn
    · have hset : loserAt (losers.set (c / 2) (some (W c))) j = loserAt losers j :=
        loserAt_set_of_ne (Ne.symm hjp) _
      by_cases hP : Path (c / 2) j
      · -- a node further up: the side of `c` is undecided there
        obtain ⟨q, hq, rfl⟩ := exists_child hP
        have hq2 : 2 ≤ q := by omega
        have hDq : ¬ D q := by
          rcases hq.eq_or_half with rfl | hq'
          · exact absurd rfl hjp
          · exact h.not_decided hq' (by omega)
        obtain ⟨s', hs', hsq⟩ := exists_sibling hq2
        obtain ⟨h1, h2, h3⟩ := h.path q s' hq hq2 hs' hsq
        exact .of_undecided h1 rfl hsq hs' hDq (fun hd => hset.trans (h2 hd)) fun hd => hset.trans (h3 hd)
      · exact (h.node j hj hjn hP).congr (fun _ _ => Iff.rfl) (fun _ _ => rfl) hset fun _ _ _ _ hbelow => hbelow
  · intro q _ hq _
    have := hq.le
    omega

lemma set_zero (h : Tour le values losers D W c) (w : ℕ) : Tour le values (losers.set 0 (some w)) D W c := by
  have hset : ∀ j, 0 < j → loserAt (losers.set 0 (some w)) j = loserAt losers j := fun j hj =>
    loserAt_set_of_ne (by omega) _
  refine ⟨by rw [length_set]; exact h.len, h.leaf, h.win, ?_, ?_⟩
  · intro j hj hjn hP
    exact (h.node j hj hjn hP).congr (fun _ _ => Iff.rfl) (fun _ _ => rfl) (hset j hj) fun _ _ _ _ hbelow => hbelow
  · intro q s hq hq2 hs hsq
    rw [hset (q / 2) (by omega)]
    exact h.path q s hq hq2 hs hsq

lemma node_one (h : Tour le values losers D W 1) {j : ℕ} (hj : 0 < j) (hjn : j < values.length) :
    NodeOk le values losers D W j := by
  refine h.node j hj hjn fun hP => ?_
  have := hP.le
  omega

/-- All nodes are decided, from the leaves up. -/
lemma all_decided (h : Tour le values losers D W 1) (hleaf : ∀ i < values.length, D (values.length + i)) (j : ℕ)
    (hj : 0 < j) (hjn : j < 2 * values.length) : D j := by
  induction hm : 2 * values.length - j using Nat.strongRecOn generalizing j with
  | ind m ih =>
    rcases Nat.lt_or_ge j values.length with hlt | hge
    · exact (h.node_one hj hlt).both (2 * j) (2 * j + 1) (by omega) (by omega) (by omega)
        (ih _ (by omega) _ (by omega) (by omega) rfl) (ih _ (by omega) _ (by omega) (by omega) rfl)
    · obtain ⟨i, rfl⟩ := Nat.exists_eq_add_of_le hge
      exact hleaf i (by omega)

end Tour

section Loops

variable [ComparableForLoserTree T] {le : T → T → Prop} {values : List T}

/-- A tournament with the winner, if there is one, at entry `0`. -/
def Decided (le : T → T → Prop) (values : List T) (losers : List (Option ℕ)) (D : ℕ → Prop) : Prop :=
  ∃ W, Tour le values losers D W 1 ∧ (D 1 → loserAt losers 0 = some (W 1))

/-- **A winner that climbs leaves a tournament.** -/
theorem insertLoop_spec (hle : Compat le) : ∀ (fuel : ℕ) {losers : List (Option ℕ)} {D : ℕ → Prop} {W : ℕ → ℕ} {c : ℕ},
    Tour le values losers D W c → 0 < c → c < 2 * values.length → D c → c / 2 ≤ fuel →
    ∃ D', Decided le values (insertLoop values fuel losers (W c) (c / 2)) D' ∧
      ∀ j, values.length ≤ j → (D' j ↔ D j) := by
  intro fuel
  -- at the root the winner goes to entry `0`
  have root : ∀ {losers : List (Option ℕ)} {D : ℕ → Prop} {W : ℕ → ℕ} {c : ℕ}, Tour le values losers D W c →
      0 < c → c < 2 * values.length → c / 2 = 0 → Decided le values (losers.set 0 (some (W c))) D := by
    intro losers D W c h hc hcn h0
    obtain rfl : c = 1 := by omega
    exact ⟨W, h.set_zero _, fun _ => loserAt_set_self (by rw [h.len]; omega) _⟩
  induction fuel with
  | zero =>
    intro losers D W c h hc hcn _ hf
    have h0 : c / 2 = 0 := by omega
    rw [h0]
    exact ⟨D, root h hc hcn h0, fun _ _ => Iff.rfl⟩
  | succ fuel ih =>
    intro losers D W c h hc hcn hD _
    rw [insertLoop]
    by_cases h0 : c / 2 = 0
    · rw [h0]
      exact ⟨D, root h hc hcn h0, fun _ _ => Iff.rfl⟩
    · rw [if_neg h0]
      have hc2 : 2 ≤ c := by omega
      obtain ⟨s, hs, hsc⟩ := exists_sibling hc2
      obtain ⟨_, hsome, hnone⟩ := h.path c s .refl hc2 hs hsc
      by_cases hDs : D s
      · rw [hsome hDs]
        simp only
        have hWs := h.win s (by omega) (by omega) hDs
        have hWc := h.win c hc hcn hD
        obtain ⟨hlt, hge⟩ := below_of_valueLt hle hWs hWc
        -- whichever of the two wins, it climbs on from the node above `c`
        have climb : ∀ a b, a ≠ b → a / 2 = c / 2 → b / 2 = c / 2 → D a → D b → Below le values (W a) (W b) →
            ∃ D', Decided le values (insertLoop values fuel (losers.set (c / 2) (some (W b))) (W a) (c / 2 / 2)) D' ∧
              ∀ j, values.length ≤ j → (D' j ↔ D j) := by
          intro a b hab ha hb hDa hDb hbelow
          obtain ⟨D', h1, h2⟩ := ih (h.play hc2 hcn hab ha hb hDa hDb hbelow) (by omega) (by omega)
            (.inr rfl) (by omega)
          simp only [if_true] at h1
          refine ⟨D', h1, fun j hj => ?_⟩
          rw [h2 j hj]
          exact ⟨fun hd => hd.resolve_right (by omega), .inl⟩
        cases hv : valueLt values (W s) (W c) with
        | true =>
          exact climb s c hs hsc rfl hDs hD (hlt hv)
        | false =>
          exact climb c s (Ne.symm hs) rfl hsc hD hDs (hge hv)
      · rw [hnone hDs]
        refine ⟨D, ⟨W, h.deposit hc2 hcn hD hs hsc hDs, fun hd => ?_⟩, fun _ _ => Iff.rfl⟩
        exact absurd hd (h.not_decided (Tour.path_one (c / 2) (by omega)) (by omega))

lemma adjustLoop_eq_insertLoop : ∀ fuel losers winner node, node ≤ fuel →
    (∀ q, Path node q → q ≠ 0 → loserAt losers q ≠ none) →
    adjustLoop values fuel losers winner node = insertLoop values fuel losers winner node := by
  intro fuel
  induction fuel with
  | zero =>
    intro losers winner node hn _
    obtain rfl : node = 0 := by omega
    rfl
  | succ fuel ih =>
    intro losers _ node _ hne
    rw [adjustLoop, insertLoop]
    by_cases h0 : node = 0
    · rw [if_pos h0, if_pos h0, h0]
    · rw [if_neg h0]
      cases hl : loserAt losers node with
      | none => exact absurd hl (hne node .refl h0)
      | some challenger =>
        have hbelow : ∀ q, Path (node / 2) q → q ≠ node := by
          intro q hq
          have := hq.le
          omega
        simp only
        rw [set_loserAt hl]
        split
        · refine ih _ _ _ (by omega) fun q hq hq0 => ?_
          rw [loserAt_set_of_ne (Ne.symm (hbelow q hq))]
          exact hne q hq.of_half hq0
        · exact ih _ _ _ (by omega) fun q hq hq0 => hne q hq.of_half hq0

end Loops

/-! ### Trees -/

/-- The invariant of a loser tree: it is a decided tournament, and entry `0` is its winner. -/
def LoserTree.Wf (le : T → T → Prop) (t : LoserTree T) : Prop :=
  0 < t.values.length ∧ ∃ D W, Tour le t.values t.losers D W 1 ∧ (∀ i < t.values.length, D (t.values.length + i)) ∧
    loserAt t.losers 0 = some (W 1)

section Trees

variable {le : T → T → Prop}

variable {losers : List (Option ℕ)} {values : List T}

lemma LoserTree.Wf.congr {κ : Type} {f : T → κ} {r : κ → κ → Prop} {values' : List T}
    (h : LoserTree.Wf (fun a b => r (f a) (f b)) ⟨losers, values⟩) (hv : values'.map f = values.map f) :
    LoserTree.Wf (fun a b => r (f a) (f b)) ⟨losers, values'⟩ := by
  obtain ⟨hne, D, W, htour, hleaf, h0⟩ := h
  have hlen : values'.length = values.length := by simpa using congrArg length hv
  refine ⟨by simpa only [hlen] using hne, D, W, ?_, by simpa only [hlen] using hleaf, h0⟩
  refine ⟨by rw [hlen]; exact htour.len, by rw [hlen]; exact htour.leaf, by rw [hlen]; exact htour.win, ?_, htour.path⟩
  rw [hlen]
  intro j hj hjn hP
  refine (htour.node j hj hjn hP).congr (fun _ _ => Iff.rfl) (fun _ _ => rfl) rfl ?_
  rintro a b - - ⟨x, y, hx, hy, hxy⟩
  obtain ⟨x', hx', ex⟩ := Lib.exists_of_map_eq hv hx
  obtain ⟨y', hy', ey⟩ := Lib.exists_of_map_eq hv hy
  exact ⟨x', y', hx', hy', by simpa only [ex, ey] using hxy⟩

lemma Tour.empty (values : List T) :
    Tour le values (replicate values.length none) (fun _ => False) (fun _ => 0) 1 := by
  refine ⟨by simp, fun _ _ h => h.elim, fun _ _ _ h => h.elim, fun j _ _ _ => ?_, ?_⟩
  · refine ⟨fun h => h.elim, fun _ _ _ _ _ h => h.elim, fun _ _ _ _ _ _ _ => ⟨id, ?_⟩, fun _ _ _ _ _ h => h.elim⟩
    unfold loserAt
    rw [getElem?_replicate]
    split <;> rfl
  · intro q s hq _
    have := hq.le
    omega

variable {D : ℕ → Prop} {W : ℕ → ℕ}

section Tour

variable (h : Tour le values losers D W 1)

include h

lemma Tour.arrive {i : ℕ} (hi : i < values.length) (hD : ¬ D (values.length + i)) :
    Tour le values losers (fun j => D j ∨ j = values.length + i)
      (fun j => if j = values.length + i then i else W j) (values.length + i) := by
  -- nothing above the leaf is decided yet
  have hup : ∀ q, Path (values.length + i) q → 0 < q → ¬ D q := by
    intro q hq
    induction hq with
    | refl => exact fun _ => hD
    | @half q hq ih =>
      intro hq0 hd
      have hqle := hq.le
      obtain ⟨a, b, hab, ha, hb, hDa, hDb, -⟩ := (h.node_one hq0 (by omega)).full hd
      rcases (by omega : a = q ∨ b = q) with rfl | rfl
      · exact ih (by omega) hDa
      · exact ih (by omega) hDb
  refine ⟨h.len, ?_, ?_, ?_, ?_⟩
  · intro i' hi' hd
    by_cases he : i' = i
    · subst he
      rw [if_pos rfl]
    · rw [if_neg (by omega)]
      exact h.leaf i' hi' (hd.resolve_right (by omega))
  · intro j hj hjn hd
    by_cases he : j = values.length + i
    · rw [if_pos he]
      exact hi
    · rw [if_neg he]
      exact h.win j hj hjn (hd.resolve_right he)
  · intro j hj hjn hP
    have hne : ∀ k, k = j ∨ k / 2 = j → k ≠ values.length + i := by
      rintro k (rfl | hk) rfl
      · omega
      · exact hP (hk ▸ .refl)
    exact (h.node_one hj hjn).congr (fun k hk => or_iff_left (hne k hk)) (fun k hk => if_neg (hne k hk)) rfl
      fun _ _ _ _ hbelow => hbelow
  · intro q s hq _ hs hsq
    have hqle := hq.le
    have hsne : s ≠ values.length + i := by
      rintro rfl
      exact hs (Path.eq_of_half_eq .refl hq hsq (by omega) (by omega))
    have hDq := hup q hq (by omega)
    have hok := h.node_one (j := q / 2) (by omega) (by omega)
    refine ⟨fun hd => ?_, fun hd => ?_, fun hd => ?_⟩
    · exact hup (q / 2) (.half hq) (by omega) (hd.resolve_right (by omega))
    · rw [if_neg hsne]
      exact (hok.half s q hs hsq rfl (hd.resolve_right hsne) hDq).2
    · exact (hok.none s q hs hsq rfl (fun h => hd (.inl h)) hDq).2

variable (hD : ∀ j, 0 < j → j < 2 * values.length → D j)

include hD

lemma Tour.winner_below (j : ℕ) (hj : 0 < j) (hjn : j < 2 * values.length) : Path (values.length + W j) j := by
  induction hm : 2 * values.length - j using Nat.strongRecOn generalizing j with
  | ind m ih =>
    rcases Nat.lt_or_ge j values.length with hlt | hge
    · obtain ⟨a, b, -, ha, -, -, -, hW, -⟩ := (h.node_one hj hlt).full (hD j hj hjn)
      rw [hW, ← ha]
      exact .half (ih _ (by omega) a (by omega) (by omega) rfl)
    · obtain ⟨i, rfl⟩ := Nat.exists_eq_add_of_le hge
      rw [h.leaf i (by omega) (hD _ hj hjn)]
      exact .refl

lemma Tour.winner_path {q : ℕ}
    (hW1 : W 1 < values.length) (hq : Path (values.length + W 1) q) (hq0 : 0 < q) : W q = W 1 := by
  induction q using Nat.strongRecOn with
  | ind q ih =>
    rcases Nat.lt_or_ge q 2 with h2 | h2
    · obtain rfl : q = 1 := by omega
      rfl
    · have hqle := hq.le
      have hp := ih (q / 2) (by omega) (.half hq) (by omega)
      obtain ⟨a, b, _, ha, _, -, -, hW, -⟩ :=
        (h.node_one (by omega) (by omega)).full (hD (q / 2) (by omega) (by omega))
      by_cases haq : a = q
      · rw [← haq, ← hW, hp]
      · -- the other side would hold the same leaf
        exfalso
        have hbel := h.winner_below hD a (by omega) (by omega)
        rw [← hW, hp] at hbel
        exact haq (hbel.eq_of_half_eq hq ha (by omega) (by omega))

/-- A new value for the winner leaves the matches off its way as they are. -/
lemma Tour.replace (hW1 : W 1 < values.length) (v : T) : Tour le (values.set (W 1) v) losers
    (fun j => D j ∧ ¬ Path ((values.length + W 1) / 2) j) W (values.length + W 1) := by
  have hbelow : ∀ a, 0 < a → a < 2 * values.length → W a = W 1 → Path (values.length + W 1) a := by
    intro a ha han hWa
    rw [← hWa]
    exact h.winner_below hD a ha han
  refine ⟨by rw [length_set, h.len], ?_, ?_, ?_, ?_⟩
  · rw [length_set]
    exact fun i hi hd => h.leaf i hi hd.1
  · rw [length_set]
    exact fun j hj hjn hd => h.win j hj hjn hd.1
  · rw [length_set]
    intro j hj hjn hP
    have hoff : ∀ k, k = j ∨ k / 2 = j → ¬ Path ((values.length + W 1) / 2) k := by
      rintro k (rfl | rfl) hPk
      · exact hP hPk
      · exact hP (.half hPk)
    have hother : ∀ a, a / 2 = j → (values.set (W 1) v)[W a]? = values[W a]? := by
      intro a ha
      refine getElem?_set_ne fun hWa => ?_
      rcases (hbelow a (by omega) (by omega) hWa.symm).eq_or_half with h' | h'
      · exact hP (ha ▸ h' ▸ .refl)
      · exact hoff a (.inr ha) h'
    refine (h.node_one hj hjn).congr (fun k hk => and_iff_left (hoff k hk)) (fun _ _ => rfl) rfl ?_
    rintro a b ha hb ⟨x, y, hx, hy, hxy⟩
    exact ⟨x, y, (hother a ha).trans hx, (hother b hb).trans hy, hxy⟩
  · intro q s hq _ hs hsq
    have hqle := hq.le
    refine ⟨fun hd => hd.2 ?_, fun _ => ?_, fun hn => ?_⟩
    · exact (Path.half hq).eq_or_half.resolve_left (by omega)
    · obtain ⟨a, b, _, _, _, -, -, h6, h7, -⟩ :=
        (h.node_one (by omega) (by omega)).full (hD (q / 2) (by omega) (by omega))
      -- the winner came from the side of `q`
      have has : a ≠ s := by
        rintro rfl
        have hWa := h6.symm.trans (h.winner_path hD hW1 (.half hq) (by omega))
        exact hs ((hbelow a (by omega) (by omega) hWa).eq_of_half_eq hq hsq (by omega) (by omega))
      obtain rfl : b = s := by omega
      exact h7
    · exfalso
      refine hn ⟨hD s (by omega) (by omega), fun hPs => ?_⟩
      exact hs (hPs.of_half.eq_of_half_eq hq hsq (by omega) (by omega))

end Tour

variable [ComparableForLoserTree T]

lemma initTree_rounds (hle : Compat le) (values : List T) : ∀ m ≤ values.length, ∃ D,
    Decided le values ((range m).foldl
      (fun losers i => insertLoop values ((values.length + i) / 2) losers i ((values.length + i) / 2))
      (replicate values.length none)) D ∧ ∀ i < values.length, D (values.length + i) ↔ i < m := by
  intro m
  induction m with
  | zero => exact fun _ => ⟨_, ⟨_, Tour.empty values, fun h => h.elim⟩, by simp⟩
  | succ m ih =>
    intro _
    obtain ⟨D, ⟨W, h1, -⟩, h2⟩ := ih (by omega)
    rw [range_succ, foldl_append, foldl_cons]
    have harr := h1.arrive (i := m) (by omega) (by rw [h2 m (by omega)]; omega)
    obtain ⟨D', h3, h4⟩ := insertLoop_spec hle ((values.length + m) / 2) harr (by omega) (by omega) (.inr rfl)
      (Nat.le_refl _)
    simp only [if_true] at h3
    refine ⟨D', h3, fun i hi => ?_⟩
    rw [h4 _ (by omega), h2 i hi]
    omega

/-- **A new tree is a loser tree.** -/
theorem LoserTree.new_wf (hle : Compat le) (hne : 0 < values.length) : (new values).Wf le := by
  obtain ⟨D, ⟨W, h1, h2⟩, h3⟩ := initTree_rounds hle values values.length (Nat.le_refl _)
  have hleaf : ∀ i < values.length, D (values.length + i) := fun i hi => (h3 i hi).2 hi
  exact ⟨hne, D, W, h1, hleaf, h2 (h1.all_decided hleaf 1 (by omega) (by omega))⟩

variable {t : LoserTree T}

/-- **Replacing the winner and adjusting keeps the tree.** -/
theorem LoserTree.Wf.adjust (hle : Compat le) (h : t.Wf le) (v : T) :
    ((t.setWinner v).adjustTree).Wf le ∧ ((t.setWinner v).adjustTree).values = (t.setWinner v).values := by
  obtain ⟨hne, D, W, htour, hleaf, h0⟩ := h
  obtain ⟨losers, values⟩ := t
  simp only at hne htour hleaf h0
  have hD := htour.all_decided hleaf
  have hW1 : W 1 < values.length := htour.win 1 (by omega) (by omega) (hD 1 (by omega) (by omega))
  have htour' := htour.replace hD hW1 v
  set w := W 1 with hw
  set c := values.length + w with hc
  have hlen : (values.set w v).length = values.length := length_set
  -- every node on the way holds a challenger
  have hfull : ∀ q, Path (c / 2) q → q ≠ 0 → loserAt losers q ≠ none := by
    intro q hq _
    have hqle := hq.le
    obtain ⟨a, b, -, -, -, -, -, -, h7, -⟩ :=
      (htour.node_one (by omega) (by omega)).full (hD q (by omega) (by omega))
    rw [h7]
    simp
  have hset : (LoserTree.mk losers values).setWinner v = ⟨losers, values.set w v⟩ := by
    simp [LoserTree.setWinner, LoserTree.winner, h0]
  rw [hset]
  have hadj : (LoserTree.mk losers (values.set w v)).adjustTree =
      ⟨insertLoop (values.set w v) (c / 2) losers w (c / 2), values.set w v⟩ := by
    simp only [LoserTree.adjustTree, h0, hlen]
    rw [adjustLoop_eq_insertLoop _ _ _ _ (Nat.le_refl _) hfull]
  rw [hadj]
  refine ⟨?_, rfl⟩
  have hWc : W c = w := htour.winner_path hD hW1 .refl (by omega)
  have hDc : D c ∧ ¬ Path (c / 2) c := ⟨hD c (by omega) (by omega), fun hP => by have := hP.le; omega⟩
  obtain ⟨D', h1, h2⟩ := insertLoop_spec hle (c / 2) htour' (by omega) (by omega) hDc (Nat.le_refl _)
  rw [hWc] at h1
  obtain ⟨W', h1, h3⟩ := h1
  have hleaf' : ∀ i < (values.set w v).length, D' ((values.set w v).length + i) := by
    intro i hi
    rw [h2 _ (by omega), hlen]
    rw [hlen] at hi
    refine ⟨hleaf i hi, fun hP => ?_⟩
    have := hP.le
    omega
  refine ⟨by simp only [hlen]; exact hne, D', W', h1, hleaf', h3 ?_⟩
  exact h1.all_decided hleaf' 1 (by omega) (by rw [hlen]; omega)

/-- **The winner is a smallest value.** -/
theorem LoserTree.Wf.winner_le (hle : Compat le) (h : t.Wf le) :
    ∃ w, t.winner = some w ∧ w < t.values.length ∧ ∀ i < t.values.length, Below le t.values w i := by
  obtain ⟨_, D, W, htour, hleaf, h0⟩ := h
  have hD := htour.all_decided hleaf
  refine ⟨W 1, h0, htour.win 1 (by omega) (by omega) (hD 1 (by omega) (by omega)), fun i hi => ?_⟩
  -- on the way up from the leaf, the winner of each node is at most the value
  have hrefl : Below le t.values i i := by
    have hx : t.values[i]? = some (t.values[i]) := getElem?_eq_getElem hi
    exact ⟨_, _, hx, hx, hle.refl _⟩
  have up : ∀ q, Path (t.values.length + i) q → 0 < q → Below le t.values (W q) i := by
    intro q hq
    induction hq with
    | refl =>
      intro _
      rw [htour.leaf i hi (hleaf i hi)]
      exact hrefl
    | @half q hq ih =>
      intro hq0
      have hqle := hq.le
      obtain ⟨a, b, _, _, _, -, -, h6, -, h8⟩ :=
        (htour.node_one hq0 (by omega)).full (hD _ hq0 (by omega))
      rw [h6]
      rcases (by omega : q = a ∨ q = b) with rfl | rfl
      · exact ih (by omega)
      · exact h8.trans hle (ih (by omega))
  exact up 1 (Tour.path_one _ (by omega)) (by omega)

lemma LoserTree.Wf.adjustTree (hle : Compat le) (h : t.Wf le) :
    t.adjustTree.Wf le ∧ t.adjustTree.values = t.values := by
  obtain ⟨w, hw, hlt, -⟩ := h.winner_le hle
  have hset : t.setWinner (t.values[w]) = t := by
    unfold LoserTree.setWinner
    rw [hw]
    simp only [set_getElem_self hlt]
  obtain ⟨h1, h2⟩ := h.adjust hle (t.values[w])
  rw [hset] at h1 h2
  exact ⟨h1, h2⟩

end Trees

/-! ### Trees over other values -/

section Map

variable {T' : Type} [ComparableForLoserTree T] [ComparableForLoserTree T'] {f : T → T'}

def LoserTree.map (f : T → T') (t : LoserTree T) : LoserTree T' := ⟨t.losers, t.values.map f⟩

section Map

variable (hf : ∀ a b, lt (f a) (f b) = lt a b)

include hf

section Values

variable (values : List T)

lemma valueLt_map (a b : ℕ) : valueLt (values.map f) a b = valueLt values a b := by
  unfold valueLt
  rw [getElem?_map, getElem?_map]
  cases values[a]? with
  | none => rfl
  | some x =>
    cases values[b]? with
    | none => rfl
    | some y => exact hf x y

lemma insertLoop_map (fuel : ℕ) :
    ∀ (losers : List (Option ℕ)) (winner node : ℕ),
    insertLoop (values.map f) fuel losers winner node = insertLoop values fuel losers winner node := by
  induction fuel with
  | zero => exact fun _ _ _ => rfl
  | succ fuel ih =>
    intro _ _ _
    simp only [insertLoop, valueLt_map hf, ih]

lemma adjustLoop_map (fuel : ℕ) :
    ∀ (losers : List (Option ℕ)) (winner node : ℕ),
    adjustLoop (values.map f) fuel losers winner node = adjustLoop values fuel losers winner node := by
  induction fuel with
  | zero => exact fun _ _ _ => rfl
  | succ fuel ih =>
    intro _ _ _
    simp only [adjustLoop, valueLt_map hf, ih]

lemma LoserTree.new_map : new (values.map f) = (new values).map f := by
  simp only [new, map, initTree, length_map, insertLoop_map hf]

end Values

lemma LoserTree.adjustTree_map (t : LoserTree T) : (t.map f).adjustTree = t.adjustTree.map f := by
  unfold adjustTree map
  cases loserAt t.losers 0 with
  | none => rfl
  | some w => simp only [length_map, adjustLoop_map hf]

end Map

omit [ComparableForLoserTree T] [ComparableForLoserTree T'] in
lemma LoserTree.peekMut_map (t : LoserTree T) : (t.map f).peekMut = t.peekMut.map f := by
  unfold peekMut
  show (t.winner.bind fun w => (t.values.map f)[w]?) = _
  cases t.winner with
  | none => rfl
  | some w => simp

omit [ComparableForLoserTree T] [ComparableForLoserTree T'] in
lemma LoserTree.setWinner_map (t : LoserTree T) (v : T) : (t.map f).setWinner (f v) = (t.setWinner v).map f := by
  unfold setWinner
  show (match t.winner with | none => t.map f | some w => _) = _
  cases t.winner with
  | none => rfl
  | some w => simp [map]

end Map

end Auron.Algorithm
