import Auron.Joins.JoinHashMap

/-!
# Probing (`joins/bhj`)

What the hash joiners share: the two sides, seen as the probe side and the build side, and the search of a probe batch.

The joiners hash all rows of a probe batch and look up the hashes of the rows whose key has no null; the results are
then consumed in step with the rows (`hashes_idx`).  `probeBatch` gives each row the build rows found equal to it.
`probeBatch_spec` says that these are its partners.
-/

namespace Auron.Joins.Bhj

open Auron.Lib List JoinHashMap

variable {n : ℕ} {κ : Fin n → Type} {α : Type} {lw rw pw bw : ℕ}

inductive ProbeSide where
  | L
  | R
  deriving DecidableEq, Repr

namespace ProbeSide

abbrev probeWidth (lw rw : ℕ) : ProbeSide → ℕ
  | .L => lw
  | .R => rw

abbrev buildWidth (lw rw : ℕ) : ProbeSide → ℕ
  | .L => rw
  | .R => lw

section Projection

variable (p : JoinProjection lw rw)

/-- `match P.probe_side { L => project_left, R => project_right }`, on the probe side. -/
def projectProbe : (side : ProbeSide) → Row α (side.probeWidth lw rw) → List (Option α)
  | .L, row => p.projectLeft row
  | .R, row => p.projectRight row

/-- `match P.probe_side { L => project_right, R => project_left }`, on the build side. -/
def projectBuild : (side : ProbeSide) → Row α (side.buildWidth lw rw) → List (Option α)
  | .L, row => p.projectRight row
  | .R, row => p.projectLeft row

def probeCols : ProbeSide → ℕ
  | .L => p.left.length
  | .R => p.right.length

def buildCols : ProbeSide → ℕ
  | .L => p.right.length
  | .R => p.left.length

end Projection

def concatCols (probeCols buildCols : List (Option α)) : ProbeSide → List (Option α)
  | .L => probeCols ++ buildCols
  | .R => buildCols ++ probeCols

def evaluateFilter (joinFilter : JoinFilter α lw rw) :
    (side : ProbeSide) → Row α (side.probeWidth lw rw) → Row α (side.buildWidth lw rw) → Bool
  | .L, probeRow, buildRow => joinFilter.evaluate probeRow buildRow
  | .R, probeRow, buildRow => joinFilter.evaluate buildRow probeRow

end ProbeSide

/-- A batch of the probe side with its keys.  Row numbers are `u32` throughout. -/
structure ProbeBatch (κ : Fin n → Type) (α : Type) (w : ℕ) where
  rows : List (Key κ × Row α w)
  rows_le : rows.length ≤ 2 ^ 32

/-- The rows of a probe batch with the build rows found equal to each.  A row without null takes the next map value. -/
def matchRows (H : KeyComparator κ) (m : JoinHashMap κ α bw) :
    List (Key κ × Row α pw) → List MapValue → Option (List ((Key κ × Row α pw) × List ℕ))
  | [], _ => some []
  | x :: rows, mapValues => do
    if x.1.hasNull then some ((x, []) :: (← matchRows H m rows mapValues))
    else
      match mapValues with
      | [] => none
      | v :: mapValues => some ((x, ← m.matchedIndices H x.1 v) :: (← matchRows H m rows mapValues))

/-- `map.lookup_many` of the hashes of the rows without null, and what it finds for each row. -/
def probeBatch (H : KeyComparator κ) (m : JoinHashMap κ α bw) (rows : List (Key κ × Row α pw)) :
    Option (List ((Key κ × Row α pw) × List ℕ)) := do
  let probedHashes := (rows.filter fun x => !x.1.hasNull).map fun x => H.hash x.1
  let mapValues ← m.table.lookupMany probedHashes
  matchRows H m rows mapValues

/-- The loop of `execute_join_with_map` over the probe batches, which ends early if the joiner says so. -/
def probeAll {J B : Type} (canEarlyStop : J → Bool) (join : B → J → Option J) : List B → J → Option J
  | [], joiner => some joiner
  | batch :: batches, joiner => do
    if canEarlyStop joiner then some joiner else probeAll canEarlyStop join batches (← join batch joiner)

variable [∀ i, DecidableEq (κ i)]

def Found (build : List (Key κ × Row α bw)) (x : Key κ × Row α pw) (found : (Key κ × Row α pw) × List ℕ) : Prop :=
  found.1 = x ∧ found.2.Perm (partnerIndices build x.1)

lemma partnerIndices_of_allNull {build : List (Key κ × Row α bw)}
    (hnull : (build.all fun x => x.1.hasNull) = true) (k : Key κ) : partnerIndices build k = [] := by
  unfold partnerIndices
  rw [map_eq_nil_iff, filter_eq_nil_iff]
  intro x hx
  have hmem := mem_of_getElem? (mk_mem_zipIdx_iff_getElem?.1 hx)
  have := all_eq_true.1 hnull _ hmem
  simp [partners, this]

lemma map_partnerIndices (build : List (Key κ × Row α bw)) (k : Key κ) :
    (partnerIndices build k).map (fun i => build[i]?) = (build.filter fun y => partners k y.1).map some := by
  have hget : ∀ y ∈ build.zipIdx.filter fun y => partners k y.1.1, build[y.2]? = some y.1 := fun y hy =>
    mk_mem_zipIdx_iff_getElem?.1 (mem_of_mem_filter hy)
  have hfst : build.filter (fun y => partners k y.1) = (build.zipIdx.filter fun y => partners k y.1.1).map Prod.fst := by
    conv_lhs => rw [← zipIdx_map_fst 0 build, filter_map]
    rfl
  unfold partnerIndices
  rw [map_map, hfst, map_map]
  exact map_congr_left hget

section Found

variable {build : List (Key κ × Row α bw)} {x : Key κ × Row α pw} {found : (Key κ × Row α pw) × List ℕ}

variable (h : Found build x found)

include h

lemma Found.lt_length {i : ℕ} (hi : i ∈ found.2) : i < build.length := by
  obtain ⟨y, hy, rfl⟩ := mem_map.1 (h.2.mem_iff.1 hi)
  have := mk_mem_zipIdx_iff_getElem?.1 (mem_of_mem_filter hy)
  exact lt_of_getElem? this

lemma Found.mem_iff {y : (Key κ × Row α bw) × ℕ} (hy : y ∈ build.zipIdx) :
    y.2 ∈ found.2 ↔ partners x.1 y.1.1 = true := by
  rw [h.2.mem_iff]
  unfold partnerIndices
  rw [mem_map]
  constructor
  · rintro ⟨z, hz, hzy⟩
    have hz' := mk_mem_zipIdx_iff_getElem?.1 (mem_of_mem_filter hz)
    rw [hzy, mk_mem_zipIdx_iff_getElem?.1 hy, Option.some.injEq] at hz'
    rw [hz']
    exact (mem_filter.1 hz).2
  · intro hp
    exact ⟨y, mem_filter.2 ⟨hy, hp⟩, rfl⟩

lemma Found.isEmpty_eq : found.2.isEmpty = !hasPartner (fun l r => partners l.1 r.1) build x := by
  have hlen : found.2.length = (build.filter fun y => partners x.1 y.1).length := by
    rw [h.2.length_eq, ← length_map (fun i => build[i]?), map_partnerIndices, length_map]
  rw [Bool.eq_iff_iff, List.isEmpty_iff, ← length_eq_zero_iff, hlen, length_eq_zero_iff]
  simp [hasPartner]

end Found

/-- **Probing finds the partners of each row.** -/
theorem probeBatch_spec {H : KeyComparator κ} {keys : Key κ → Prop} {m : JoinHashMap κ α bw}
    {build : List (Key κ × Row α bw)} (hm : m.Maps H keys build) {rows : List (Key κ × Row α pw)}
    (hkeys : ∀ x ∈ rows, keys x.1) : ∃ found, probeBatch H m rows = some found ∧ Forall₂ (Found build) rows found := by
  suffices h : ∃ mapValues found, m.table.lookupMany ((rows.filter fun x => !x.1.hasNull).map fun x => H.hash x.1) =
      some mapValues ∧ matchRows H m rows mapValues = some found ∧ Forall₂ (Found build) rows found by
    obtain ⟨mapValues, found, hlookup, hmatch, hfound⟩ := h
    exact ⟨found, by simp [probeBatch, hlookup, hmatch], hfound⟩
  induction rows with
  | nil => exact ⟨[], [], rfl, rfl, .nil⟩
  | cons x rows ih =>
    obtain ⟨hkey, hkeys⟩ := forall_mem_cons.1 hkeys
    obtain ⟨mapValues, found, hlookup, hmatch, hfound⟩ := ih hkeys
    by_cases hx : x.1.hasNull = true
    · refine ⟨mapValues, (x, []) :: found, ?_, by simp [matchRows, hx, hmatch], .cons ⟨rfl, ?_⟩ hfound⟩
      · rwa [filter_cons_of_neg (by simpa using hx)]
      · simp [partnerIndices, partners, hx]
    · have hx' : x.1.hasNull = false := by simpa using hx
      obtain ⟨v, idxs, hv, hidxs, hperm⟩ := hm.lookup x.1 hkey hx'
      refine ⟨v :: mapValues, (x, idxs) :: found, ?_, by simp [matchRows, hx, hmatch, hidxs], .cons ⟨rfl, hperm⟩ hfound⟩
      rw [filter_cons_of_pos (by simpa using hx'), map_cons]
      unfold Table.lookupMany at hlookup ⊢
      rw [collect, hv, hlookup]

end Auron.Joins.Bhj
