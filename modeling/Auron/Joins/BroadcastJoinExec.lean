import Auron.Joins.Bhj.FullJoin
import Auron.Joins.Bhj.SemiJoin
import Auron.Joins.SortMergeJoinExec
import Auron.Sort.Correct

/-!
# The hash join operator and its fallback (`broadcast_join_exec.rs`)

One side is built.  If it fits, a hash map is made of it and `execute_join_with_map` probes the map with the other side.
If it does not, it comes as a stream sorted by its keys, and `execute_join_with_smj_fallback` sorts the probe side with
the external sorter and runs a sort-merge join.

The paths share the join type, the keys and the residual condition.  The sort-merge join has no null-aware anti join, and
its parameters are created without the flag.  The hash path compares keys with `EqComparator` and the fallback by their
encoding.  `executions_spec` says what either path outputs if these agree on the keys of the two sides; the paths then
agree unless the join is a null-aware anti join of the probe side, and that on the inputs of `fallback_agrees_iff`.
-/

namespace Auron.Joins

open Auron.Io Auron.Lib Auron.Sort Auron.Joins.Bhj List ExternalSorter.Op JoinProjection ExternalSorter

variable {n : ℕ} {κ : Fin n → Type} {α : Type} {lw rw w : ℕ}

/-- `JoinSide`, of the side that is built. -/
inductive JoinSide where
  | left
  | right
  deriving DecidableEq, Repr

abbrev JoinSide.probeSide : JoinSide → ProbeSide
  | .left => .R
  | .right => .L

abbrev JoinSide.pw (lw rw : ℕ) (side : JoinSide) : ℕ := side.probeSide.probeWidth lw rw

abbrev JoinSide.bw (lw rw : ℕ) (side : JoinSide) : ℕ := side.probeSide.buildWidth lw rw

namespace BroadcastJoinExec

def createJoinParams (joinType : JoinType) (joinFilter : Option (JoinFilter α lw rw)) (batchSize : ℕ)
    (isNullAwareAntiJoin : Bool) : JoinParams α lw rw where
  projection := .all lw rw joinType
  joinFilter := joinFilter
  batchSize := batchSize
  isNullAwareAntiJoin := isNullAwareAntiJoin

/-- The rows sent by an inner or outer joiner. -/
def fullJoin (P : JoinerParams) (p : JoinParams α lw rw) (H : KeyComparator κ) (m : JoinHashMap κ α (P.bw lw rw))
    (probed : List (ProbeBatch κ α (P.pw lw rw))) : Option (List (List (Option α))) :=
  (FullJoiner.executeJoinWithMap P p H m probed).map (·.sent.flatten)

def semiJoin (P : SemiJoinerParams) (p : JoinParams α lw rw) (ofBool : Bool → α) (H : KeyComparator κ)
    (m : JoinHashMap κ α (P.bw lw rw)) (probed : List (ProbeBatch κ α (P.pw lw rw))) : Option (List (List (Option α))) :=
  (SemiJoiner.executeJoinWithMap P p ofBool H m probed).map (·.sent.flatten)

/-- `execute_join_with_map`: the rows sent by the joiner that the broadcast side and the join type pick. -/
def executeJoinWithMap (p : JoinParams α lw rw) (ofBool : Bool → α) (H : KeyComparator κ) :
    (broadcastSide : JoinSide) → JoinType → JoinHashMap κ α (broadcastSide.bw lw rw) →
    List (ProbeBatch κ α (broadcastSide.pw lw rw)) → Option (List (List (Option α)))
  | .left, .inner => fullJoin .rightProbedInner p H
  | .left, .left => fullJoin .rightProbedLeft p H
  | .left, .right => fullJoin .rightProbedRight p H
  | .left, .full => fullJoin .rightProbedOuter p H
  | .left, .leftSemi => semiJoin .rightProbedLeftSemi p ofBool H
  | .left, .leftAnti => semiJoin .rightProbedLeftAnti p ofBool H
  | .left, .rightSemi => semiJoin .rightProbedRightSemi p ofBool H
  | .left, .rightAnti => semiJoin .rightProbedRightAnti p ofBool H
  | .left, .existence => semiJoin .rightProbedExistence p ofBool H
  | .right, .inner => fullJoin .leftProbedInner p H
  | .right, .left => fullJoin .leftProbedLeft p H
  | .right, .right => fullJoin .leftProbedRight p H
  | .right, .full => fullJoin .leftProbedOuter p H
  | .right, .leftSemi => semiJoin .leftProbedLeftSemi p ofBool H
  | .right, .leftAnti => semiJoin .leftProbedLeftAnti p ofBool H
  | .right, .rightSemi => semiJoin .leftProbedRightSemi p ofBool H
  | .right, .rightAnti => semiJoin .leftProbedRightAnti p ofBool H
  | .right, .existence => semiJoin .leftProbedExistence p ofBool H

/-- The sort of the probe side: its key expressions, of which a join has at least one, and the third-party parts of the
sorter.  The converter of the sort encodes a key as the join does. -/
structure ProbeSort (E : KeyEncoding κ) (α : Type) (w : ℕ) where
  keyExprs : List (SortExpr (Option α) w)
  keyExprs_ne_nil : keyExprs ≠ []
  sortRowConverter : RowConverter (Option α) keyExprs.length
  io : SpillIo (Option α)
  sort : SortUnstable
  /-- The key of a row. -/
  keyOf : Row α w → Key κ
  encode_keyOf : ∀ row, sortRowConverter.convertColumns (keyExprs.map fun e => e.evaluate row) = E.encode (keyOf row)

/-- `create_default_ascending_sort_exec`, executed for certain columns with key rows. -/
def ProbeSort.config {E : KeyEncoding κ} (S : ProbeSort E α w) (is : List (Fin w)) : SorterConfig (Option α) w where
  prune := ⟨is, S.keyExprs, S.sortRowConverter⟩
  skip := 0
  limit := none
  withKeyRows := true
  io := S.io
  sort := S.sort

open SortMergeJoinExec

/-- The sorted probe side as a child of the sort-merge join; `ops` are the calls on the sorter, the spills the memory
manager asks for included. -/
def sortedChild {E : KeyEncoding κ} (S : ProbeSort E α w) (ops : List (ExternalSorter.Op (Option α) w))
    (subBatchSize outputBatchSize : ℕ+) : Child α w := fun is =>
  match run (S.config is) ops subBatchSize outputBatchSize with
  | .ok sent => some (sent.map fun s => (s.keyRows.getD []).zip s.batch)
  | .error _ => none

/-- The built side, without its table column, as a child of the sort-merge join. -/
def builtChild (E : KeyEncoding κ) (built : List (List (Key κ × Row α w))) : Child α w := fun is =>
  some (built.map fun batch => batch.map fun x => (E.encode x.1, is.map x.2.get))

def executeJoinWithSmjFallback (joinType : JoinType) (joinFilter : Option (JoinFilter α lw rw)) (batchSize : ℕ)
    (ofBool : Bool → α) (hasNulls : Bytes → Bool) :
    (broadcastSide : JoinSide) → Child α (broadcastSide.bw lw rw) → Child α (broadcastSide.pw lw rw) →
    Option (List (List (Option α)))
  | .left, built, probed => SortMergeJoinExec.execute joinType joinFilter batchSize ofBool hasNulls built probed
  | .right, built, probed => SortMergeJoinExec.execute joinType joinFilter batchSize ofBool hasNulls probed built

/-! ### The children of the fallback -/

lemma keyOf_config {E : KeyEncoding κ} (S : ProbeSort E α w) (is : List (Fin w)) (row : Row α w) :
    (S.config is).prune.keyOf row = E.encode (S.keyOf row) := S.encode_keyOf row

/-- **The sorter makes a child of the probe side**: it gives all rows, in the order of their keys. -/
theorem sorts_sortedChild {E : KeyEncoding κ} (S : ProbeSort E α w) (ops : List (ExternalSorter.Op (Option α) w))
    (hsmall : ∀ op ∈ ops, op.rows.length < 2 ^ 32) (hready : spillsReady false ops = true)
    (htotal : (ops.flatMap rows).length < 2 ^ 64) (subBatchSize outputBatchSize : ℕ+) :
    Child.Sorts E (sortedChild S ops subBatchSize outputBatchSize)
      ((ops.flatMap rows).map fun row => (S.keyOf row, row)) := by
  intro is his
  have hrestores : (S.config is).prune.Restores := by
    rcases his with his | his
    · exact PruneSortKeysFromBatch.restores_of_identity _ his
    · exact PruneSortKeysFromBatch.restores_of_nil _ his
  obtain ⟨rowss, hrun, hkeys, hsub⟩ := run_spec (S.config is) S.keyExprs_ne_nil hrestores (fun _ h => by cases h) ops
    hsmall hready subBatchSize outputBatchSize
  have hlimit : (S.config is).limitNum = 2 ^ 64 - 1 := rfl
  have hall : rowss.flatten.map (S.config is).prune.keyOf =
      ascending ((ops.flatMap rows).map (S.config is).prune.keyOf) := by
    rw [hkeys, take_of_length_le (by rw [length_ascending, length_map]; omega)]
    rfl
  have hperm : rowss.flatten.Perm (ops.flatMap rows) := by
    refine hsub.perm_of_length_le ?_
    have := congrArg length hall
    rw [length_map, length_ascending, length_map] at this
    exact this.ge
  refine ⟨rowss.flatten.map fun row => (S.keyOf row, row), rowss.map fun rows =>
    rows.map fun row => (E.encode (S.keyOf row), is.map row.get), hperm.map _, ?_, ?_, ?_⟩
  · have hsorted := ascending_pairwise ((ops.flatMap rows).map (S.config is).prune.keyOf)
    rw [← hall, pairwise_map] at hsorted
    unfold SortedByKey
    rw [map_map, pairwise_map]
    simp only [keyOf_config] at hsorted
    exact hsorted
  · unfold sortedChild
    rw [hrun]
    simp only [map_map]
    congr 1
    refine map_congr_left fun rows _ => ?_
    show zip (rows.map (S.config is).prune.keyOf) (rows.map (S.config is).prune.projectRow) = _
    rw [zip_map']
    exact map_congr_left fun row _ => by rw [keyOf_config]; rfl
  · rw [← map_flatten, map_map]
    rfl

lemma sorts_builtChild (E : KeyEncoding κ) {built : List (List (Key κ × Row α w))} {build : List (Key κ × Row α w)}
    (hperm : built.flatten.Perm build) (hsorted : SortedByKey (built.flatten.map E.keyed)) :
    Child.Sorts E (builtChild E built) build := by
  intro _ _
  refine ⟨built.flatten, _, hperm, hsorted, rfl, ?_⟩
  rw [map_flatten]

/-! ### What the paths output -/

variable [∀ i, DecidableEq (κ i)]

def relationalOf (joinType : JoinType) (p : JoinParams α lw rw) (ofBool : Bool → α) :
    (broadcastSide : JoinSide) → List (Key κ × Row α (broadcastSide.pw lw rw)) →
    List (Key κ × Row α (broadcastSide.bw lw rw)) → List (List (Option α))
  | .left, probe, build => joinType.relational p ofBool build probe
  | .right, probe, build => joinType.relational p ofBool probe build

section Paths

variable (E : KeyEncoding κ) (H : KeyComparator κ) (broadcastSide : JoinSide) (joinType : JoinType)
  (joinFilter : Option (JoinFilter α lw rw)) (hfilter : joinFilter.isSome → joinType = .inner) (batchSize : ℕ)
  (flag : Bool) (ofBool : Bool → α)

include hfilter in
/-- **The fallback computes the relational join.** -/
theorem executeJoinWithSmjFallback_spec {built : Child α (broadcastSide.bw lw rw)}
    {probed : Child α (broadcastSide.pw lw rw)} {build : List (Key κ × Row α (broadcastSide.bw lw rw))}
    {probe : List (Key κ × Row α (broadcastSide.pw lw rw))} (hbuilt : Child.Sorts E built build)
    (hprobed : Child.Sorts E probed probe) :
    ∃ rows, executeJoinWithSmjFallback joinType joinFilter batchSize ofBool E.hasNulls broadcastSide built probed =
        some rows ∧
      rows.Perm (relationalOf joinType (createJoinParams joinType joinFilter batchSize flag) ofBool broadcastSide probe
        build) := by
  -- the flag does not matter for the relational join
  have hflag : ∀ (L : List (Key κ × Row α lw)) (R : List (Key κ × Row α rw)),
      joinType.relational (SortMergeJoinExec.createJoinParams joinType joinFilter batchSize) ofBool L R =
        joinType.relational (createJoinParams joinType joinFilter batchSize flag) ofBool L R := by
    intro L R
    cases joinType <;> rfl
  cases broadcastSide with
  | left =>
    obtain ⟨rows, hrows, hperm⟩ := execute_spec E joinType joinFilter hfilter batchSize ofBool hbuilt hprobed
    exact ⟨rows, hrows, hperm.trans (.of_eq (hflag _ _))⟩
  | right =>
    obtain ⟨rows, hrows, hperm⟩ := execute_spec E joinType joinFilter hfilter batchSize ofBool hprobed hbuilt
    exact ⟨rows, hrows, hperm.trans (.of_eq (hflag _ _))⟩

def nullAwareAnti (broadcastSide : JoinSide) (joinType : JoinType) (flag : Bool) : Bool :=
  match broadcastSide, joinType with
  | .right, .leftAnti => flag
  | .left, .rightAnti => flag
  | _, _ => false

/-- The rows the hash path outputs: for a null-aware anti join of the probe side the probe rows that are neither left out
nor have a partner, and otherwise the relational join. -/
def hashRows (joinType : JoinType) (p : JoinParams α lw rw) (ofBool : Bool → α) (broadcastSide : JoinSide)
    (probe : List (Key κ × Row α (broadcastSide.pw lw rw))) (build : List (Key κ × Row α (broadcastSide.bw lw rw))) :
    List (List (Option α)) :=
  if nullAwareAnti broadcastSide joinType p.isNullAwareAntiJoin then
    (probe.filter fun x => !(x.1.hasNull || build.any fun y => y.1.hasNull) &&
      !build.any fun y => partners x.1 y.1).map fun x => x.2.toList
  else relationalOf joinType p ofBool broadcastSide probe build

lemma relationalSemiJoin_eq (P : Smj.JoinerParams) (ofBool : Bool → α) (left : List (Key κ × Row α lw))
    (right : List (Key κ × Row α rw)) :
    Smj.relationalSemiJoin P left right =
      match P.joinSide with
      | .L => SemiJoiner.relationalRows (if P.semi then .semi else .anti) ofBool left right
      | .R => SemiJoiner.relationalRows (if P.semi then .semi else .anti) ofBool right left := by
  obtain ⟨side, semi⟩ := P
  unfold Smj.relationalSemiJoin SemiJoiner.relationalRows
  cases side with
  | L => cases semi <;> simp [SemiJoiner.sideRows]
  | R => cases semi <;> simp [SemiJoiner.sideRows, partners_comm]

section Cases

variable {H : KeyComparator κ} {keys : Key κ → Prop} {p : JoinParams α lw rw} {ofBool : Bool → α}

lemma full_case (P : JoinerParams) {m : JoinHashMap κ α (P.bw lw rw)}
    {build : List (Key κ × Row α (P.bw lw rw))} (hm : m.Maps H keys build) (hproj : p.projection = .identity lw rw)
    {probed : List (ProbeBatch κ α (P.pw lw rw))} (hkeys : ∀ x ∈ probed.flatMap (·.rows), keys x.1)
    (hfilter : p.joinFilter.isSome → P.probeSideOuter = false ∧ P.buildSideOuter = false) :
    ∃ rows, fullJoin P p H m probed = some rows ∧
      rows.Perm (FullJoiner.relationalJoin P p (probed.flatMap (·.rows)) build) := by
  obtain ⟨J, hJ, hperm⟩ := FullJoiner.executeJoinWithMap_spec hm hproj hfilter probed hkeys
  exact ⟨_, by rw [fullJoin, hJ, Option.map_some], hperm⟩

variable (P : SemiJoinerParams) {m : JoinHashMap κ α (P.bw lw rw)} {build : List (Key κ × Row α (P.bw lw rw))}
  (hm : m.Maps H keys build) (hproj : P.KeepsAll p.projection) (hcols : 0 < P.joinWidth lw rw + P.extraCols)
  {probed : List (ProbeBatch κ α (P.pw lw rw))} (hkeys : ∀ x ∈ probed.flatMap (·.rows), keys x.1)

include hm hproj hcols hkeys

lemma semi_case (haware : SemiJoiner.nullAware P p = false) {out : List (List (Option α))}
    (hout : (if P.probeIsJoinSide then SemiJoiner.relationalRows P.mode ofBool (probed.flatMap (·.rows)) build
      else SemiJoiner.relationalRows P.mode ofBool build (probed.flatMap (·.rows))) = out) :
    ∃ rows, semiJoin P p ofBool H m probed = some rows ∧ rows.Perm out := by
  obtain ⟨J, hJ, hsent⟩ := SemiJoiner.executeJoinWithMap_rows hm hproj hcols ofBool probed hkeys
  rw [SemiJoiner.resultRows_relational haware, hout] at hsent
  exact ⟨_, by rw [semiJoin, hJ, Option.map_some], .of_eq hsent⟩

lemma anti_case (hmode : P.mode = .anti) (hside : P.probeIsJoinSide = true) {rel : List (List (Option α))}
    (hrel : SemiJoiner.relationalRows .anti ofBool (probed.flatMap (·.rows)) build = rel) :
    ∃ rows, semiJoin P p ofBool H m probed = some rows ∧
      rows.Perm (if p.isNullAwareAntiJoin then
        ((probed.flatMap (·.rows)).filter fun x => !(x.1.hasNull || build.any fun y => y.1.hasNull) &&
          !build.any fun y => partners x.1 y.1).map fun x => x.2.toList
      else rel) := by
  cases hflag : p.isNullAwareAntiJoin with
  | false =>
    have haware : SemiJoiner.nullAware P p = false := by simp [SemiJoiner.nullAware, hflag]
    refine semi_case P hm hproj hcols hkeys haware ?_
    rw [hside, hmode]
    exact hrel
  | true =>
    have haware : SemiJoiner.nullAware P p = true := by simp [SemiJoiner.nullAware, hflag, hmode, hside]
    obtain ⟨J, hJ, hsent⟩ := SemiJoiner.executeJoinWithMap_rows hm hproj hcols ofBool probed hkeys
    refine ⟨_, by rw [semiJoin, hJ, Option.map_some], .of_eq ?_⟩
    rw [hsent, SemiJoiner.resultRows_nullAware haware]
    simp [SemiJoiner.probeBit, haware]

end Cases

include hfilter in
/-- **What the hash path outputs.** -/
theorem executeJoinWithMap_spec (hlw : 0 < lw) (hrw : 0 < rw) {m : JoinHashMap κ α (broadcastSide.bw lw rw)}
    {build : List (Key κ × Row α (broadcastSide.bw lw rw))} {keys : Key κ → Prop} (hm : m.Maps H keys build)
    {probed : List (ProbeBatch κ α (broadcastSide.pw lw rw))} (hkeys : ∀ x ∈ probed.flatMap (·.rows), keys x.1) :
    ∃ rows, executeJoinWithMap (createJoinParams joinType joinFilter batchSize flag) ofBool H broadcastSide joinType m
        probed = some rows ∧
      rows.Perm (hashRows joinType (createJoinParams joinType joinFilter batchSize flag) ofBool broadcastSide
        (probed.flatMap (·.rows)) build) := by
  have hall := all_eq lw rw joinType
  cases broadcastSide with
  | left =>
    cases joinType with
    | inner => exact full_case .rightProbedInner hm hall hkeys fun _ => ⟨rfl, rfl⟩
    | left => exact full_case .rightProbedLeft hm hall hkeys fun h => by cases hfilter h
    | right => exact full_case .rightProbedRight hm hall hkeys fun h => by cases hfilter h
    | full => exact full_case .rightProbedOuter hm hall hkeys fun h => by cases hfilter h
    | leftSemi =>
      exact semi_case .rightProbedLeftSemi hm (by exact congrArg left hall) (Nat.add_pos_left hlw _) hkeys rfl
        (relationalSemiJoin_eq Smj.leftSemi ofBool build _).symm
    | leftAnti =>
      exact semi_case .rightProbedLeftAnti hm (by exact congrArg left hall) (Nat.add_pos_left hlw _) hkeys rfl
        (relationalSemiJoin_eq Smj.leftAnti ofBool build _).symm
    | rightSemi =>
      exact semi_case .rightProbedRightSemi hm (by exact congrArg right hall) (Nat.add_pos_left hrw _) hkeys rfl
        (relationalSemiJoin_eq Smj.rightSemi ofBool build _).symm
    | rightAnti =>
      exact anti_case .rightProbedRightAnti hm (by exact congrArg right hall) (Nat.add_pos_left hrw _) hkeys rfl rfl
        (relationalSemiJoin_eq Smj.rightAnti ofBool build _).symm
    | existence =>
      exact semi_case .rightProbedExistence hm (by exact congrArg left hall) (Nat.add_pos_left hlw _) hkeys rfl rfl
  | right =>
    cases joinType with
    | inner => exact full_case .leftProbedInner hm hall hkeys fun _ => ⟨rfl, rfl⟩
    | left => exact full_case .leftProbedLeft hm hall hkeys fun h => by cases hfilter h
    | right => exact full_case .leftProbedRight hm hall hkeys fun h => by cases hfilter h
    | full => exact full_case .leftProbedOuter hm hall hkeys fun h => by cases hfilter h
    | leftSemi =>
      exact semi_case .leftProbedLeftSemi hm (by exact congrArg left hall) (Nat.add_pos_left hlw _) hkeys rfl
        (relationalSemiJoin_eq Smj.leftSemi ofBool _ build).symm
    | leftAnti =>
      exact anti_case .leftProbedLeftAnti hm (by exact congrArg left hall) (Nat.add_pos_left hlw _) hkeys rfl rfl
        (relationalSemiJoin_eq Smj.leftAnti ofBool _ build).symm
    | rightSemi =>
      exact semi_case .leftProbedRightSemi hm (by exact congrArg right hall) (Nat.add_pos_left hrw _) hkeys rfl
        (relationalSemiJoin_eq Smj.rightSemi ofBool _ build).symm
    | rightAnti =>
      exact semi_case .leftProbedRightAnti hm (by exact congrArg right hall) (Nat.add_pos_left hrw _) hkeys rfl
        (relationalSemiJoin_eq Smj.rightAnti ofBool _ build).symm
    | existence =>
      exact semi_case .leftProbedExistence hm (by exact congrArg left hall) (Nat.add_pos_left hlw _) hkeys rfl rfl

/-! ### Agreement -/

lemma map_filter_and_perm_iff {γ δ : Type} (f : γ → δ) (p q : γ → Bool) (xs : List γ) :
    ((xs.filter fun x => p x && q x).map f).Perm ((xs.filter q).map f) ↔ ∀ x ∈ xs, q x = true → p x = true := by
  rw [← filter_filter]
  constructor
  · intro h x hx hq
    have hlen := h.length_eq
    rw [length_map, length_map, length_filter_eq_length_iff] at hlen
    exact hlen x (mem_filter.2 ⟨hx, hq⟩)
  · intro h
    rw [filter_eq_self.2 fun x hx => h x (mem_filter.1 hx).1 (mem_filter.1 hx).2]

lemma hashRows_perm_iff (broadcastSide : JoinSide) (joinType : JoinType) (p : JoinParams α lw rw) (ofBool : Bool → α)
    (probe : List (Key κ × Row α (broadcastSide.pw lw rw))) (build : List (Key κ × Row α (broadcastSide.bw lw rw))) :
    (hashRows joinType p ofBool broadcastSide probe build).Perm (relationalOf joinType p ofBool broadcastSide probe build) ↔
      (nullAwareAnti broadcastSide joinType p.isNullAwareAntiJoin = true → ∀ x ∈ probe,
        (x.1.hasNull = false ∧ ∀ y ∈ build, y.1.hasNull = false) ∨ ∃ y ∈ build, partners x.1 y.1 = true) := by
  unfold hashRows
  cases haware : nullAwareAnti broadcastSide joinType p.isNullAwareAntiJoin with
  | false => simp
  | true =>
    have hrel : relationalOf joinType p ofBool broadcastSide probe build =
        (probe.filter fun x => !build.any fun y => partners x.1 y.1).map fun x => x.2.toList := by
      cases broadcastSide with
      | left =>
        cases joinType with
        | rightAnti => exact relationalSemiJoin_eq Smj.rightAnti ofBool build probe
        | _ => cases haware
      | right =>
        cases joinType with
        | leftAnti => exact relationalSemiJoin_eq Smj.leftAnti ofBool probe build
        | _ => cases haware
    rw [if_pos rfl, hrel, map_filter_and_perm_iff]
    simp only [true_implies]
    refine forall₂_congr fun x _ => ?_
    simp only [Bool.not_eq_true', Bool.or_eq_false_iff, any_eq_false]
    constructor
    · intro h
      by_cases hpartner : ∃ y ∈ build, partners x.1 y.1 = true
      · exact .inr hpartner
      · obtain ⟨hx, hy⟩ := h fun y hy hxy => hpartner ⟨y, hy, hxy⟩
        exact .inl ⟨hx, fun y hmem => Bool.eq_false_iff.2 (hy y hmem)⟩
    · rintro (⟨hx, hy⟩ | ⟨y, hmem, hxy⟩) hnone
      · exact ⟨hx, fun y hmem => Bool.eq_false_iff.1 (hy y hmem)⟩
      · exact absurd hxy (hnone y hmem)

section Executions

variable (hlw : 0 < lw) (hrw : 0 < rw)
  -- the build side: what the map is made of, and its batches sorted by their keys
  (build : List (Key κ × Row α (broadcastSide.bw lw rw))) (hbuild : build.length < 2 ^ 30)
  (built : List (List (Key κ × Row α (broadcastSide.bw lw rw)))) (hperm : built.flatten.Perm build)
  (hsorted : SortedByKey (built.flatten.map E.keyed))
  -- the probe side: the batches with their keys, and the calls on the sorter that insert the same rows
  (S : ProbeSort E α (broadcastSide.pw lw rw)) (probed : List (ProbeBatch κ α (broadcastSide.pw lw rw)))
  (hkeys : ∀ x ∈ probed.flatMap (·.rows), x.1 = S.keyOf x.2)
  (ops : List (ExternalSorter.Op (Option α) (broadcastSide.pw lw rw)))
  (hops : ops.flatMap rows = (probed.flatMap (·.rows)).map Prod.snd)
  (hsmall : ∀ op ∈ ops, op.rows.length < 2 ^ 32) (hready : spillsReady false ops = true)
  (htotal : (ops.flatMap rows).length < 2 ^ 64) (subBatchSize outputBatchSize : ℕ+)
  -- the comparator and the encoding tell the same keys of the two sides apart
  (hagree : ∀ x ∈ probed.flatMap (·.rows), ∀ y ∈ build, x.1.hasNull = false → y.1.hasNull = false →
    (H.eq x.1 y.1 = true ↔ E.encode x.1 = E.encode y.1))

include hfilter hlw hrw hbuild hperm hsorted hkeys hops hsmall hready htotal hagree in
/-- **Both paths run to their ends**, and what each outputs. -/
theorem executions_spec :
    ∃ m hash smj, JoinHashMap.create H build = some m ∧
      executeJoinWithMap (createJoinParams joinType joinFilter batchSize flag) ofBool H broadcastSide joinType m probed =
        some hash ∧
      executeJoinWithSmjFallback joinType joinFilter batchSize ofBool E.hasNulls broadcastSide (builtChild E built)
        (sortedChild S ops subBatchSize outputBatchSize) = some smj ∧
      hash.Perm (hashRows joinType (createJoinParams joinType joinFilter batchSize flag) ofBool broadcastSide
        (probed.flatMap (·.rows)) build) ∧
      smj.Perm (relationalOf joinType (createJoinParams joinType joinFilter batchSize flag) ofBool broadcastSide
        (probed.flatMap (·.rows)) build) := by
  have hprobe : ∀ k, (∃ x ∈ probed.flatMap (·.rows), x.1 = k) → k.hasNull = false → ∀ y ∈ build, y.1.hasNull = false →
      (H.eq k y.1 = true ↔ k = y.1) := by
    rintro _ ⟨x, hx, rfl⟩ hnull y hy hnull'
    rw [hagree x hx y hy hnull hnull', E.encode_injective.eq_iff]
  obtain ⟨m, hcreate, hm⟩ := JoinHashMap.create_maps_of_agree H build hbuild hprobe
  obtain ⟨hash, hhash, hhashPerm⟩ := executeJoinWithMap_spec H broadcastSide joinType joinFilter hfilter batchSize
    flag ofBool hlw hrw hm fun x hx => ⟨x, hx, rfl⟩
  -- the rows the sorter is given, keyed as the hash path keys them
  have hrows : (ops.flatMap rows).map (fun row => (S.keyOf row, row)) = probed.flatMap (·.rows) := by
    rw [hops, map_map]
    conv_rhs => rw [← map_id (probed.flatMap (·.rows))]
    exact map_congr_left fun x hx => Prod.ext (hkeys x hx).symm rfl
  have hprobed := sorts_sortedChild S ops hsmall hready htotal subBatchSize outputBatchSize
  rw [hrows] at hprobed
  obtain ⟨smj, hsmj, hsmjPerm⟩ := executeJoinWithSmjFallback_spec E broadcastSide joinType joinFilter hfilter batchSize
    flag ofBool (sorts_builtChild E hperm hsorted) hprobed
  exact ⟨m, hash, smj, hcreate, hhash, hsmj, hhashPerm, hsmjPerm⟩

end Executions

end Paths

/-! ### Joins of bit columns -/

def encodeBit : Option Bool → UInt8
  | none => 0
  | some false => 1
  | some true => 2

def decodeBit (b : UInt8) : Option Bool := if b = 0 then none else some (b = 2)

lemma decodeBit_encodeBit (b : Option Bool) : decodeBit (encodeBit b) = b := by
  rcases b with _ | _ | _ <;> rfl

def bitKeys : KeyEncoding (fun _ : Fin 1 => Bool) where
  encode k := [encodeBit (k ⟨0, Nat.one_pos⟩)]
  encode_injective := by
    intro k k' h
    funext i
    rw [Subsingleton.elim i _, ← decodeBit_encodeBit (k _), ← decodeBit_encodeBit (k' _), singleton_inj.1 h]
  hasNulls key := key.head? == some 0
  hasNulls_encode := by
    intro k
    show _ = ((k ⟨0, Nat.one_pos⟩).isNone || false)
    rcases k ⟨0, Nat.one_pos⟩ with _ | _ | _ <;> rfl

def comapIo {V W : Type} (io : SpillIo W) (f : V → W) (g : W → V) (hgf : ∀ v, g (f v) = v) : SpillIo V where
  writeOneBatch batch := io.writeOneBatch (batch.map (·.map f))
  readOneBatch input := ((io.readOneBatch input).1.map (·.map (·.map (·.map g))), (io.readOneBatch input).2)
  compress := io.compress
  decompress := io.decompress
  read_write batch rest := by
    have hgf' : g ∘ f = id := funext hgf
    rw [io.read_write]
    simp [Except.map, hgf']
  read_nil := by rw [io.read_nil]; rfl
  decompress_compress := io.decompress_compress

def bitSort : ProbeSort bitKeys Bool 1 where
  keyExprs := [.column ⟨0, Nat.one_pos⟩]
  keyExprs_ne_nil := cons_ne_nil _ _
  sortRowConverter := ⟨(·.map encodeBit), (·.map decodeBit), fun keys => keys.flatten.length, by
    intro vs _
    have h : decodeBit ∘ encodeBit = id := funext decodeBit_encodeBit
    rw [map_map, h, map_id]⟩
  io := comapIo byteIo encodeBit decodeBit decodeBit_encodeBit
  sort := stableSort
  keyOf row := fun _ => row.get ⟨0, Nat.one_pos⟩
  encode_keyOf row := rfl

def collidingBits : KeyComparator (fun _ : Fin 1 => Bool) := KeyHash.colliding.toKeyComparator

lemma bits_agree {probe build : List ((Key fun _ : Fin 1 => Bool) × Row Bool 1)} : ∀ x ∈ probe, ∀ y ∈ build,
    x.1.hasNull = false → y.1.hasNull = false →
      (collidingBits.eq x.1 y.1 = true ↔ bitKeys.encode x.1 = bitKeys.encode y.1) :=
  fun _ _ _ _ _ _ => decide_eq_true_iff.trans bitKeys.encode_injective.eq_iff.symm

end BroadcastJoinExec

end Auron.Joins
