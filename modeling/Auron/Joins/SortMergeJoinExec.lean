import Auron.Joins.Smj.FullJoin
import Auron.Joins.Smj.SemiJoin

/-!
# The sort-merge join operator (`sort_merge_join_exec.rs`)

The operator picks a joiner by the join type and feeds it the streams of its two children, with their encoded keys.  With
a residual condition the streams carry all columns; without one they carry the columns the output needs, which are none
of the other side for a semi, anti or existence join.

A child is a function of the columns it is asked for.  `Child.Sorts` is what the operator relies on: asked for all columns
or for none, a child gives its rows in the order of their keys.  The rows may come in another order for other columns, as
a sort that is not stable gives them.

`JoinType.relational` is what a join of a type is for, and `execute_spec` says that `execute` computes it.
-/

namespace Auron.Joins

open Auron.Io Auron.Lib Auron.Joins.Smj List

variable {α : Type} {lw rw w : ℕ}

inductive JoinType where
  | inner
  | left
  | right
  | full
  | leftSemi
  | leftAnti
  | rightSemi
  | rightAnti
  | existence
  deriving DecidableEq, Repr

def JoinType.numFields (lw rw : ℕ) : JoinType → ℕ
  | .inner | .left | .right | .full => lw + rw
  | .leftSemi | .leftAnti => lw
  | .rightSemi | .rightAnti => rw
  | .existence => lw + 1

/-- The column with the given number, if there is one. -/
def columnOf (w i : ℕ) : Option (Fin w) := if h : i < w then some ⟨i, h⟩ else none

def JoinProjection.tryNew (joinType : JoinType) (projection : List ℕ) : JoinProjection lw rw :=
  match joinType with
  | .inner | .left | .right | .full =>
    ⟨projection.filterMap (columnOf lw),
      projection.filterMap fun i => if i < lw then none else columnOf rw (i - lw)⟩
  | .leftSemi | .leftAnti => ⟨projection.filterMap (columnOf lw), []⟩
  | .rightSemi | .rightAnti => ⟨[], projection.filterMap (columnOf rw)⟩
  | .existence => ⟨projection.filterMap (columnOf lw), []⟩

/-- The projection `execute` asks for: all fields of the output schema. -/
def JoinProjection.all (lw rw : ℕ) (joinType : JoinType) : JoinProjection lw rw :=
  tryNew joinType (range (joinType.numFields lw rw))

lemma columnOf_val (i : Fin w) : columnOf w i = some i := dif_pos i.isLt

lemma columnOf_add (w i : ℕ) : columnOf w (w + i) = none := dif_neg (by omega)

lemma filterMap_columnOf (w : ℕ) : (range w).filterMap (columnOf w) = finRange w := by
  rw [← map_coe_finRange_eq_range, filterMap_map]
  exact (filterMap_congr fun i _ => columnOf_val i).trans filterMap_some

lemma filterMap_columnOf_left (lw rw : ℕ) : (range (lw + rw)).filterMap (columnOf lw) = finRange lw := by
  have hnone : ((range rw).map (lw + ·)).filterMap (columnOf lw) = [] := by
    rw [filterMap_map, filterMap_eq_nil_iff]
    exact fun i _ => columnOf_add lw i
  rw [range_add, filterMap_append, filterMap_columnOf, hnone, append_nil]

lemma filterMap_columnOf_right (lw rw : ℕ) :
    ((range (lw + rw)).filterMap fun i => if i < lw then none else columnOf rw (i - lw)) = finRange rw := by
  have hleft : ((range lw).filterMap fun i => if i < lw then none else columnOf rw (i - lw)) = [] := by
    rw [filterMap_eq_nil_iff]
    exact fun i hi => if_pos (mem_range.1 hi)
  have hright : (((range rw).map (lw + ·)).filterMap fun i => if i < lw then none else columnOf rw (i - lw)) =
      (range rw).filterMap (columnOf rw) := by
    rw [filterMap_map]
    refine filterMap_congr fun i _ => ?_
    simp
  rw [range_add, filterMap_append, hleft, hright, filterMap_columnOf, nil_append]

lemma JoinProjection.all_eq (lw rw : ℕ) (joinType : JoinType) :
    all lw rw joinType =
      match joinType with
      | .inner | .left | .right | .full => .identity lw rw
      | .leftSemi | .leftAnti | .existence => ⟨finRange lw, []⟩
      | .rightSemi | .rightAnti => ⟨[], finRange rw⟩ := by
  unfold all tryNew JoinType.numFields identity
  cases joinType <;> simp only [filterMap_columnOf, filterMap_columnOf_left, filterMap_columnOf_right]

namespace SortMergeJoinExec

def createJoinParams (joinType : JoinType) (joinFilter : Option (JoinFilter α lw rw)) (batchSize : ℕ) :
    JoinParams α lw rw where
  projection := .all lw rw joinType
  joinFilter := joinFilter
  batchSize := batchSize
  isNullAwareAntiJoin := false

/-- The joiners of `joins/smj`. -/
inductive Joiner where
  | full (lOuter rOuter : Bool)
  | semi (P : JoinerParams)
  | existence

/-- The joiner `execute_join` picks. -/
def joinerOf : JoinType → Joiner
  | .inner => .full false false
  | .left => .full true false
  | .right => .full false true
  | .full => .full true true
  | .leftSemi => .semi Smj.leftSemi
  | .leftAnti => .semi Smj.leftAnti
  | .rightSemi => .semi Smj.rightSemi
  | .rightAnti => .semi Smj.rightAnti
  | .existence => .existence

/-- `execute_join`: the rows sent by the joiner. -/
def executeJoin (joinType : JoinType) (p : JoinParams α lw rw) (ofBool : Bool → α) (hasNulls : Bytes → Bool)
    (left : List (List (Bytes × Row α lw))) (right : List (List (Bytes × Row α rw))) :
    Option (List (List (Option α))) :=
  match joinerOf joinType with
  | .full lOuter rOuter => (FullJoiner.executeJoin lOuter rOuter p hasNulls left right).map (·.sent.flatten)
  | .semi P => (OneSideJoiner.executeJoin (SemiJoiner P p.batchSize) hasNulls left right).map (·.sent.flatten)
  | .existence => (OneSideJoiner.executeJoin (ExistenceJoiner ofBool p.batchSize) hasNulls left right).map (·.sent.flatten)

/-- A child, executed for certain columns with its key rows. -/
abbrev Child (α : Type) (w : ℕ) := List (Fin w) → Option (List (List (Bytes × List (Option α))))

def toRow (w : ℕ) (x : Bytes × List (Option α)) : Option (Bytes × Row α w) :=
  if h : x.2.length = w then some (x.1, ⟨x.2.toArray, by simpa using h⟩) else none

def toStream (w : ℕ) (batches : List (List (Bytes × List (Option α)))) : Option (List (List (Bytes × Row α w))) :=
  collect (collect (toRow w)) batches

def execute (joinType : JoinType) (joinFilter : Option (JoinFilter α lw rw)) (batchSize : ℕ) (ofBool : Bool → α)
    (hasNulls : Bytes → Bool) (left : Child α lw) (right : Child α rw) : Option (List (List (Option α))) := do
  if joinFilter.isSome ∧ joinType ≠ .inner then none
  else
    let p := createJoinParams joinType joinFilter batchSize
    match p.joinFilter with
    | some _ =>
      let left ← toStream lw (← left (finRange lw))
      let right ← toStream rw (← right (finRange rw))
      executeJoin joinType p ofBool hasNulls left right
    | none =>
      let left ← toStream p.projection.left.length (← left p.projection.left)
      let right ← toStream p.projection.right.length (← right p.projection.right)
      -- the streams come projected
      executeJoin joinType ⟨.identity _ _, none, p.batchSize, p.isNullAwareAntiJoin⟩ ofBool hasNulls left right

end SortMergeJoinExec

/-! ### The relational join of a type -/

section Relational

variable {n : ℕ} {κ : Fin n → Type} [∀ i, DecidableEq (κ i)]

/-- **The join of two relations of a given type.** -/
def JoinType.relational (joinType : JoinType) (p : JoinParams α lw rw) (ofBool : Bool → α)
    (left : List (Key κ × Row α lw)) (right : List (Key κ × Row α rw)) : List (List (Option α)) :=
  match joinType with
  | .inner => relationalJoin false false p left right
  | .left => relationalJoin true false p left right
  | .right => relationalJoin false true p left right
  | .full => relationalJoin true true p left right
  | .leftSemi => relationalSemiJoin Smj.leftSemi left right
  | .leftAnti => relationalSemiJoin Smj.leftAnti left right
  | .rightSemi => relationalSemiJoin Smj.rightSemi left right
  | .rightAnti => relationalSemiJoin Smj.rightAnti left right
  | .existence => relationalExistenceJoin ofBool left right

open SortMergeJoinExec in
lemma JoinType.relational_eq (joinType : JoinType) (p : JoinParams α lw rw) (ofBool : Bool → α)
    (left : List (Key κ × Row α lw)) (right : List (Key κ × Row α rw)) :
    joinType.relational p ofBool left right =
      match joinerOf joinType with
      | .full lOuter rOuter => relationalJoin lOuter rOuter p left right
      | .semi P => relationalSemiJoin P left right
      | .existence => relationalExistenceJoin ofBool left right := by
  cases joinType <;> rfl

lemma JoinType.relational_perm (joinType : JoinType) (p : JoinParams α lw rw) (ofBool : Bool → α)
    {left left' : List (Key κ × Row α lw)} {right right' : List (Key κ × Row α rw)} (hl : left.Perm left')
    (hr : right.Perm right') :
    (joinType.relational p ofBool left right).Perm (joinType.relational p ofBool left' right') := by
  rw [relational_eq, relational_eq]
  split
  · exact (outerJoin_perm _ _ _ hl hr).map _
  · unfold relationalSemiJoin
    split
    · simp only [hr.any_eq]
      exact (hl.filter _).map _
    · simp only [hl.any_eq]
      exact (hr.filter _).map _
  · unfold relationalExistenceJoin
    simp only [hr.any_eq]
    exact hl.map _

def Row.project (is : List (Fin w)) (row : Row α w) : Row α is.length := ⟨(is.map row.get).toArray, by simp⟩

def projectKeyed {K : Type} (is : List (Fin w)) (x : K × Row α w) : K × Row α is.length := (x.1, x.2.project is)

lemma Row.toList_project (is : List (Fin w)) (row : Row α w) : (row.project is).toList = is.map row.get := by
  simp [project]

lemma Row.toList_project_all (row : Row α w) : (row.project (finRange w)).toList = row.toList := by
  rw [toList_project, map_get_finRange]

namespace SortMergeJoinExec

lemma toRow_toList (x : Bytes × Row α w) : toRow w (x.1, x.2.toList) = some x := by
  unfold toRow
  rw [dif_pos (by simp)]
  rfl

lemma toStream_spec {batches : List (List (Bytes × List (Option α)))} {rows : List (Bytes × Row α w)}
    (h : batches.flatten = rows.map fun x => (x.1, x.2.toList)) :
    ∃ stream, toStream w batches = some stream ∧ stream.flatten = rows := by
  induction batches generalizing rows with
  | nil =>
    refine ⟨[], rfl, ?_⟩
    simpa using h.symm
  | cons batch batches ih =>
    obtain ⟨rows₁, _, rfl, hbatch, hbatches⟩ := append_eq_map_iff.1 h
    obtain ⟨stream, hstream, hflat⟩ := ih hbatches.symm
    have hbatch' : collect (toRow w) batch = some rows₁ := by
      rw [collect_eq_some_iff, ← hbatch, forall₂_map_left_iff, forall₂_same]
      exact fun x _ => toRow_toList x
    refine ⟨rows₁ :: stream, ?_, by rw [flatten_cons, hflat]⟩
    unfold toStream at hstream ⊢
    rw [collect, hbatch', hstream]

/-- **`execute_join` computes the relational join** of streams sorted by their encoded keys. -/
theorem executeJoin_spec (E : KeyEncoding κ) (joinType : JoinType) (p : JoinParams α lw rw)
    (hfilter : p.joinFilter.isSome → joinType = .inner) (ofBool : Bool → α) {left : List (List (Bytes × Row α lw))}
    {right : List (List (Bytes × Row α rw))} {L : List (Key κ × Row α lw)} {R : List (Key κ × Row α rw)}
    (hl : left.flatten = L.map E.keyed) (hr : right.flatten = R.map E.keyed) (hL : SortedByKey (L.map E.keyed))
    (hR : SortedByKey (R.map E.keyed)) :
    ∃ rows, executeJoin joinType p ofBool E.hasNulls left right = some rows ∧
      rows.Perm (joinType.relational p ofBool L R) := by
  rw [← hl] at hL
  rw [← hr] at hR
  have hside : ∀ {τ : Type} (P : OneSideParams α τ), ∃ J, OneSideJoiner.executeJoin P E.hasNulls left right = some J ∧
      J.sent.flatten = OneSideJoiner.sideRows P (fun l r => partners l.1 r.1) L R := by
    intro _ P
    obtain ⟨J, hJ, hsent⟩ := OneSideJoiner.executeJoin_spec P E.hasNulls left right hL hR
    exact ⟨J, hJ, by rw [hsent, hl, hr, OneSideJoiner.sideRows_keyed]⟩
  rw [JoinType.relational_eq]
  unfold executeJoin
  cases hjoiner : joinerOf joinType with
  | full lOuter rOuter =>
    have houter : p.joinFilter.isSome → lOuter = false ∧ rOuter = false := by
      intro hsome
      rw [hfilter hsome] at hjoiner
      cases hjoiner
      exact ⟨rfl, rfl⟩
    obtain ⟨J, hJ, hperm⟩ := FullJoiner.executeJoin_spec lOuter rOuter p E.hasNulls left right hL hR
    rw [hl, hr, FullJoiner.emitted_outerJoin E lOuter rOuter p houter] at hperm
    exact ⟨_, congrArg (Option.map (·.sent.flatten)) hJ, hperm⟩
  | semi P =>
    obtain ⟨J, hJ, hsent⟩ := hside (SemiJoiner P p.batchSize)
    rw [sideRows_semiJoiner] at hsent
    exact ⟨_, congrArg (Option.map (·.sent.flatten)) hJ, .of_eq hsent⟩
  | existence =>
    obtain ⟨J, hJ, hsent⟩ := hside (ExistenceJoiner ofBool p.batchSize)
    rw [sideRows_existenceJoiner] at hsent
    exact ⟨_, congrArg (Option.map (·.sent.flatten)) hJ, .of_eq hsent⟩

/-! ### Projected streams -/

lemma toList_sideRow_project {K : Type} {is : List (Fin w)} (his : is = finRange w) (o : Option (K × Row α w)) :
    (sideRow (o.map (projectKeyed is))).toList = (sideRow o).toList := by
  subst his
  cases o with
  | some x => exact x.2.toList_project_all
  | none => simp [sideRow, Row.null]

section Project

variable (L : List (Key κ × Row α lw)) (R : List (Key κ × Row α rw)) {isL : List (Fin lw)} {isR : List (Fin rw)}

lemma relationalJoin_project {p : JoinParams α lw rw} (hp : p.joinFilter = none) (lOuter rOuter : Bool)
    (hl : isL = finRange lw) (hr : isR = finRange rw) (batchSize : ℕ) (flag : Bool) :
    relationalJoin lOuter rOuter ⟨.identity _ _, none, batchSize, flag⟩ (L.map (projectKeyed isL))
      (R.map (projectKeyed isR)) = relationalJoin lOuter rOuter p L R := by
  unfold relationalJoin
  rw [outerJoin_map, map_map]
  simp only [JoinParams.selects, hp, Option.all_none]
  refine map_congr_left fun pair _ => ?_
  simp only [Function.comp_apply, JoinParams.joinedRow, hp, Prod.map_fst, Prod.map_snd]
  rw [toList_sideRow_project hl, toList_sideRow_project hr]

lemma relationalSemiJoin_project (P : JoinerParams) (hl : P.joinSide = .L → isL = finRange lw)
    (hr : P.joinSide = .R → isR = finRange rw) :
    relationalSemiJoin P (L.map (projectKeyed isL)) (R.map (projectKeyed isR)) = relationalSemiJoin P L R := by
  unfold relationalSemiJoin
  cases hside : P.joinSide with
  | L =>
    have his := hl hside
    subst his
    simp only [filter_map, map_map, any_map]
    exact map_congr_left fun x _ => x.2.toList_project_all
  | R =>
    have his := hr hside
    subst his
    simp only [filter_map, map_map, any_map]
    exact map_congr_left fun x _ => x.2.toList_project_all

lemma relationalExistenceJoin_project (ofBool : Bool → α) (hl : isL = finRange lw) :
    relationalExistenceJoin ofBool (L.map (projectKeyed isL)) (R.map (projectKeyed isR)) =
      relationalExistenceJoin ofBool L R := by
  subst hl
  unfold relationalExistenceJoin
  simp only [map_map, any_map]
  refine map_congr_left fun x _ => ?_
  show (x.2.project _).toList ++ _ = x.2.toList ++ _
  rw [x.2.toList_project_all]
  rfl

lemma relational_project (joinType : JoinType) {p : JoinParams α lw rw} (hp : p.joinFilter = none)
    (hproj : p.projection = .all lw rw joinType) (batchSize : ℕ) (flag : Bool) (ofBool : Bool → α) :
    joinType.relational ⟨.identity _ _, none, batchSize, flag⟩ ofBool (L.map (projectKeyed p.projection.left))
      (R.map (projectKeyed p.projection.right)) = joinType.relational p ofBool L R := by
  have hall := JoinProjection.all_eq lw rw joinType
  rw [← hproj] at hall
  cases joinType with
  | inner | left | right | full =>
    exact relationalJoin_project L R hp _ _ (by rw [hall]; rfl) (by rw [hall]; rfl) batchSize flag
  | leftSemi => exact relationalSemiJoin_project L R Smj.leftSemi (fun _ => by rw [hall]) fun h => by cases h
  | leftAnti => exact relationalSemiJoin_project L R Smj.leftAnti (fun _ => by rw [hall]) fun h => by cases h
  | rightSemi => exact relationalSemiJoin_project L R Smj.rightSemi (fun h => by cases h) fun _ => by rw [hall]
  | rightAnti => exact relationalSemiJoin_project L R Smj.rightAnti (fun h => by cases h) fun _ => by rw [hall]
  | existence => exact relationalExistenceJoin_project L R ofBool (by rw [hall])

end Project

/-! ### The operator -/

/-- The child has the rows `xs`: asked for all columns or for none, it gives them in the order of their keys. -/
def Child.Sorts (E : KeyEncoding κ) (child : Child α w) (xs : List (Key κ × Row α w)) : Prop :=
  ∀ is, is = finRange w ∨ is = [] → ∃ (xs' : List (Key κ × Row α w)) (batches : List (List (Bytes × List (Option α)))),
    xs'.Perm xs ∧ SortedByKey (xs'.map E.keyed) ∧ child is = some batches ∧
      batches.flatten = xs'.map fun x => (E.encode x.1, is.map x.2.get)

omit [∀ i, DecidableEq (κ i)] in
lemma Child.Sorts.stream {E : KeyEncoding κ} {child : Child α w} {xs : List (Key κ × Row α w)} (h : Child.Sorts E child xs)
    {is : List (Fin w)} (his : is = finRange w ∨ is = []) {w' : ℕ} (f : Row α w → Row α w')
    (hf : ∀ row, (f row).toList = is.map row.get) :
    ∃ (xs' : List (Key κ × Row α w)) (batches : List (List (Bytes × List (Option α))))
      (stream : List (List (Bytes × Row α w'))), xs'.Perm xs ∧ child is = some batches ∧
      toStream w' batches = some stream ∧ stream.flatten = (xs'.map (Prod.map id f)).map E.keyed ∧
      SortedByKey ((xs'.map (Prod.map id f)).map E.keyed) := by
  obtain ⟨xs', batches, hperm, hsorted, hchild, hflat⟩ := h is his
  have hrows : batches.flatten = ((xs'.map (Prod.map id f)).map E.keyed).map fun x => (x.1, x.2.toList) := by
    rw [hflat, map_map, map_map]
    refine map_congr_left fun x _ => ?_
    show _ = (E.encode x.1, (f x.2).toList)
    rw [hf]
  obtain ⟨stream, hstream, hout⟩ := toStream_spec hrows
  refine ⟨xs', batches, stream, hperm, hchild, hstream, hout, ?_⟩
  unfold SortedByKey at hsorted ⊢
  rw [pairwise_map] at hsorted
  rw [pairwise_map, pairwise_map]
  exact hsorted

lemma all_columns (lw rw : ℕ) (joinType : JoinType) : let p := JoinProjection.all lw rw joinType
    (p.left = finRange lw ∨ p.left = []) ∧ (p.right = finRange rw ∨ p.right = []) := by
  rw [JoinProjection.all_eq]
  cases joinType <;> simp [JoinProjection.identity]

/-- **The operator computes the relational join** of the rows of its children. -/
theorem execute_spec (E : KeyEncoding κ) (joinType : JoinType) (joinFilter : Option (JoinFilter α lw rw))
    (hfilter : joinFilter.isSome → joinType = .inner) (batchSize : ℕ) (ofBool : Bool → α) {left : Child α lw}
    {right : Child α rw} {L : List (Key κ × Row α lw)} {R : List (Key κ × Row α rw)} (hl : Child.Sorts E left L)
    (hr : Child.Sorts E right R) :
    ∃ rows, execute joinType joinFilter batchSize ofBool E.hasNulls left right = some rows ∧
      rows.Perm (joinType.relational (createJoinParams joinType joinFilter batchSize) ofBool L R) := by
  have hnew : ¬(joinFilter.isSome = true ∧ joinType ≠ .inner) := fun h => h.2 (hfilter h.1)
  unfold execute
  rw [if_neg hnew]
  cases hp : joinFilter with
  | some filter =>
    obtain ⟨L', lbatches, lstream, hpermL, hleft, hlstream, hlflat, hsL⟩ :=
      hl.stream (.inl rfl) id fun row => row.map_get_finRange.symm
    obtain ⟨R', rbatches, rstream, hpermR, hright, hrstream, hrflat, hsR⟩ :=
      hr.stream (.inl rfl) id fun row => row.map_get_finRange.symm
    rw [Prod.map_id, map_id] at hlflat hsL hrflat hsR
    obtain ⟨rows, hrows, hperm⟩ := executeJoin_spec E joinType (createJoinParams joinType (some filter) batchSize)
      (fun _ => hfilter (by rw [hp]; rfl)) ofBool hlflat hrflat hsL hsR
    refine ⟨rows, ?_, hperm.trans (joinType.relational_perm _ ofBool hpermL hpermR)⟩
    simp only [hleft, hright, hlstream, hrstream, Option.bind_eq_bind, Option.bind_some]
    exact hrows
  | none =>
    obtain ⟨L', _, _, hpermL, hleft, hlstream, hlflat, hsL⟩ :=
      hl.stream (all_columns lw rw joinType).1 _ (Row.toList_project _)
    obtain ⟨R', _, _, hpermR, hright, hrstream, hrflat, hsR⟩ :=
      hr.stream (all_columns lw rw joinType).2 _ (Row.toList_project _)
    obtain ⟨rows, hrows, hperm⟩ := executeJoin_spec E joinType
      (⟨.identity _ _, none, batchSize, false⟩ : JoinParams α (JoinProjection.all lw rw joinType).left.length
        (JoinProjection.all lw rw joinType).right.length) (fun h => by cases h) ofBool hlflat hrflat hsL hsR
    refine ⟨rows, ?_, ?_⟩
    · simp only [createJoinParams, hleft, hright, hlstream, hrstream, Option.bind_eq_bind, Option.bind_some]
      exact hrows
    · have hproj := relational_project L' R' joinType (p := createJoinParams joinType none batchSize) rfl rfl batchSize
        false ofBool
      exact (hperm.trans (.of_eq hproj)).trans (joinType.relational_perm _ ofBool hpermL hpermR)

end SortMergeJoinExec

end Relational

end Auron.Joins
