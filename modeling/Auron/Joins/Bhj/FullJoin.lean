import Auron.Joins.Bhj.Probe
import Auron.Lib.Marks
import Mathlib.Data.List.ReduceOption

/-!
# The inner and outer hash join (`joins/bhj/full_join.rs`)

`FullJoiner` gets the probe side batch by batch.  For each probe row it notes a pair of row numbers for every build row
found equal and, if the probe side is outer and there was none, a pair whose build number is null.  `flushHashJoined`
turns the noted pairs into an output batch and, if the build side is outer, marks the build rows it used.  `finish`
sends the build rows without a mark, extended by nulls.

The output schema of the operator has all columns of both sides, and a batch whose number of columns differs is an
error; so the results are about the identity projection.

`Flushed` ties the state to rows: what was sent, and which build rows are marked, given the pairs flushed so far.
`flushHashJoined_spec`, `joinRows_spec` and `join_spec` say how it moves; `executeJoinWithMap_spec` is the run.
-/

namespace Auron.Joins.Bhj

open Auron.Lib List JoinProjection

variable {n : ℕ} {κ : Fin n → Type} {α : Type} {lw rw : ℕ}

structure JoinerParams where
  probeSide : ProbeSide
  probeSideOuter : Bool
  buildSideOuter : Bool

namespace JoinerParams

def leftProbedInner : JoinerParams := ⟨.L, false, false⟩

def leftProbedLeft : JoinerParams := ⟨.L, true, false⟩

def leftProbedRight : JoinerParams := ⟨.L, false, true⟩

def leftProbedOuter : JoinerParams := ⟨.L, true, true⟩

def rightProbedInner : JoinerParams := ⟨.R, false, false⟩

def rightProbedLeft : JoinerParams := ⟨.R, false, true⟩

def rightProbedRight : JoinerParams := ⟨.R, true, false⟩

def rightProbedOuter : JoinerParams := ⟨.R, true, true⟩

abbrev pw (P : JoinerParams) (lw rw : ℕ) : ℕ := P.probeSide.probeWidth lw rw

abbrev bw (P : JoinerParams) (lw rw : ℕ) : ℕ := P.probeSide.buildWidth lw rw

end JoinerParams

/-- `FullJoiner`, with the batches given to its sender. -/
structure FullJoiner (α : Type) where
  mapJoined : List Bool
  sent : List (List (List (Option α)))

namespace FullJoiner

def new {w : ℕ} (m : JoinHashMap κ α w) : FullJoiner α := ⟨replicate m.dataBatch.length false, []⟩

/-- `flush`: a batch needs as many columns as the output schema has fields. -/
def flush (lw rw : ℕ) (J : FullJoiner α) (numCols : ℕ) (output : List (List (Option α))) : Option (FullJoiner α) :=
  if numCols = lw + rw then some { J with sent := J.sent ++ [output] } else none

/-- The rows of the probe batch at the noted numbers: the batch itself if all its rows were joined one to one. -/
def takeProbe {w : ℕ} (rows : List (Key κ × Row α w)) (probeIndices : List ℕ) : Option (List (Row α w)) :=
  if probeIndices.length == rows.length && (probeIndices.zip (range rows.length)).all fun x => x.1 == x.2 then
    some (rows.map Prod.snd)
  else collect (fun i => rows[i]?.map Prod.snd) probeIndices

def takeRow {w : ℕ} (rows : List (Key κ × Row α w)) : Option ℕ → Option (Row α w)
  | none => some (Row.null α w)
  | some i => rows[i]?.map Prod.snd

def outputCols (P : JoinerParams) (p : JoinParams α lw rw) (probeRow : Row α (P.pw lw rw))
    (buildRow : Row α (P.bw lw rw)) : List (Option α) :=
  P.probeSide.concatCols (P.probeSide.projectProbe p.projection probeRow)
    (P.probeSide.projectBuild p.projection buildRow)

def flushHashJoined (P : JoinerParams) (p : JoinParams α lw rw) (m : JoinHashMap κ α (P.bw lw rw))
    (rows : List (Key κ × Row α (P.pw lw rw))) (pairs : List (ℕ × Option ℕ)) (J : FullJoiner α) :
    Option (FullJoiner α) := do
  let probeIndices := pairs.map Prod.fst
  let buildIndices := pairs.map Prod.snd
  let numCols := p.projection.left.length + p.projection.right.length
  match p.joinFilter with
  | some joinFilter =>
    if P.probeSideOuter || P.buildSideOuter then none
    else
      let probeRows ← takeProbe rows probeIndices
      let buildRows ← collect (takeRow m.dataBatch) buildIndices
      let selected := zipWith (P.probeSide.evaluateFilter joinFilter) probeRows buildRows
      J.flush lw rw numCols
        (zipWith (outputCols P p) (filterSelected probeRows selected) (filterSelected buildRows selected))
  | none =>
    let probeRows ← takeProbe rows probeIndices
    let J := if P.buildSideOuter then { J with mapJoined := markAll J.mapJoined buildIndices.reduceOption } else J
    let buildRows ← collect (takeRow m.dataBatch) buildIndices
    J.flush lw rw numCols (zipWith (outputCols P p) probeRows buildRows)

def rowPairs (P : JoinerParams) (rowIdx : ℕ) (matched : List ℕ) : List (ℕ × Option ℕ) :=
  matched.map (fun mapIdx => (rowIdx, some mapIdx)) ++
    if P.probeSideOuter && matched.isEmpty then [(rowIdx, none)] else []

/-- The loop of `join` over the rows of a probe batch, each with the build rows found equal to it. -/
def joinRows (P : JoinerParams) (p : JoinParams α lw rw) (m : JoinHashMap κ α (P.bw lw rw))
    (rows : List (Key κ × Row α (P.pw lw rw))) :
    ℕ → List (List ℕ) → List (ℕ × Option ℕ) → FullJoiner α → Option (List (ℕ × Option ℕ) × FullJoiner α)
  | _, [], pairs, J => some (pairs, J)
  | rowIdx, matched :: rest, pairs, J => do
    let pairs := pairs ++ rowPairs P (rowIdx % 2 ^ 32) matched
    if max p.batchSize rows.length < pairs.length then
      joinRows P p m rows (rowIdx + 1) rest [] (← J.flushHashJoined P p m rows pairs)
    else joinRows P p m rows (rowIdx + 1) rest pairs J

def join (P : JoinerParams) (p : JoinParams α lw rw) (H : KeyComparator κ) (m : JoinHashMap κ α (P.bw lw rw))
    (batch : ProbeBatch κ α (P.pw lw rw)) (J : FullJoiner α) : Option (FullJoiner α) := do
  let found ← probeBatch H m batch.rows
  let (pairs, J) ← joinRows P p m batch.rows 0 (found.map Prod.snd) [] J
  if pairs.isEmpty then some J else J.flushHashJoined P p m batch.rows pairs

def finish (P : JoinerParams) (p : JoinParams α lw rw) (m : JoinHashMap κ α (P.bw lw rw)) (J : FullJoiner α) :
    Option (FullJoiner α) := do
  if P.buildSideOuter then
    let buildRows ← collect (fun i => m.dataBatch[i]?.map Prod.snd) (positions (!·) J.mapJoined)
    let numCols := P.pw lw rw + P.probeSide.buildCols p.projection
    J.flush lw rw numCols (buildRows.map fun row => P.probeSide.concatCols (Row.null α (P.pw lw rw)).toList
      (P.probeSide.projectBuild p.projection row))
  else some J

def canEarlyStop {w : ℕ} (P : JoinerParams) (m : JoinHashMap κ α w) : Bool :=
  if !P.probeSideOuter then m.isAllNulls else false

/-- `execute_join_with_map`, with a full joiner. -/
def executeJoinWithMap (P : JoinerParams) (p : JoinParams α lw rw) (H : KeyComparator κ) (m : JoinHashMap κ α (P.bw lw rw))
    (probed : List (ProbeBatch κ α (P.pw lw rw))) : Option (FullJoiner α) := do
  let J ← probeAll (fun _ => canEarlyStop P m) (join P p H m) probed (new m)
  J.finish P p m

/-! ### Taking rows -/

lemma takeProbe_eq {w : ℕ} {rows xs : List (Key κ × Row α w)} {idxs : List ℕ}
    (h : Forall₂ (fun i x => rows[i]? = some x) idxs xs) : takeProbe rows idxs = some (xs.map Prod.snd) := by
  unfold takeProbe
  split
  · rename_i hcond
    rw [Bool.and_eq_true, beq_iff_eq] at hcond
    obtain ⟨hlen, hall⟩ := hcond
    -- the numbers are those of the rows in order
    have hidx : ∀ i, (hi : i < idxs.length) → idxs[i] = i := by
      intro i hi
      have hmem : (idxs[i], i) ∈ idxs.zip (range rows.length) := by
        rw [mem_iff_getElem]
        exact ⟨i, by simp [hlen, hlen ▸ hi], by simp⟩
      simpa using all_eq_true.1 hall _ hmem
    have hxs : xs = rows := by
      apply ext_getElem (h.length_eq.symm.trans hlen)
      intro i hi hi'
      have hget := h.get (i := i) (hlen ▸ hi') hi
      simp only [get_eq_getElem, hidx i (hlen ▸ hi'), getElem?_eq_getElem hi', Option.some.injEq] at hget
      exact hget.symm
    rw [hxs]
  · rw [collect_eq_some_iff, forall₂_map_right_iff]
    refine h.imp fun i x hx => ?_
    rw [hx, Option.map_some]

variable {P : JoinerParams} {p : JoinParams α lw rw} {H : KeyComparator κ} {keys : Key κ → Prop}
  {m : JoinHashMap κ α (P.bw lw rw)} {build : List (Key κ × Row α (P.bw lw rw))}
  {rows : List (Key κ × Row α (P.pw lw rw))} {J : FullJoiner α}

/-! ### The invariant -/

/-- A probe row with the number of a build row, or without one if it is extended. -/
abbrev Pair (κ : Fin n → Type) (α : Type) (w : ℕ) := (Key κ × Row α w) × Option ℕ

def buildOf {w : ℕ} (build : List (Key κ × Row α w)) (o : Option ℕ) : Option (Key κ × Row α w) :=
  o.bind fun i => build[i]?

def selects (P : JoinerParams) (p : JoinParams α lw rw) (probeRow : Row α (P.pw lw rw)) (buildRow : Row α (P.bw lw rw)) :
    Bool := p.joinFilter.all fun joinFilter => P.probeSide.evaluateFilter joinFilter probeRow buildRow

/-- The output row of a pair of rows, if the residual condition selects it. -/
def outputRow (P : JoinerParams) (p : JoinParams α lw rw)
    (pair : Option (Key κ × Row α (P.pw lw rw)) × Option (Key κ × Row α (P.bw lw rw))) : Option (List (Option α)) :=
  if selects P p (sideRow pair.1) (sideRow pair.2) then some (outputCols P p (sideRow pair.1) (sideRow pair.2)) else none

def resolve (build : List (Key κ × Row α (P.bw lw rw))) (x : Pair κ α (P.pw lw rw)) :
    Option (Key κ × Row α (P.pw lw rw)) × Option (Key κ × Row α (P.bw lw rw)) := (some x.1, buildOf build x.2)

/-- The pairs `done` are flushed: their rows are sent, and their build rows are marked. -/
structure Flushed (P : JoinerParams) (p : JoinParams α lw rw) (build : List (Key κ × Row α (P.bw lw rw)))
    (J : FullJoiner α) (done : List (Pair κ α (P.pw lw rw))) : Prop where
  sent : J.sent.flatten = done.filterMap fun x => outputRow P p (resolve build x)
  mapJoined : J.mapJoined = marks build.length fun i => P.buildSideOuter && done.any fun x => x.2 == some i

structure PairAt (rows : List (Key κ × Row α (P.pw lw rw))) (build : List (Key κ × Row α (P.bw lw rw)))
    (pair : ℕ × Option ℕ) (x : Pair κ α (P.pw lw rw)) : Prop where
  row : rows[pair.1]? = some x.1
  idx : pair.2 = x.2
  lt : ∀ i ∈ x.2, i < build.length

lemma takeRow_of_lt {w : ℕ} {build : List (Key κ × Row α w)} {o : Option ℕ} (h : ∀ i ∈ o, i < build.length) :
    takeRow build o = some (sideRow (buildOf build o)) := by
  cases o with
  | none => rfl
  | some i =>
    have hi := h i rfl
    simp [takeRow, buildOf, hi, sideRow]

lemma flushed_new (hdata : m.dataBatch = build) : Flushed P p build (new m) [] := by
  constructor
  · rfl
  · rw [← hdata]
    simp [new, marks_false]

def pairsOf {w : ℕ} (P : JoinerParams) (found : (Key κ × Row α w) × List ℕ) : List (Pair κ α w) :=
  found.2.map (fun i => (found.1, some i)) ++ if P.probeSideOuter && found.2.isEmpty then [(found.1, none)] else []

lemma pairAt_rowPairs {rowIdx : ℕ} {x : Key κ × Row α (P.pw lw rw)} {matched : List ℕ} (hrow : rows[rowIdx]? = some x)
    (hlt : ∀ i ∈ matched, i < build.length) :
    Forall₂ (PairAt rows build) (rowPairs P rowIdx matched) (pairsOf P (x, matched)) := by
  apply rel_append
  · rw [forall₂_map_left_iff, forall₂_map_right_iff, forall₂_same]
    intro i hi
    exact ⟨hrow, rfl, by simpa using hlt i hi⟩
  · dsimp only
    split
    · exact .cons ⟨hrow, rfl, by simp⟩ .nil
    · exact .nil

/-! ### Flushing -/

lemma flush_identity (numCols : ℕ) (hcols : numCols = lw + rw) (output : List (List (Option α))) :
    J.flush lw rw numCols output = some { J with sent := J.sent ++ [output] } := if_pos hcols

lemma contains_reduceOption {γ : Type} (xs : List (γ × Option ℕ)) (i : ℕ) :
    (xs.map Prod.snd).reduceOption.contains i = xs.any fun x => x.2 == some i := by
  rw [Bool.eq_iff_iff, contains_iff_mem, reduceOption_mem_iff]
  simp

variable [∀ i, DecidableEq (κ i)] {done : List (Pair κ α (P.pw lw rw))} (hm : m.Maps H keys build)
  (hproj : p.projection = .identity lw rw)
  (hfilter : p.joinFilter.isSome → P.probeSideOuter = false ∧ P.buildSideOuter = false)

include hm hproj hfilter in
/-- **A flush sends the pairs and marks their build rows.** -/
theorem flushHashJoined_spec {new : List (Pair κ α (P.pw lw rw))} (hJ : Flushed P p build J done)
    {pairs : List (ℕ × Option ℕ)}
    (hpairs : Forall₂ (PairAt rows build) pairs new) :
    ∃ J', J.flushHashJoined P p m rows pairs = some J' ∧ Flushed P p build J' (done ++ new) := by
  obtain rfl := hm.data
  have hprobe : takeProbe rows (pairs.map Prod.fst) = some ((new.map Prod.fst).map Prod.snd) := by
    apply takeProbe_eq
    rw [forall₂_map_left_iff, forall₂_map_right_iff]
    exact hpairs.imp fun _ _ h => h.row
  have hbuild : collect (takeRow m.dataBatch) (pairs.map Prod.snd) =
      some (new.map fun x => sideRow (buildOf m.dataBatch x.2)) := by
    rw [collect_eq_some_iff, forall₂_map_left_iff, forall₂_map_right_iff]
    refine hpairs.imp fun pair x h => ?_
    rw [h.idx]
    exact takeRow_of_lt h.lt
  have hcols : p.projection.left.length + p.projection.right.length = lw + rw := by simp [hproj, identity]
  have hidx : pairs.map Prod.snd = new.map Prod.snd := by
    rw [← forall₂_eq_eq_eq, forall₂_map_left_iff, forall₂_map_right_iff]
    exact hpairs.imp fun _ _ h => h.idx
  unfold flushHashJoined
  cases hp : p.joinFilter with
  | some joinFilter =>
    obtain ⟨hpo, hbo⟩ := hfilter (by simp [hp])
    simp only [hpo, hbo, Bool.or_self, Bool.false_eq_true, hprobe, hbuild, Option.bind_eq_bind, flush_identity _ hcols]
    refine ⟨_, rfl, ?_, ?_⟩
    · rw [zipWith_filterSelected, flatten_concat, hJ.sent, filterMap_append]
      congr 1
      rw [map_map, zip_map', filterMap_map]
      refine filterMap_congr fun x _ => ?_
      simp [outputRow, selects, hp, resolve, sideRow]
    · simpa [hbo] using hJ.mapJoined
  | none =>
    simp only [hprobe, hbuild, Option.bind_eq_bind, flush_identity _ hcols]
    refine ⟨_, rfl, ?_, ?_⟩
    · have hzip : zipWith (outputCols P p) ((new.map Prod.fst).map Prod.snd)
          (new.map fun x => sideRow (buildOf m.dataBatch x.2)) =
          new.filterMap fun x => outputRow P p (resolve m.dataBatch x) := by
        rw [map_map, zipWith_map, zipWith_self, ← filterMap_eq_map]
        refine filterMap_congr fun x _ => ?_
        simp [outputRow, selects, hp, resolve, sideRow]
      rw [flatten_concat, hzip, filterMap_append, ← hJ.sent]
      split <;> rfl
    · cases hbo : P.buildSideOuter with
      | false => simpa [hbo] using hJ.mapJoined
      | true =>
        simp only [hJ.mapJoined, markAll_marks, hidx, hbo, Bool.true_and]
        refine marks_congr fun i _ => ?_
        rw [any_append, contains_reduceOption]

/-! ### A batch -/

include hm hproj hfilter in
lemma joinRows_spec (hrows : rows.length ≤ 2 ^ 32) (found : List ((Key κ × Row α (P.pw lw rw)) × List ℕ)) (rowIdx : ℕ)
    (hfound : rows.drop rowIdx = found.map Prod.fst) (hlt : ∀ f ∈ found, ∀ i ∈ f.2, i < build.length)
    {pend : List (Pair κ α (P.pw lw rw))} (hJ : Flushed P p build J done) {pairs : List (ℕ × Option ℕ)}
    (hpairs : Forall₂ (PairAt rows build) pairs pend) :
    ∃ pairs' J' done' pend', joinRows P p m rows rowIdx (found.map Prod.snd) pairs J = some (pairs', J') ∧
      Flushed P p build J' done' ∧ Forall₂ (PairAt rows build) pairs' pend' ∧
      done' ++ pend' = done ++ pend ++ found.flatMap (pairsOf P) := by
  induction found generalizing rowIdx J done pend pairs with
  | nil => exact ⟨pairs, J, done, pend, rfl, hJ, hpairs, by simp⟩
  | cons f found ih =>
    have hrow : rows[rowIdx]? = some f.1 := by
      have := congrArg (·[0]?) hfound
      simpa using this
    have hrest : rows.drop (rowIdx + 1) = found.map Prod.fst := by
      have := congrArg (drop 1) hfound
      simpa [drop_drop, add_comm] using this
    have hmod : rowIdx % 2 ^ 32 = rowIdx := by
      have := lt_of_getElem? hrow
      exact Nat.mod_eq_of_lt (by omega)
    have hpairs' : Forall₂ (PairAt rows build) (pairs ++ rowPairs P (rowIdx % 2 ^ 32) f.2)
        (pend ++ pairsOf P f) := by
      rw [hmod]
      exact rel_append hpairs (pairAt_rowPairs hrow (hlt f (by simp)))
    have hlt' : ∀ f ∈ found, ∀ i ∈ f.2, i < build.length := fun f hf => hlt f (by simp [hf])
    rw [map_cons, joinRows, flatMap_cons]
    split
    · obtain ⟨_, hJ1, hflushed⟩ := flushHashJoined_spec hm hproj hfilter hJ hpairs'
      obtain ⟨pairs2, J2, done2, pend2, hrun, hdone, hpend, heq⟩ := ih (rowIdx + 1) hrest hlt' hflushed .nil
      refine ⟨pairs2, J2, done2, pend2, ?_, hdone, hpend, ?_⟩
      · rw [hJ1]
        exact hrun
      · simpa using heq
    · obtain ⟨pairs2, J2, done2, pend2, hrun, hdone, hpend, heq⟩ := ih (rowIdx + 1) hrest hlt' hJ hpairs'
      exact ⟨pairs2, J2, done2, pend2, hrun, hdone, hpend, by simpa using heq⟩

include hm hproj hfilter in
/-- **What `join` does with a batch**: it flushes the pairs of all its rows. -/
theorem join_spec {batch : ProbeBatch κ α (P.pw lw rw)} (hkeys : ∀ x ∈ batch.rows, keys x.1)
    (hJ : Flushed P p build J done) :
    ∃ J' found, J.join P p H m batch = some J' ∧ Forall₂ (Found build) batch.rows found ∧
      Flushed P p build J' (done ++ found.flatMap (pairsOf P)) := by
  obtain ⟨found, hprobe, hfound⟩ := probeBatch_spec hm hkeys
  have hfst : batch.rows.drop 0 = found.map Prod.fst := by
    rw [drop_zero, ← forall₂_eq_eq_eq, forall₂_map_right_iff]
    exact hfound.imp fun x f h => h.1.symm
  have hlt : ∀ f ∈ found, ∀ i ∈ f.2, i < build.length := by
    intro f hf i hi
    obtain ⟨x, -, hx⟩ := exists_left_of_forall₂ hfound hf
    exact hx.lt_length hi
  obtain ⟨_, J1, _, pend, hrun, hJ1, hpend, heq⟩ :=
    joinRows_spec hm hproj hfilter batch.rows_le found 0 hfst hlt hJ .nil
  rw [append_nil] at heq
  simp only [join, hprobe, hrun, Option.bind_eq_bind, Option.bind_some]
  split
  · rename_i hempty
    have hnil : pend = [] := by
      rw [isEmpty_iff.1 hempty] at hpend
      exact forall₂_nil_left_iff.1 hpend
    refine ⟨J1, found, rfl, hfound, ?_⟩
    rwa [← heq, hnil, append_nil]
  · obtain ⟨J2, hJ2, _⟩ := flushHashJoined_spec hm hproj hfilter hJ1 hpend
    refine ⟨J2, found, hJ2, hfound, ?_⟩
    rwa [← heq]

/-! ### The run -/

include hm hproj hfilter in
/-- **All batches**: whether or not probing ends early, the pairs of all probe rows are flushed. -/
theorem probeAll_spec {probed : List (ProbeBatch κ α (P.pw lw rw))} (hkeys : ∀ x ∈ probed.flatMap (·.rows), keys x.1)
    (hJ : Flushed P p build J done) :
    ∃ J' found, probeAll (fun _ => canEarlyStop P m) (join P p H m) probed J = some J' ∧
      Forall₂ (Found build) (probed.flatMap (·.rows)) found ∧
      Flushed P p build J' (done ++ found.flatMap (pairsOf P)) := by
  induction probed generalizing J done with
  | nil => exact ⟨J, [], rfl, .nil, by simpa using hJ⟩
  | cons batch probed ih =>
    rw [probeAll]
    split
    · -- no build row has a partner, and rows without one are not sent
      rename_i hstop
      have hstop' : P.probeSideOuter = false ∧ m.isAllNulls = true := by
        unfold canEarlyStop at hstop
        cases hpo : P.probeSideOuter <;> simp_all
      have hnull := hm.allNulls.symm.trans hstop'.2
      refine ⟨J, ((batch :: probed).flatMap (·.rows)).map fun x => (x, []), rfl, ?_, ?_⟩
      · rw [forall₂_map_right_iff, forall₂_same]
        intro x _
        exact ⟨rfl, .of_eq (partnerIndices_of_allNull hnull x.1).symm⟩
      · have hnone : (((batch :: probed).flatMap (·.rows)).map fun x => (x, ([] : List ℕ))).flatMap (pairsOf P) = [] := by
          simp [flatMap_map, pairsOf, hstop'.1]
        rwa [hnone, append_nil]
    · rw [flatMap_cons, forall_mem_append] at hkeys
      obtain ⟨_, found1, hjoin, hfound1, hJ1⟩ := join_spec hm hproj hfilter hkeys.1 hJ
      obtain ⟨J2, found2, hrun, hfound2, _⟩ := ih hkeys.2 hJ1
      refine ⟨J2, found1 ++ found2, ?_, ?_, ?_⟩
      · rw [hjoin]
        exact hrun
      · rw [flatMap_cons]
        exact rel_append hfound1 hfound2
      · rwa [flatMap_append, ← append_assoc]

/-! ### The pairs are those of the join -/

section Relational

variable {w w' : ℕ} {build : List (Key κ × Row α w)}

lemma resolve_pairsOf {build : List (Key κ × Row α (P.bw lw rw))} {x : Key κ × Row α (P.pw lw rw)}
    {found : (Key κ × Row α (P.pw lw rw)) × List ℕ} (h : Found build x found) :
    ((pairsOf P found).map (resolve build)).Perm
      (leftJoinOf P.probeSideOuter (fun l r => partners l.1 r.1) build x) := by
  obtain ⟨rfl, hperm⟩ := h
  unfold pairsOf leftJoinOf
  rw [Found.isEmpty_eq ⟨rfl, hperm⟩, map_append]
  apply Perm.append
  · have hmap := (hperm.map fun i => build[i]?).map fun y => (some found.1, y)
    rw [map_partnerIndices, map_map, map_map] at hmap
    rw [map_map]
    exact hmap
  · split <;> exact .of_eq rfl

lemma resolve_flatMap_pairsOf {build : List (Key κ × Row α (P.bw lw rw))} {probe : List (Key κ × Row α (P.pw lw rw))}
    {found : List ((Key κ × Row α (P.pw lw rw)) × List ℕ)} (hfound : Forall₂ (Found build) probe found) :
    ((found.flatMap (pairsOf P)).map (resolve build)).Perm (innerJoin (fun l r => partners l.1 r.1) probe build ++
      if P.probeSideOuter then unmatchedLeft (fun l r => partners l.1 r.1) probe build else []) := by
  refine Perm.trans ?_ (flatMap_leftJoinOf _ _ probe build)
  induction hfound with
  | nil => exact .nil
  | cons hf _ ih =>
    rw [flatMap_cons, map_append]
    exact (resolve_pairsOf hf).append ih

lemma any_pairsOf {probe : List (Key κ × Row α w')} {found : List ((Key κ × Row α w') × List ℕ)}
    (hfound : Forall₂ (Found build) probe found) {y : (Key κ × Row α w) × ℕ} (hy : y ∈ build.zipIdx) :
    (found.flatMap (pairsOf P)).any (fun x => x.2 == some y.2) =
      hasPartner (fun r l => partners l.1 r.1) probe y.1 := by
  have hrow : ∀ (x : Key κ × Row α w') (f : (Key κ × Row α w') × List ℕ), Found build x f →
      (pairsOf P f).any (fun x => x.2 == some y.2) = partners x.1 y.1.1 := by
    intro x f hf
    rw [Bool.eq_iff_iff, ← hf.mem_iff hy]
    unfold pairsOf
    split <;> simp
  induction hfound with
  | nil => rfl
  | cons hf _ ih =>
    rw [flatMap_cons, any_append, hrow _ _ hf, ih]
    rfl

end Relational

lemma projectProbe_identity (side : ProbeSide) (row : Row α (side.probeWidth lw rw)) :
    side.projectProbe (.identity lw rw) row = row.toList := by
  cases side
  · exact projectLeft_identity row
  · exact projectRight_identity row

lemma projectBuild_identity (side : ProbeSide) (row : Row α (side.buildWidth lw rw)) :
    side.projectBuild (.identity lw rw) row = row.toList := by
  cases side
  · exact projectRight_identity row
  · exact projectLeft_identity row

include hm hproj in
/-- **What `finish` sends**: the build rows without a partner, if the build side is outer. -/
theorem finish_spec {probe : List (Key κ × Row α (P.pw lw rw))} {found : List ((Key κ × Row α (P.pw lw rw)) × List ℕ)}
    (hfound : Forall₂ (Found build) probe found) (hJ : Flushed P p build J (found.flatMap (pairsOf P))) :
    ∃ J', J.finish P p m = some J' ∧ J'.sent.flatten = J.sent.flatten ++
      if P.buildSideOuter then (unmatchedRight (fun l r => partners l.1 r.1) probe build).map fun pair =>
        outputCols P p (sideRow pair.1) (sideRow pair.2)
      else [] := by
  unfold finish
  cases hbo : P.buildSideOuter with
  | false => exact ⟨J, rfl, by simp⟩
  | true =>
    have hrows : collect (fun i => m.dataBatch[i]?.map Prod.snd) (positions (!·) J.mapJoined) =
        some ((build.filter fun y => !hasPartner (fun r l => partners l.1 r.1) probe y).map Prod.snd) := by
      rw [hJ.mapJoined, hm.data]
      have hmarks : marks build.length (fun i => P.buildSideOuter && (found.flatMap (pairsOf P)).any fun x =>
          x.2 == some i) = build.map (hasPartner (fun r l => partners l.1 r.1) probe) := by
        refine marks_eq_map fun y hy => ?_
        rw [hbo, Bool.true_and, any_pairsOf hfound hy]
      rw [hmarks]
      exact collect_positions (!·) Prod.snd _ build
    have hcols : P.pw lw rw + P.probeSide.buildCols p.projection = lw + rw := by
      rw [hproj]
      obtain ⟨side, _, _⟩ := P
      cases side
      · simp [ProbeSide.buildCols, identity]
      · simp [ProbeSide.buildCols, identity, add_comm]
    simp only [hrows, Option.bind_eq_bind, flush_identity _ hcols]
    refine ⟨_, rfl, ?_⟩
    rw [flatten_concat]
    congr 1
    unfold unmatchedRight outputCols
    rw [map_map, map_map]
    refine map_congr_left fun y _ => ?_
    simp only [Function.comp_apply, sideRow, hproj, projectProbe_identity]

def relationalJoin (P : JoinerParams) (p : JoinParams α lw rw) (probe : List (Key κ × Row α (P.pw lw rw)))
    (build : List (Key κ × Row α (P.bw lw rw))) : List (List (Option α)) :=
  match P with
  | ⟨.L, probeSideOuter, buildSideOuter⟩ => Joins.relationalJoin probeSideOuter buildSideOuter p probe build
  | ⟨.R, probeSideOuter, buildSideOuter⟩ => Joins.relationalJoin buildSideOuter probeSideOuter p build probe

include hfilter in
lemma filterMap_outerJoin (probe : List (Key κ × Row α (P.pw lw rw))) (build : List (Key κ × Row α (P.bw lw rw))) :
    (outerJoin P.probeSideOuter P.buildSideOuter (fun l r => partners l.1 r.1) probe build).filterMap (outputRow P p) =
      (outerJoin P.probeSideOuter P.buildSideOuter (fun l r => partners l.1 r.1 && selects P p l.2 r.2) probe build).map
        fun pair => outputCols P p (sideRow pair.1) (sideRow pair.2) := by
  cases hp : p.joinFilter with
  | none =>
    have hsel : ∀ l r, selects P p l r = true := fun l r => by simp [selects, hp]
    unfold outputRow
    simp [hsel]
  | some joinFilter =>
    obtain ⟨hpo, hbo⟩ := hfilter (by simp [hp])
    simp only [outerJoin, hpo, hbo, Bool.false_eq_true, if_false, append_nil]
    refine filterMap_innerJoin (fun l r =>
      partners l.1 r.1) (fun l r => selects P p l.2 r.2) _ _ ?_ probe build
    intro l r
    rfl

include hproj in
lemma outputCols_eq (po bo : Bool) (l : Row α lw) (r : Row α rw) :
    outputCols ⟨.L, po, bo⟩ p l r = p.joinedRow l r ∧ outputCols ⟨.R, po, bo⟩ p r l = p.joinedRow l r := by
  unfold outputCols JoinParams.joinedRow
  rw [hproj, projectProbe_identity, projectBuild_identity, projectProbe_identity, projectBuild_identity,
    projectLeft_identity, projectRight_identity]
  split <;> exact ⟨rfl, rfl⟩

include hproj in
lemma outerJoin_perm_relationalJoin (probe : List (Key κ × Row α (P.pw lw rw))) (build : List (Key κ × Row α (P.bw lw rw))) :
    ((outerJoin P.probeSideOuter P.buildSideOuter (fun l r => partners l.1 r.1 && selects P p l.2 r.2) probe build).map
      fun pair => outputCols P p (sideRow pair.1) (sideRow pair.2)).Perm (relationalJoin P p probe build) := by
  obtain ⟨side, po, bo⟩ := P
  cases side with
  | L =>
    apply Perm.of_eq
    refine map_congr_left fun pair _ => ?_
    exact (outputCols_eq hproj po bo _ _).1
  | R =>
    refine ((outerJoin_swap po bo _ probe build).map _).trans ?_
    rw [map_map]
    simp only [partners_comm]
    apply Perm.of_eq
    refine map_congr_left fun pair _ => ?_
    exact (outputCols_eq hproj po bo _ _).2

include hm hproj hfilter in
lemma executeJoinWithMap_spec (probed : List (ProbeBatch κ α (P.pw lw rw)))
    (hkeys : ∀ x ∈ probed.flatMap (·.rows), keys x.1) :
    ∃ J, executeJoinWithMap P p H m probed = some J ∧
      J.sent.flatten.Perm (relationalJoin P p (probed.flatMap (·.rows)) build) := by
  obtain ⟨J1, _, hrun, hfound, hJ1⟩ := probeAll_spec hm hproj hfilter hkeys (flushed_new hm.data)
  rw [nil_append] at hJ1
  obtain ⟨J2, hfinish, hsent⟩ := finish_spec hm hproj hfound hJ1
  refine ⟨J2, by simp [executeJoinWithMap, hrun, hfinish], ?_⟩
  have hprobe : J1.sent.flatten.Perm ((innerJoin (fun l r => partners l.1 r.1) (probed.flatMap (·.rows)) build ++
      if P.probeSideOuter then unmatchedLeft (fun l r => partners l.1 r.1) (probed.flatMap (·.rows)) build
      else []).filterMap (outputRow P p)) := by
    have := (resolve_flatMap_pairsOf hfound).filterMap (outputRow P p)
    rw [filterMap_map] at this
    rwa [hJ1.sent]
  refine Perm.trans ?_ (outerJoin_perm_relationalJoin hproj _ _)
  rw [← filterMap_outerJoin hfilter, outerJoin, filterMap_append, hsent]
  refine hprobe.append (.of_eq ?_)
  cases hbo : P.buildSideOuter with
  | false => rfl
  | true =>
    -- a residual condition would rule the outer side out
    have hp : p.joinFilter = none := by
      cases hp : p.joinFilter with
      | none => rfl
      | some joinFilter => simp [hbo, hp] at hfilter
    rw [if_pos rfl, if_pos rfl, ← filterMap_eq_map]
    refine filterMap_congr fun pair _ => ?_
    simp [outputRow, selects, hp]

/-- **The hash join is the relational join.**  Whatever the hash function and the batches of the probe side are, the map
is built, every batch is joined and the run ends; the rows sent are those of the join, each as often as it occurs
there. -/
theorem executeJoinWithMap_correct (P : JoinerParams) (p : JoinParams α lw rw) (H : KeyHash κ)
    (hproj : p.projection = .identity lw rw)
    (hfilter : p.joinFilter.isSome → P.probeSideOuter = false ∧ P.buildSideOuter = false)
    (build : List (Key κ × Row α (P.bw lw rw))) (hbuild : build.length < 2 ^ 30)
    (probed : List (ProbeBatch κ α (P.pw lw rw))) :
    ∃ m J, JoinHashMap.create H build = some m ∧ executeJoinWithMap P p H m probed = some J ∧
      J.sent.flatten.Perm (relationalJoin P p (probed.flatMap (·.rows)) build) := by
  obtain ⟨m, hcreate, hm⟩ := JoinHashMap.create_maps H build hbuild
  obtain ⟨J, hrun, hsent⟩ := executeJoinWithMap_spec hm hproj hfilter probed fun _ _ => trivial
  exact ⟨m, J, hcreate, hrun, hsent⟩

/-- A full outer join with null, repeated and colliding keys, probed with two batches from the left. -/
theorem executeJoinWithMap_correct_fullOuter :
    ∃ m J, JoinHashMap.create KeyHash.collidingBytes.toKeyComparator
        [(fun _ => some 5, #v[none]), (fun _ => none, #v[some 8]), (fun _ => some 5, #v[some 9])] = some m ∧
      executeJoinWithMap .leftProbedOuter ⟨.identity 1 1, none, 2, false⟩ KeyHash.collidingBytes.toKeyComparator m
        [⟨[(fun _ => some 5, #v[some 1]), (fun _ => none, #v[some 2])], by simp⟩,
          ⟨[(fun _ => some 6, #v[some 3])], by simp⟩] = some J ∧
      J.sent.flatten.Perm [[some 1, none], [some 1, some 9], [some 2, none], [some 3, none], [none, some (8 : ℕ)]] :=
  executeJoinWithMap_correct .leftProbedOuter _ KeyHash.collidingBytes rfl (by simp) _ (by decide) _

end FullJoiner

end Auron.Joins.Bhj
