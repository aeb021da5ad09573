import Auron.Joins.Bhj.Probe
import Auron.Lib.Marks

/-!
# The semi, anti and existence hash join (`joins/bhj/semi_join.rs`)

`SemiJoiner` outputs rows of one side, the join side, by whether they have a partner.  If the join side is the probe side,
the rows of a batch are output when the batch is joined.  If it is the build side, the rows with a partner are marked,
and they are output at the end.

* A probe row that finds several equal build rows marks all of them, or none if the first is marked already: then a probe
  row with the same key came before (`markMap_marks`).
* Probing ends early if all build rows are marked (`probeAll_spec`).
* A null-aware anti join leaves out a probe row with a null key, and all probe rows if the build side has a null key.
  Rows left out this way do not take a map value; the map values of a batch are those of its rows without null, so they
  are out of step with the rows only if every row is left out (`joinRows_skipAll`, `joinRows_spec`).

The operator outputs all columns of the join side, as `execute` asks for; a batch needs at least one column.

`executeJoinWithMap_rows` says which rows a run outputs.  The rest of the module compares them with what the join is for:
the relational joins without the null-aware flag, and `NOT IN` with it.
-/

namespace Auron.Joins.Bhj

open Auron.Lib List JoinHashMap
open Option (any_some bind_eq_bind bind_some)

variable {n : ℕ} {κ : Fin n → Type} {α : Type} {lw rw w w' : ℕ}

inductive SemiMode where
  | semi
  | anti
  | existence
  deriving DecidableEq, Repr

structure SemiJoinerParams where
  probeSide : ProbeSide
  probeIsJoinSide : Bool
  mode : SemiMode

namespace SemiJoinerParams

def leftProbedLeftSemi : SemiJoinerParams := ⟨.L, true, .semi⟩

def leftProbedLeftAnti : SemiJoinerParams := ⟨.L, true, .anti⟩

def leftProbedRightSemi : SemiJoinerParams := ⟨.L, false, .semi⟩

def leftProbedRightAnti : SemiJoinerParams := ⟨.L, false, .anti⟩

def leftProbedExistence : SemiJoinerParams := ⟨.L, true, .existence⟩

def rightProbedLeftSemi : SemiJoinerParams := ⟨.R, false, .semi⟩

def rightProbedLeftAnti : SemiJoinerParams := ⟨.R, false, .anti⟩

def rightProbedRightSemi : SemiJoinerParams := ⟨.R, true, .semi⟩

def rightProbedRightAnti : SemiJoinerParams := ⟨.R, true, .anti⟩

def rightProbedExistence : SemiJoinerParams := ⟨.R, false, .existence⟩

variable (P : SemiJoinerParams)

abbrev pw (lw rw : ℕ) : ℕ := P.probeSide.probeWidth lw rw

abbrev bw (lw rw : ℕ) : ℕ := P.probeSide.buildWidth lw rw

def joinWidth (lw rw : ℕ) : ℕ := if P.probeIsJoinSide then P.pw lw rw else P.bw lw rw

def extraCols : ℕ := if P.mode = .existence then 1 else 0

def KeepsAll (projection : JoinProjection lw rw) : Prop :=
  match P.probeSide, P.probeIsJoinSide with
  | .L, true => projection.left = finRange lw
  | .L, false => projection.right = finRange rw
  | .R, true => projection.right = finRange rw
  | .R, false => projection.left = finRange lw

end SemiJoinerParams

/-- `SemiJoiner`, with the batches given to its sender. -/
structure SemiJoiner (α : Type) where
  mapJoined : List Bool
  sent : List (List (List (Option α)))

namespace SemiJoiner

def new (m : JoinHashMap κ α w) : SemiJoiner α := ⟨replicate m.dataBatch.length false, []⟩

/-- `flush`: a batch needs as many columns as the output schema has fields, and at least one. -/
def flush (P : SemiJoinerParams) (lw rw : ℕ) (J : SemiJoiner α) (numCols : ℕ) (output : List (List (Option α))) :
    Option (SemiJoiner α) :=
  if numCols = P.joinWidth lw rw + P.extraCols ∧ 0 < numCols then some { J with sent := J.sent ++ [output] } else none

def buildHasNullKeys (m : JoinHashMap κ α w) : Bool := m.dataBatch.any fun y => y.1.hasNull

/-- The condition under which a null-aware anti join leaves a probe row out. -/
def leavesOut (P : SemiJoinerParams) (p : JoinParams α lw rw) (m : JoinHashMap κ α w) (k : Key κ) : Bool :=
  P.mode == .anti && P.probeIsJoinSide && (k.hasNull || buildHasNullKeys m) && p.isNullAwareAntiJoin

/-- The marks after a probe row that the build rows `matched` are equal to; `v` is the map value they came from. -/
def markMap (v : MapValue) (mapJoined : List Bool) (matched : List ℕ) : Option (List Bool) :=
  if v.isSingle then some (markAll mapJoined matched)
  else
    match matched with
    | [] => some mapJoined
    | mapIdx :: rest => do
      if ← mapJoined[mapIdx]? then some mapJoined else some (markAll (mapJoined.set mapIdx true) rest)

/-- The loop of `join` over the rows of a batch: the bits of the rows, and the marks of the build rows. -/
def joinRows (P : SemiJoinerParams) (p : JoinParams α lw rw) (H : KeyComparator κ) (m : JoinHashMap κ α w) :
    List (Key κ × Row α w') → List MapValue → List Bool → Option (List Bool × List Bool)
  | [], _, mapJoined => some ([], mapJoined)
  | x :: rows, mapValues, mapJoined => do
    if leavesOut P p m x.1 then
      let (probedJoined, mapJoined) ← joinRows P p H m rows mapValues mapJoined
      some (true :: probedJoined, mapJoined)
    else if x.1.hasNull then
      let (probedJoined, mapJoined) ← joinRows P p H m rows mapValues mapJoined
      some (false :: probedJoined, mapJoined)
    else
      match mapValues with
      | [] => none
      | v :: mapValues =>
        let matched ← m.matchedIndices H x.1 v
        if P.probeIsJoinSide then
          let (probedJoined, mapJoined) ← joinRows P p H m rows mapValues mapJoined
          some ((!matched.isEmpty) :: probedJoined, mapJoined)
        else
          let mapJoined ← markMap v mapJoined matched
          let (probedJoined, mapJoined) ← joinRows P p H m rows mapValues mapJoined
          some (false :: probedJoined, mapJoined)

/-- The output rows of a side with projected rows `rows` and bits `joined`. -/
def outputRows (mode : SemiMode) (ofBool : Bool → α) (rows : List (List (Option α))) (joined : List Bool) :
    Option (List (List (Option α))) :=
  match mode with
  | .existence =>
    if joined.length = rows.length then
      some (zipWith (fun row exist => row ++ [some (ofBool exist)]) rows joined)
    else none
  | _ => collect (fun i => rows[i]?) (positions (fun joined => (mode == .semi) ^^ !joined) joined)

section Join

variable (P : SemiJoinerParams)

variable (p : JoinParams α lw rw)

def join (ofBool : Bool → α) (H : KeyComparator κ)
    (m : JoinHashMap κ α (P.bw lw rw)) (batch : ProbeBatch κ α (P.pw lw rw)) (J : SemiJoiner α) :
    Option (SemiJoiner α) := do
  let mapValues ← m.table.lookupMany ((batch.rows.filter fun x => !x.1.hasNull).map fun x => H.hash x.1)
  let (probedJoined, mapJoined) ← joinRows P p H m batch.rows mapValues J.mapJoined
  let J := { J with mapJoined }
  if P.probeIsJoinSide then
    let rows := batch.rows.map fun x => P.probeSide.projectProbe p.projection x.2
    let output ← outputRows P.mode ofBool rows probedJoined
    J.flush P lw rw (P.probeSide.probeCols p.projection + P.extraCols) output
  else some J

def finish (ofBool : Bool → α) (m : JoinHashMap κ α (P.bw lw rw)) (J : SemiJoiner α) : Option (SemiJoiner α) := do
  if !P.probeIsJoinSide then
    let rows := m.dataBatch.map fun y => P.probeSide.projectBuild p.projection y.2
    let output ← outputRows P.mode ofBool rows J.mapJoined
    J.flush P lw rw (P.probeSide.buildCols p.projection + P.extraCols) output
  else some J

def canEarlyStop (J : SemiJoiner α) : Bool := !P.probeIsJoinSide && J.mapJoined.all id

/-- `execute_join_with_map`, with a semi joiner. -/
def executeJoinWithMap (ofBool : Bool → α) (H : KeyComparator κ)
    (m : JoinHashMap κ α (P.bw lw rw)) (probed : List (ProbeBatch κ α (P.pw lw rw))) : Option (SemiJoiner α) := do
  let J ← probeAll (canEarlyStop P) (join P p ofBool H m) probed (new m)
  J.finish P p ofBool m

end Join

section Marks

variable [∀ i, DecidableEq (κ i)] {build : List (Key κ × Row α w)} {seen : List (Key κ × Row α w')}

/-- The build row of the given number has a partner among the probe rows. -/
def touched (build : List (Key κ × Row α w)) (seen : List (Key κ × Row α w')) (i : ℕ) : Bool :=
  build[i]?.any fun y => seen.any fun x => partners x.1 y.1

lemma touched_append (seen' : List (Key κ × Row α w')) (i : ℕ) :
    touched build (seen ++ seen') i = (touched build seen i || touched build seen' i) := by
  unfold touched
  cases build[i]? with
  | none => rfl
  | some y => simp

variable {x : Key κ × Row α w'}

lemma contains_found {matched : List ℕ} (hf : Found build x (x, matched)) {i : ℕ} (hi : i < build.length) :
    matched.contains i = touched build [x] i := by
  have hy : (build[i], i) ∈ build.zipIdx := by
    rw [mk_mem_zipIdx_iff_getElem?, getElem?_eq_getElem hi]
  rw [Bool.eq_iff_iff, contains_iff_mem, hf.mem_iff hy]
  simp [touched, hi]

/-- **If the first partner of a row is touched, all are**: the key came before. -/
theorem touched_of_touched {i j : ℕ} (hi : touched build [x] i = true) (hseen : touched build seen i = true)
    (hj : touched build [x] j = true) : touched build seen j = true := by
  unfold touched at hi hseen hj ⊢
  cases hbi : build[i]? with
  | none => simp [hbi] at hi
  | some y =>
    cases hbj : build[j]? with
    | none => simp [hbj] at hj
    | some z =>
      simp only [hbi, any_some, any_cons, any_nil, Bool.or_false, partners_iff] at hi
      simp only [hbj, any_some, any_cons, any_nil, Bool.or_false, partners_iff] at hj
      simp only [hbi, any_some, any_eq_true, partners_iff] at hseen
      obtain ⟨x', hx', hnull, hkey⟩ := hseen
      rw [any_some, any_eq_true]
      refine ⟨x', hx', partners_iff.2 ⟨hnull, ?_⟩⟩
      rw [hkey, ← hi.2, hj.2]

/-- **The marks after a row**: those of the build rows touched so far. -/
theorem markMap_marks (v : MapValue) {matched : List ℕ} (hf : Found build x (x, matched)) :
    markMap v (marks build.length (touched build seen)) matched =
      some (marks build.length (touched build (seen ++ [x]))) := by
  have hall : markAll (marks build.length (touched build seen)) matched =
      marks build.length (touched build (seen ++ [x])) := by
    rw [markAll_marks]
    refine marks_congr fun i hi => ?_
    rw [contains_found hf hi, touched_append]
  unfold markMap
  split
  · rw [hall]
  · match matched, hf, hall with
    | [], _, hall => exact congrArg some hall
    | mapIdx :: rest, hf, hall =>
      have hlt : mapIdx < build.length := hf.lt_length (mem_cons_self ..)
      have hfirst : touched build [x] mapIdx = true := by
        rw [← contains_found hf hlt]
        simp
      dsimp only
      rw [getElem?_marks _ hlt, bind_eq_bind, bind_some]
      split
      · rename_i hmarked
        congr 1
        refine marks_congr fun i _ => ?_
        rw [touched_append, Bool.eq_iff_iff, Bool.or_eq_true]
        refine ⟨Or.inl, ?_⟩
        rintro (h | h)
        · exact h
        · exact touched_of_touched hfirst hmarked h
      · exact congrArg some hall

end Marks

section Rows

variable [∀ i, DecidableEq (κ i)] {P : SemiJoinerParams} {p : JoinParams α lw rw} {H : KeyComparator κ}
  {keys : Key κ → Prop}   {build : List (Key κ × Row α w)} {m : JoinHashMap κ α w}

def nullAware (P : SemiJoinerParams) (p : JoinParams α lw rw) : Bool :=
  P.mode == .anti && P.probeIsJoinSide && p.isNullAwareAntiJoin

omit [∀ i, DecidableEq (κ i)] in
lemma probeIsJoinSide_of_nullAware (haware : nullAware P p = true) : P.probeIsJoinSide = true := by
  unfold nullAware at haware
  simp only [Bool.and_eq_true] at haware
  exact haware.1.2

/-- The bit of a probe row, if the probe side is the join side. -/
def probeBit (P : SemiJoinerParams) (p : JoinParams α lw rw) (build : List (Key κ × Row α w)) (x : Key κ × Row α w') :
    Bool :=
  nullAware P p && (x.1.hasNull || build.any fun y => y.1.hasNull) || build.any fun y => partners x.1 y.1

/-- The mark of a build row, if the build side is the join side. -/
def buildMark (P : SemiJoinerParams) (build : List (Key κ × Row α w)) (seen : List (Key κ × Row α w')) (i : ℕ) : Bool :=
  !P.probeIsJoinSide && touched build seen i

lemma buildMark_of_probeSide (hside : P.probeIsJoinSide = true) (seen : List (Key κ × Row α w')) :
    buildMark P build seen = fun _ => false := by
  funext i
  simp [buildMark, hside]

lemma buildMark_of_buildSide (hside : P.probeIsJoinSide = false) (seen : List (Key κ × Row α w')) :
    buildMark P build seen = touched build seen := by
  funext i
  simp [buildMark, hside]

omit [∀ i, DecidableEq (κ i)] in
lemma leavesOut_eq (hdata : m.dataBatch = build) (k : Key κ) :
    leavesOut P p m k = (nullAware P p && (k.hasNull || build.any fun y => y.1.hasNull)) := by
  unfold leavesOut nullAware buildHasNullKeys
  rw [hdata, Bool.and_assoc, Bool.and_comm (_ || _), ← Bool.and_assoc]

omit [∀ i, DecidableEq (κ i)] in
lemma joinRows_skipAll (hdata : m.dataBatch = build) (haware : nullAware P p = true)
    (hnull : (build.any fun y => y.1.hasNull) = true) (rows : List (Key κ × Row α w')) (mapValues : List MapValue)
    (mapJoined : List Bool) :
    joinRows P p H m rows mapValues mapJoined = some (rows.map fun _ => true, mapJoined) := by
  induction rows with
  | nil => rfl
  | cons x rows ih =>
    have hout : leavesOut P p m x.1 = true := by rw [leavesOut_eq hdata, haware, hnull, Bool.or_true, Bool.and_true]
    simp [joinRows, hout, ih]

lemma touched_of_hasNull {x : Key κ × Row α w'} (hx : x.1.hasNull = true) (i : ℕ) : touched build [x] i = false := by
  unfold touched
  cases build[i]? <;> simp [partners, hx]

/-- The loop over the rows of a batch gives each its bit and marks the build rows it touches. -/
def RowsJoin (P : SemiJoinerParams) (p : JoinParams α lw rw) (H : KeyComparator κ) (m : JoinHashMap κ α w)
    (build : List (Key κ × Row α w)) (rows : List (Key κ × Row α w')) : Prop :=
  ∃ mapValues, m.table.lookupMany ((rows.filter fun x => !x.1.hasNull).map fun x => H.hash x.1) = some mapValues ∧
    ∀ seen : List (Key κ × Row α w'),
      joinRows P p H m rows mapValues (marks build.length (buildMark P build seen)) =
        some (rows.map fun x => P.probeIsJoinSide && probeBit P p build x,
          marks build.length (buildMark P build (seen ++ rows)))

lemma joinRows_spec (hm : m.Maps H keys build) (hstep : (nullAware P p && build.any fun y => y.1.hasNull) = false)
    {rows : List (Key κ × Row α w')} (hkeys : ∀ x ∈ rows, keys x.1) : RowsJoin P p H m build rows := by
  induction rows with
  | nil =>
    refine ⟨[], rfl, fun seen => ?_⟩
    simp [joinRows]
  | cons x rows ih =>
    obtain ⟨hkey, hkeys⟩ := forall_mem_cons.1 hkeys
    obtain ⟨mapValues, hlookup, hrun⟩ := ih hkeys
    by_cases hx : x.1.hasNull = true
    · -- the row takes no map value, whether it is left out or not
      refine ⟨mapValues, by rwa [filter_cons_of_neg (by simpa using hx)], fun seen => ?_⟩
      have hmarks : marks build.length (buildMark P build (seen ++ x :: rows)) =
          marks build.length (buildMark P build (seen ++ rows)) := by
        refine marks_congr fun i _ => ?_
        unfold buildMark
        rw [append_cons, touched_append, touched_append, touched_append, touched_of_hasNull hx, Bool.or_false]
      have hout : leavesOut P p m x.1 = nullAware P p := by rw [leavesOut_eq hm.data, hx, Bool.true_or, Bool.and_true]
      rw [map_cons, show probeBit P p build x = nullAware P p by simp [probeBit, hx, partners], hmarks]
      cases haware : nullAware P p with
      | true =>
        have hside := probeIsJoinSide_of_nullAware haware
        simp [joinRows, hout, haware, hrun seen, hside]
      | false => simp [joinRows, hout, haware, hrun seen, hx]
    · have hx' : x.1.hasNull = false := by simpa using hx
      obtain ⟨v, matched, hv, hmatched, hperm⟩ := hm.lookup x.1 hkey hx'
      have hf : Found build x (x, matched) := ⟨rfl, hperm⟩
      refine ⟨v :: mapValues, ?_, fun seen => ?_⟩
      · rw [filter_cons_of_pos (by simpa using hx'), map_cons]
        unfold Table.lookupMany at hlookup ⊢
        rw [collect, hv, hlookup]
      have hout : leavesOut P p m x.1 = false := by rw [leavesOut_eq hm.data, hx', Bool.false_or, hstep]
      have hbit : probeBit P p build x = !matched.isEmpty := by
        unfold probeBit
        rw [hx', Bool.false_or, hstep, hf.isEmpty_eq, Bool.not_not]
        rfl
      have hrest := hrun (seen ++ [x])
      cases hside : P.probeIsJoinSide with
      | true =>
        rw [buildMark_of_probeSide hside] at hrest ⊢
        simp [joinRows, hout, hx', hmatched, hside, hrest, hbit]
      | false =>
        rw [buildMark_of_buildSide hside] at hrest ⊢
        simp [joinRows, hout, hx', hmatched, hside, hrest, markMap_marks v hf]

/-- **The rows of a batch**: each gets its bit, and the build rows it touches are marked. -/
theorem exists_joinRows (hm : m.Maps H keys build) {rows : List (Key κ × Row α w')} (hkeys : ∀ x ∈ rows, keys x.1) :
    RowsJoin P p H m build rows := by
  cases hstep : nullAware P p && build.any fun y => y.1.hasNull with
  | false => exact joinRows_spec hm hstep hkeys
  | true =>
    rw [Bool.and_eq_true] at hstep
    obtain ⟨haware, hnull⟩ := hstep
    have hside := probeIsJoinSide_of_nullAware haware
    obtain ⟨_, hprobe, -⟩ := probeBatch_spec hm hkeys
    unfold probeBatch at hprobe
    rw [bind_eq_bind, Option.bind_eq_some_iff] at hprobe
    obtain ⟨mapValues, hlookup, -⟩ := hprobe
    refine ⟨mapValues, hlookup, fun seen => ?_⟩
    rw [joinRows_skipAll hm.data haware hnull, buildMark_of_probeSide hside, buildMark_of_probeSide hside]
    simp [hside, probeBit, haware, hnull]

end Rows

/-! ### What is sent -/

/-- The rows of a side that a mode outputs, given the bits of the rows. -/
def sideRows (mode : SemiMode) (ofBool : Bool → α) (bit : Key κ × Row α w → Bool) (rows : List (Key κ × Row α w)) :
    List (List (Option α)) :=
  match mode with
  | .semi => (rows.filter bit).map fun x => x.2.toList
  | .anti => (rows.filter fun x => !bit x).map fun x => x.2.toList
  | .existence => rows.map fun x => x.2.toList ++ [some (ofBool (bit x))]

lemma sideRows_append (mode : SemiMode) (ofBool : Bool → α) (bit : Key κ × Row α w → Bool)
    (rows rows' : List (Key κ × Row α w)) :
    sideRows mode ofBool bit (rows ++ rows') = sideRows mode ofBool bit rows ++ sideRows mode ofBool bit rows' := by
  cases mode <;> simp [sideRows]

lemma outputRows_eq (mode : SemiMode) (ofBool : Bool → α) (bit : Key κ × Row α w → Bool)
    (rows : List (Key κ × Row α w)) :
    outputRows mode ofBool (rows.map fun x => x.2.toList) (rows.map bit) = some (sideRows mode ofBool bit rows) := by
  cases mode with
  | existence => simp [outputRows, sideRows]
  | semi =>
    simp only [outputRows, getElem?_map]
    rw [collect_positions]
    simp [sideRows]
  | anti =>
    have hmode : (SemiMode.anti == SemiMode.semi) = false := rfl
    simp only [outputRows, getElem?_map]
    rw [collect_positions]
    simp [sideRows, hmode]

section Run

variable {P : SemiJoinerParams} {p : JoinParams α lw rw} {ofBool : Bool → α} {H : KeyComparator κ} {keys : Key κ → Prop}
  {build : List (Key κ × Row α (P.bw lw rw))} {m : JoinHashMap κ α (P.bw lw rw)} {J : SemiJoiner α}

lemma probe_of_keepsAll (hproj : P.KeepsAll p.projection) (hside : P.probeIsJoinSide = true) :
    (∀ row : Row α (P.pw lw rw), P.probeSide.projectProbe p.projection row = row.toList) ∧
      P.probeSide.probeCols p.projection = P.joinWidth lw rw := by
  obtain ⟨side, _, _⟩ := P
  subst hside
  cases side <;> exact ⟨fun row => (congrArg (map row.get) hproj).trans row.map_get_finRange,
    (congrArg length hproj).trans length_finRange⟩

lemma build_of_keepsAll (hproj : P.KeepsAll p.projection) (hside : P.probeIsJoinSide = false) :
    (∀ row : Row α (P.bw lw rw), P.probeSide.projectBuild p.projection row = row.toList) ∧
      P.probeSide.buildCols p.projection = P.joinWidth lw rw := by
  obtain ⟨side, _, _⟩ := P
  subst hside
  cases side <;> exact ⟨fun row => (congrArg (map row.get) hproj).trans row.map_get_finRange,
    (congrArg length hproj).trans length_finRange⟩

lemma flush_eq (hcols : 0 < P.joinWidth lw rw + P.extraCols) {numCols : ℕ} (hnum : numCols = P.joinWidth lw rw)
    (output : List (List (Option α))) :
    J.flush P lw rw (numCols + P.extraCols) output = some { J with sent := J.sent ++ [output] } := by
  subst hnum
  exact if_pos ⟨rfl, hcols⟩

variable [∀ i, DecidableEq (κ i)]

/-- The probe rows `seen` are joined. -/
structure Holds (P : SemiJoinerParams) (p : JoinParams α lw rw) (ofBool : Bool → α)
    (build : List (Key κ × Row α (P.bw lw rw))) (J : SemiJoiner α) (seen : List (Key κ × Row α (P.pw lw rw))) : Prop where
  mapJoined : J.mapJoined = marks build.length (buildMark P build seen)
  sent : J.sent.flatten = if P.probeIsJoinSide then sideRows P.mode ofBool (probeBit P p build) seen else []

lemma holds_new (hdata : m.dataBatch = build) : Holds P p ofBool build (new m) [] := by
  constructor
  · have hnone : buildMark P build ([] : List (Key κ × Row α (P.pw lw rw))) = fun _ => false := by
      funext i
      cases h : build[i]? <;> simp [buildMark, touched]
    rw [hnone, marks_false, new, hdata]
  · cases hmode : P.mode <;> simp [new, sideRows]

variable {seen : List (Key κ × Row α (P.pw lw rw))}

lemma buildMark_of_all (hside : P.probeIsJoinSide = false)
    (hall : (marks build.length (buildMark P build seen)).all id = true) (rest : List (Key κ × Row α (P.pw lw rw))) :
    marks build.length (buildMark P build seen) = marks build.length (buildMark P build (seen ++ rest)) := by
  rw [all_marks] at hall
  refine marks_congr fun i hi => ?_
  have hseen := hall i hi
  rw [buildMark_of_buildSide hside] at hseen ⊢
  rw [buildMark_of_buildSide hside, touched_append, hseen, Bool.true_or]

def resultRows (P : SemiJoinerParams) (p : JoinParams α lw rw) (ofBool : Bool → α)
    (probe : List (Key κ × Row α (P.pw lw rw))) (build : List (Key κ × Row α (P.bw lw rw))) : List (List (Option α)) :=
  if P.probeIsJoinSide then sideRows P.mode ofBool (probeBit P p build) probe
  else sideRows P.mode ofBool (fun y => probe.any fun x => partners x.1 y.1) build

section Spec

variable (hm : m.Maps H keys build) (hproj : P.KeepsAll p.projection) (hcols : 0 < P.joinWidth lw rw + P.extraCols)

include hm hproj hcols

/-- **What `join` does with a batch.** -/
theorem join_spec (hJ : Holds P p ofBool build J seen) {batch : ProbeBatch κ α (P.pw lw rw)}
    (hkeys : ∀ x ∈ batch.rows, keys x.1) :
    ∃ J', J.join P p ofBool H m batch = some J' ∧ Holds P p ofBool build J' (seen ++ batch.rows) := by
  obtain ⟨_, hlookup, hrun⟩ := exists_joinRows (P := P) (p := p) hm hkeys
  unfold join
  rw [hJ.mapJoined]
  simp only [hlookup, hrun seen, bind_eq_bind, bind_some]
  cases hside : P.probeIsJoinSide with
  | false =>
    refine ⟨_, rfl, rfl, ?_⟩
    simpa [hside] using hJ.sent
  | true =>
    have hrows : (batch.rows.map fun x => P.probeSide.projectProbe p.projection x.2) =
        batch.rows.map fun x => x.2.toList :=
      map_congr_left fun x _ => (probe_of_keepsAll hproj hside).1 x.2
    simp only [Bool.true_and, hrows, outputRows_eq,
      flush_eq hcols (probe_of_keepsAll hproj hside).2]
    refine ⟨_, rfl, rfl, ?_⟩
    rw [flatten_concat, hJ.sent, hside, if_pos rfl, if_pos rfl, sideRows_append]

/-- **All batches**: whether or not probing ends early, all probe rows count as joined. -/
theorem probeAll_spec {probed : List (ProbeBatch κ α (P.pw lw rw))} (hkeys : ∀ x ∈ probed.flatMap (·.rows), keys x.1)
    (hJ : Holds P p ofBool build J seen) :
    ∃ J', probeAll (canEarlyStop P) (join P p ofBool H m) probed J = some J' ∧
      Holds P p ofBool build J' (seen ++ probed.flatMap (·.rows)) := by
  induction probed generalizing J seen with
  | nil => exact ⟨J, rfl, by simpa using hJ⟩
  | cons batch probed ih =>
    rw [probeAll]
    split
    · rename_i hstop
      unfold canEarlyStop at hstop
      rw [Bool.and_eq_true, Bool.not_eq_true'] at hstop
      obtain ⟨hside, hall⟩ := hstop
      refine ⟨J, rfl, ?_, ?_⟩
      · rw [hJ.mapJoined] at hall ⊢
        exact buildMark_of_all hside hall _
      · simpa [hside] using hJ.sent
    · rw [flatMap_cons, forall_mem_append] at hkeys
      obtain ⟨_, hjoin, hJ1⟩ := join_spec hm hproj hcols hJ hkeys.1
      obtain ⟨J2, hrun, _⟩ := ih hkeys.2 hJ1
      refine ⟨J2, ?_, ?_⟩
      · rw [hjoin]
        exact hrun
      · rwa [flatMap_cons, ← append_assoc]

lemma finish_spec (hJ : Holds P p ofBool build J seen) :
    ∃ J', J.finish P p ofBool m = some J' ∧ J'.sent.flatten = resultRows P p ofBool seen build := by
  unfold finish resultRows
  cases hside : P.probeIsJoinSide with
  | true => exact ⟨J, rfl, by simpa [hside] using hJ.sent⟩
  | false =>
    have hmarks : J.mapJoined = build.map fun y => seen.any fun x => partners x.1 y.1 := by
      rw [hJ.mapJoined, buildMark_of_buildSide hside]
      refine marks_eq_map fun y hy => ?_
      simp [touched, mk_mem_zipIdx_iff_getElem?.1 hy]
    have hrows : (m.dataBatch.map fun y => P.probeSide.projectBuild p.projection y.2) =
        build.map fun y => y.2.toList := by
      rw [hm.data]
      exact map_congr_left fun y _ => (build_of_keepsAll hproj hside).1 y.2
    simp only [Bool.not_false, hrows, hmarks, outputRows_eq, bind_eq_bind,
      flush_eq hcols (build_of_keepsAll hproj hside).2]
    refine ⟨_, rfl, ?_⟩
    rw [flatten_concat, hJ.sent, hside]
    rfl

/-- **The rows of a run**, whatever the hash function and the batches of the probe side are. -/
theorem executeJoinWithMap_rows (ofBool : Bool → α) (probed : List (ProbeBatch κ α (P.pw lw rw)))
    (hkeys : ∀ x ∈ probed.flatMap (·.rows), keys x.1) :
    ∃ J, executeJoinWithMap P p ofBool H m probed = some J ∧
      J.sent.flatten = resultRows P p ofBool (probed.flatMap (·.rows)) build := by
  have hnew : Holds P p ofBool build (new m) [] := holds_new hm.data
  obtain ⟨_, hrun, hJ1⟩ := probeAll_spec hm hproj hcols hkeys hnew
  obtain ⟨J2, hfinish, hsent⟩ := finish_spec hm hproj hcols hJ1
  refine ⟨J2, by simp [executeJoinWithMap, hrun, hfinish], ?_⟩
  rw [hsent, nil_append]

end Spec

/-! ### Without the null-aware flag -/

/-- **The relational semi, anti or existence join** of the rows `out` with the rows `other`. -/
def relationalRows (mode : SemiMode) (ofBool : Bool → α) (out : List (Key κ × Row α w))
    (other : List (Key κ × Row α w')) : List (List (Option α)) :=
  sideRows mode ofBool (fun x => other.any fun y => partners x.1 y.1) out

lemma resultRows_relational (haware : nullAware P p = false) (probe : List (Key κ × Row α (P.pw lw rw)))
    (build : List (Key κ × Row α (P.bw lw rw))) :
    resultRows P p ofBool probe build = if P.probeIsJoinSide then relationalRows P.mode ofBool probe build
      else relationalRows P.mode ofBool build probe := by
  have hbit : (probeBit P p build : Key κ × Row α (P.pw lw rw) → Bool) = fun x => build.any fun y => partners x.1 y.1 := by
    funext x
    simp [probeBit, haware]
  have hswap : (fun y : Key κ × Row α (P.bw lw rw) => probe.any fun x => partners x.1 y.1) =
      fun y => probe.any fun x => partners y.1 x.1 := by
    funext y
    simp only [partners_comm]
  unfold resultRows relationalRows
  rw [hbit, hswap]

/-- **Semi, anti and existence hash joins are the relational ones**, for fewer than 2³⁰ build rows and an output of at least
one column.  Whatever the hash function and the batches of the probe side are, the map is built and the run ends; the rows
of the join side that belong to the result are sent once each and in order. -/
theorem executeJoinWithMap_relational (P : SemiJoinerParams) (p : JoinParams α lw rw) (ofBool : Bool → α) (H : KeyHash κ)
    (hproj : P.KeepsAll p.projection) (hcols : 0 < P.joinWidth lw rw + P.extraCols)
    (hflag : p.isNullAwareAntiJoin = false) (build : List (Key κ × Row α (P.bw lw rw)))
    (hbuild : build.length < 2 ^ 30) (probed : List (ProbeBatch κ α (P.pw lw rw))) :
    ∃ m J, create H build = some m ∧ executeJoinWithMap P p ofBool H m probed = some J ∧
      J.sent.flatten = if P.probeIsJoinSide then relationalRows P.mode ofBool (probed.flatMap (·.rows)) build
        else relationalRows P.mode ofBool build (probed.flatMap (·.rows)) := by
  obtain ⟨m, hcreate, hm⟩ := create_maps H build hbuild
  obtain ⟨J, hrun, hsent⟩ := executeJoinWithMap_rows hm hproj hcols ofBool probed fun _ _ => trivial
  have haware : nullAware P p = false := by simp [nullAware, hflag]
  exact ⟨m, J, hcreate, hrun, hsent.trans (resultRows_relational haware _ build)⟩

/-- An existence join of the build side with null, repeated and colliding keys: the run of the key `5` is marked once. -/
theorem executeJoinWithMap_relational_existence :
    ∃ m J, create KeyHash.collidingBytes.toKeyComparator
        [(fun _ => some 5, #v[some 7]), (fun _ => none, #v[some 8]), (fun _ => some 5, #v[some 9])] = some m ∧
      executeJoinWithMap .rightProbedExistence ⟨⟨[0], []⟩, none, 2, false⟩ (fun b => cond b 1 0)
        KeyHash.collidingBytes.toKeyComparator m
        [⟨[(fun _ => some 5, #v[]), (fun _ => none, #v[])], by simp⟩, ⟨[(fun _ => some 5, #v[])], by simp⟩] = some J ∧
      J.sent.flatten = [[some 7, some (1 : ℕ)], [some 8, some 0], [some 9, some 1]] :=
  executeJoinWithMap_relational .rightProbedExistence ⟨⟨[0], []⟩, none, 2, false⟩ _ KeyHash.collidingBytes
    (show [0] = finRange 1 from rfl) (by decide) rfl _ (by decide) _

/-! ### With the null-aware flag -/

/-- `NOT IN`: the build side is empty, or no key of it is null or equal to the key, which is not null. -/
def notIn (build : List (Key κ × Row α w)) (k : Key κ) : Bool :=
  build.isEmpty || (!(build.any fun y => y.1.hasNull) && !k.hasNull && !build.any fun y => y.1 = k)

def notInRows (probe : List (Key κ × Row α w')) (build : List (Key κ × Row α w)) : List (List (Option α)) :=
  (probe.filter fun x => notIn build x.1).map fun x => x.2.toList

section NullAware

variable (haware : nullAware P p = true)

include haware

lemma not_probeBit {build : List (Key κ × Row α w)} (hbuild : build ≠ [])
    (x : Key κ × Row α w') : (!probeBit P p build x) = notIn build x.1 := by
  have hempty : build.isEmpty = false := by simpa using hbuild
  unfold probeBit notIn
  rw [haware, hempty]
  cases hx : x.1.hasNull with
  | true => simp
  | false =>
    have hany : (build.any fun y => partners x.1 y.1) = build.any fun y => decide (y.1 = x.1) := by
      congr 1
      funext y
      rw [Bool.eq_iff_iff, partners_iff, decide_eq_true_eq]
      exact ⟨fun h => h.2.symm, fun h => ⟨hx, h.symm⟩⟩
    rw [hany]
    simp

lemma not_probeBit_nil (x : Key κ × Row α w') : (!probeBit P p ([] : List (Key κ × Row α w)) x) = !x.1.hasNull := by
  simp [probeBit, haware]

lemma resultRows_nullAware (probe : List (Key κ × Row α (P.pw lw rw))) (build : List (Key κ × Row α (P.bw lw rw))) :
    resultRows P p ofBool probe build = (probe.filter fun x => !probeBit P p build x).map fun x => x.2.toList := by
  have hmode : P.mode = .anti := by
    unfold nullAware at haware
    simp only [Bool.and_eq_true, beq_iff_eq] at haware
    exact haware.1.1
  unfold resultRows
  rw [probeIsJoinSide_of_nullAware haware, hmode]
  rfl

end NullAware

/-- **When a null-aware anti join is `NOT IN`**: if the build side has a row or no probe row has a null key, and only
then.  The build side has fewer than 2³⁰ rows, which the map takes, and the output at least one column, without which no
batch is made. -/
theorem nullAwareAnti_iff (P : SemiJoinerParams) (p : JoinParams α lw rw) (ofBool : Bool → α) (H : KeyHash κ)
    (hproj : P.KeepsAll p.projection) (hcols : 0 < P.joinWidth lw rw) (hflag : p.isNullAwareAntiJoin = true)
    (hmode : P.mode = .anti) (hside : P.probeIsJoinSide = true) (build : List (Key κ × Row α (P.bw lw rw)))
    (hbuild : build.length < 2 ^ 30) (probed : List (ProbeBatch κ α (P.pw lw rw))) :
    (∃ m J, create H build = some m ∧ executeJoinWithMap P p ofBool H m probed = some J ∧
      J.sent.flatten.Perm (notInRows (probed.flatMap (·.rows)) build)) ↔
      build ≠ [] ∨ ∀ x ∈ probed.flatMap (·.rows), x.1.hasNull = false := by
  have haware : nullAware P p = true := by simp [nullAware, hmode, hside, hflag]
  obtain ⟨m, hcreate, hm⟩ := create_maps H build hbuild
  obtain ⟨J, hrun, hsent⟩ := executeJoinWithMap_rows hm hproj (Nat.add_pos_left hcols _) ofBool probed
    fun _ _ => trivial
  rw [resultRows_nullAware haware] at hsent
  constructor
  · rintro ⟨_, _, hcreate', hrun', hperm⟩
    rw [hcreate, Option.some.injEq] at hcreate'
    subst hcreate'
    rw [hrun, Option.some.injEq] at hrun'
    subst hrun'
    rw [or_iff_not_imp_left, not_not]
    intro hempty
    subst hempty
    -- all rows are output, so none is left out
    have hlen := hperm.length_eq
    have hall : ((probed.flatMap (·.rows)).filter fun x => notIn ([] : List (Key κ × Row α (P.bw lw rw))) x.1) =
        probed.flatMap (·.rows) := filter_eq_self.2 fun _ _ => rfl
    rw [hsent, notInRows, length_map, length_map, hall, length_filter_eq_length_iff] at hlen
    intro x hx
    have hx' := hlen x hx
    rwa [not_probeBit_nil haware, Bool.not_eq_true'] at hx'
  · intro hcond
    refine ⟨m, J, hcreate, hrun, .of_eq (hsent.trans ?_)⟩
    congr 1
    refine filter_congr fun x hx => ?_
    by_cases hempty : build = []
    · subst hempty
      have hnull := hcond.resolve_left (by simp) x hx
      rw [not_probeBit_nil haware, hnull]
      rfl
    · exact not_probeBit haware hempty x

/-- A null-aware anti join of two batches with a null key on the probe side. -/
theorem nullAwareAnti_iff_build :
    ∃ m J, create KeyHash.collidingBytes.toKeyComparator [(fun _ => some 5, #v[])] = some m ∧
      executeJoinWithMap .leftProbedLeftAnti ⟨⟨[0], []⟩, none, 2, true⟩ (fun b => cond b 1 0)
        KeyHash.collidingBytes.toKeyComparator m
        [⟨[(fun _ => some 5, #v[some 1]), (fun _ => none, #v[some 2])], by simp⟩,
          ⟨[(fun _ => some 6, #v[some 3])], by simp⟩] = some J ∧ J.sent.flatten.Perm [[some (3 : ℕ)]] :=
  (nullAwareAnti_iff .leftProbedLeftAnti ⟨⟨[0], []⟩, none, 2, true⟩ _ KeyHash.collidingBytes
    (show [0] = finRange 1 from rfl) (by decide) rfl rfl rfl _ (by decide) _).2 (.inl (cons_ne_nil _ _))

/-- With an empty build side `NOT IN` holds of every row, but a row with a null key is not output. -/
theorem nullAwareAnti_emptyBuild :
    ∃ m J, create KeyHash.collidingBytes.toKeyComparator [] = some m ∧
      executeJoinWithMap .leftProbedLeftAnti (⟨⟨[0], []⟩, none, 2, true⟩ : JoinParams ℕ 1 0) (fun b => cond b 1 0)
        KeyHash.collidingBytes.toKeyComparator m [⟨[(fun _ => none, #v[some (7 : ℕ)])], by simp⟩] = some J ∧
      J.sent.flatten = [] ∧ notInRows (w := 0) [((fun _ => none : Key fun _ : Fin 1 => UInt8), #v[some (7 : ℕ)])] [] =
        [[some 7]] := by
  obtain ⟨m, hcreate, hm⟩ := create_maps (α := ℕ) (w := 0) KeyHash.collidingBytes [] (by simp)
  have hproj : SemiJoinerParams.leftProbedLeftAnti.KeepsAll (⟨[0], []⟩ : JoinProjection 1 0) := by
    rfl
  obtain ⟨J, hrun, hsent⟩ := executeJoinWithMap_rows (P := .leftProbedLeftAnti) (p := ⟨⟨[0], []⟩, none, 2, true⟩) hm hproj
    (by decide) (fun b => cond b 1 0) [⟨[(fun _ => none, #v[some (7 : ℕ)])], by simp⟩] fun _ _ => trivial
  exact ⟨m, J, hcreate, hrun, hsent, rfl⟩

end Run

end SemiJoiner

end Auron.Joins.Bhj
