import Auron.Lib.Masks

/-!
# Physical expressions

An expression is a column, a literal or a node with children.  What a node does with its children is its plan: it asks for
the values of a child on the rows of a mask, goes on with what it gets, and ends with its own values.  A function asks for
all of its children on all rows.  AND and OR ask for the left side on all rows, and for the right side where they need it.
CASE asks for each WHEN on the rows that are still open and for each THEN on those that match; if it has a base expression,
the rows on which the base is null are never open.

`evaluate` runs the plans, on a cache that the nodes `cached` read and fill.  `value` is what an expression means on one
row.
-/

namespace Auron.Eval

open Lib List

/-! ### Values and plans -/

inductive ColumnarValue (V : Type) where
  | scalar (v : V)
  | array (vs : List V)
  deriving DecidableEq

variable {V F O : Type}

def ColumnarValue.intoArray (n : ℕ) : ColumnarValue V → List V
  | scalar v => replicate n v
  | array vs => vs

/-- What a node does with its children: it asks for a child on the rows of a mask, or is done. -/
inductive Plan (V : Type) where
  | done (c : ColumnarValue V)
  | ask (child : ℕ) (mask : List Bool) (next : ColumnarValue V → Plan V)

/-- The kinds of nodes: functions, AND and OR in their variants, and CASE with a number of branches. -/
inductive Kind (F O : Type) where
  | func (f : F)
  | shortCircuit (o : O)
  | case (hasBase : Bool) (numWhens : ℕ) (hasElse : Bool)
  deriving DecidableEq

/-- The functions and operators, and how they compute: on rows (`apply`, `combine`) and on columns (`kernel`, `need`). -/
structure Functions (V F O : Type) where
  null : V
  isTrue : V → Bool
  /-- Whether the comparison of CASE with its base is true. -/
  isEq : V → V → Bool
  apply : F → List V → V
  kernel : F → ℕ → List (ColumnarValue V) → ColumnarValue V
  combine : O → V → V → V
  /-- The rows on which the right side is evaluated. -/
  need : O → List V → List Bool

variable (S : Functions V F O)

def askAll (n : ℕ) : ℕ → ℕ → (List (ColumnarValue V) → Plan V) → Plan V
  | _, 0, next => next []
  | child, left + 1, next =>
    .ask child (replicate n true) fun c => askAll n (child + 1) left fun cs => next (c :: cs)

def shortCircuitPlan (o : O) (n : ℕ) : Plan V :=
  .ask 0 (replicate n true) fun
    | .scalar v =>
      if S.need o [v] = [false] then .done (.scalar (S.combine o v S.null))
      else .ask 1 (replicate n true) fun
        | .scalar r => .done (.scalar (S.combine o v r))
        | .array rs => .done (.array (rs.map (S.combine o v)))
    | .array vs =>
      .ask 1 (S.need o vs) fun r => .done (.array (zipWith (S.combine o) vs (r.intoArray n)))

/-- The values of one list where the mask is set and of another where it is not, as `zip` of arrow has it. -/
def select (mask : List Bool) (xs ys : List V) : List V :=
  zipWith (fun b (x, y) => if b then x else y) mask (xs.zip ys)

/-- The open rows on which a WHEN matches: it is true, or equal to the base. -/
def matchedRows (n : ℕ) (base : Option (List V)) (w : ColumnarValue V) (remainder : List Bool) : List Bool :=
  match base with
  | none => zipWith (· && ·) ((w.intoArray n).map S.isTrue) remainder
  | some bs => zipWith (· && ·) (zipWith S.isEq bs (w.intoArray n)) remainder

/-- The rows of the ELSE: those still open, and those on which the base is null. -/
def elseRows [DecidableEq V] (base : Option (List V)) (remainder : List Bool) : List Bool :=
  match base with
  | none => remainder
  | some bs => zipWith (· || ·) (bs.map (· == S.null)) remainder

/-- The branches of CASE from child `i` on, with the rows still open and the values so far. -/
def caseLoop [DecidableEq V] (n : ℕ) (base : Option (List V)) (hasElse : Bool) :
    ℕ → ℕ → List Bool → List V → Plan V
  | 0, i, remainder, current =>
    if hasElse then
      .ask i (elseRows S base remainder) fun e =>
        .done (.array (select (elseRows S base remainder) (e.intoArray n) current))
    else .done (.array current)
  | whens + 1, i, remainder, current =>
    .ask i remainder fun w =>
      let matched := matchedRows S n base w remainder
      if matched.all (! ·) then caseLoop n base hasElse whens (i + 2) remainder current
      else .ask (i + 1) matched fun t =>
        caseLoop n base hasElse whens (i + 2) (zipWith (fun a b => a && !b) remainder matched)
          (select matched (t.intoArray n) current)

def casePlan [DecidableEq V] (hasBase : Bool) (numWhens : ℕ) (hasElse : Bool) (n : ℕ) : Plan V :=
  let current := replicate n S.null
  if hasBase then
    .ask 0 (replicate n true) fun base =>
      let bs := base.intoArray n
      caseLoop S n (some bs) hasElse numWhens 1 (bs.map (· != S.null)) current
  else caseLoop S n none hasElse numWhens 0 (replicate n true) current

def planOf [DecidableEq V] (k : Kind F O) (arity n : ℕ) : Plan V :=
  match k with
  | .func f => askAll n 0 arity fun cs => .done (S.kernel f n cs)
  | .shortCircuit o => shortCircuitPlan S o n
  | .case hasBase numWhens hasElse => casePlan S hasBase numWhens hasElse n

/-! ### Expressions -/

mutual

/-- `PhysicalExpr`: the leaves, the nodes with their children, and `CachedExpr`. -/
inductive Expr (V F O : Type) where
  | column (index : ℕ)
  | literal (v : V)
  | node (kind : Kind F O) (children : Exprs V F O)
  | cached (id : ℕ) (orig : Expr V F O)
  deriving DecidableEq

inductive Exprs (V F O : Type) where
  | nil
  | cons (e : Expr V F O) (es : Exprs V F O)
  deriving DecidableEq

end

abbrev Row (V : Type) := List V

abbrev Cache (V : Type) := List (Option (ColumnarValue V))

abbrev Evaluator (V : Type) := List (Row V) → Cache V → Option (ColumnarValue V × Cache V)

/-- `evaluate_selection`: filter, evaluate, scatter. -/
def evaluateSelection (null : V) (ev : Evaluator V) (batch : List (Row V)) (mask : List Bool) (cache : Cache V) :
    Option (ColumnarValue V × Cache V) :=
  let tmpBatch := keep mask batch
  (ev tmpBatch cache).bind fun (c, cache) =>
    if batch.length = tmpBatch.length then some (c, cache)
    else match c with
      | .scalar v => some (.scalar v, cache)
      | .array vs => (spread null mask vs).map fun vs => (.array vs, cache)

def runPlan (null : V) (children : List (Evaluator V)) (batch : List (Row V)) :
    Plan V → Cache V → Option (ColumnarValue V × Cache V)
  | .done c, cache => some (c, cache)
  | .ask child mask next, cache =>
    children[child]?.bind fun ev =>
      (evaluateSelection null ev batch mask cache).bind fun (c, cache) => runPlan null children batch (next c) cache

def cacheGet (id : ℕ) (ev : Evaluator V) : Evaluator V := fun batch cache =>
  match cache[id]? with
  | none => none
  | some (some c) => some (c, cache)
  | some none => (ev batch cache).map fun (c, cache) => (c, cache.set id (some c))

mutual

def Expr.evaluate [DecidableEq V] : Expr V F O → Evaluator V
  | .column index => fun batch cache => some (.array (batch.map (·.getD index S.null)), cache)
  | .literal v => fun _ cache => some (.scalar v, cache)
  | .node k es => fun batch cache =>
    runPlan S.null es.evaluators batch (planOf S k es.evaluators.length batch.length) cache
  | .cached id orig => cacheGet id orig.evaluate

def Exprs.evaluators [DecidableEq V] : Exprs V F O → List (Evaluator V)
  | .nil => []
  | .cons e es => e.evaluate :: es.evaluators

end

/-! ### The meaning on one row -/

/-- The branches of CASE on one row, from child `i` on. -/
def caseValue (hit : V → Bool) (vs : List V) (hasElse : Bool) : ℕ → ℕ → V
  | 0, i => if hasElse then vs.getD i S.null else S.null
  | whens + 1, i =>
    if hit (vs.getD i S.null) then vs.getD (i + 1) S.null else caseValue hit vs hasElse whens (i + 2)

/-- The value of a node on one row, from those of its children. -/
def Kind.value [DecidableEq V] (k : Kind F O) (vs : List V) : V :=
  match k with
  | .func f => S.apply f vs
  | .shortCircuit o => S.combine o (vs.getD 0 S.null) (vs.getD 1 S.null)
  | .case hasBase numWhens hasElse =>
    if hasBase then
      let base := vs.getD 0 S.null
      caseValue S (fun w => base != S.null && S.isEq base w) vs hasElse numWhens 1
    else caseValue S S.isTrue vs hasElse numWhens 0

mutual

def Expr.value [DecidableEq V] : Expr V F O → Row V → V
  | .column index, row => row.getD index S.null
  | .literal v, _ => v
  | .node k es, row => k.value S (es.values row)
  | .cached _ orig, row => orig.value row

def Exprs.values [DecidableEq V] : Exprs V F O → Row V → List V
  | .nil, _ => []
  | .cons e es, row => e.value row :: es.values row

end

/-! ### Plans compute the meaning -/

/-- What is known about the third-party functions and operators: a kernel computes row by row, and where the right side is
not needed the result does not depend on it. -/
structure Functions.Laws (S : Functions V F O) : Prop where
  isTrue_null : S.isTrue S.null = false
  kernel : ∀ f n cs, (∀ c ∈ cs, (c.intoArray n).length = n) → (S.kernel f n cs).intoArray n =
    (range n).map fun r => S.apply f (cs.map fun c => (c.intoArray n).getD r S.null)
  length_need : ∀ o vs, (S.need o vs).length = vs.length
  need : ∀ o vs (r : ℕ), (S.need o vs)[r]? = some false → ∀ x,
    S.combine o (vs.getD r S.null) x = S.combine o (vs.getD r S.null) S.null

def Agrees (n : ℕ) (mask : List Bool) (c : ColumnarValue V) (vs : List V) : Prop :=
  (c.intoArray n).length = n ∧ ∀ r : ℕ, mask[r]? = some true → (c.intoArray n)[r]? = vs[r]?

/-- Whatever answers the plan gets, as long as they have the values on the rows asked for, it ends with `out`; and it asks
for the children in `full` on all rows only. -/
inductive Plan.Computes (n arity : ℕ) (full : ℕ → Prop) (vals : ℕ → List V) (out : List V) : Plan V → Prop
  | done {c : ColumnarValue V} (h : c.intoArray n = out) : Computes n arity full vals out (.done c)
  | ask {child : ℕ} {mask : List Bool} {next : ColumnarValue V → Plan V} (hchild : child < arity)
      (hlen : mask.length = n) (hfull : full child → mask = replicate n true)
      (hnext : ∀ c, Agrees n mask c (vals child) → Computes n arity full vals out (next c)) :
      Computes n arity full vals out (.ask child mask next)

variable {c : ColumnarValue V} {vs : List V}

lemma Agrees.eq {n : ℕ} (h : Agrees n (replicate n true) c vs) (hvs : vs.length = n) : c.intoArray n = vs := by
  apply ext_getElem?
  intro r
  by_cases hr : r < n
  · exact h.2 r (by simp [hr])
  · have hlen := h.1
    rw [getElem?_eq_none (by omega), getElem?_eq_none (by omega)]

variable {S} {n arity : ℕ} {full : ℕ → Prop} {vals : ℕ → List V} {out : List V}

lemma askAll_computes (hvals : ∀ j < arity, (vals j).length = n) {next : List (ColumnarValue V) → Plan V} {child left : ℕ}
    (harity : child + left = arity) (hnext : ∀ cs, cs.map (·.intoArray n) = (range' child left).map vals →
      (next cs).Computes n arity full vals out) : (askAll n child left next).Computes n arity full vals out := by
  induction left generalizing child next with
  | zero => exact hnext [] rfl
  | succ left ih =>
    refine .ask (by omega) length_replicate (fun _ => rfl) fun c hc => ?_
    refine ih (by omega) fun cs hcs => hnext (c :: cs) ?_
    rw [map_cons, hcs, hc.eq (hvals child (by omega)), range'_succ, map_cons]

/-! ### Columns by rows -/

lemma map_getD_range {α : Type} {xs : List α} (h : xs.length = n) (z : α) : (range n).map (xs.getD · z) = xs := by
  subst h
  apply ext_getElem
  · simp
  · intro r _ hr
    simp [hr]

lemma zipWith_map_range {α β γ : Type} (f : α → β → γ) (xs : ℕ → α) (ys : ℕ → β) :
    zipWith f ((range n).map xs) ((range n).map ys) = (range n).map fun r => f (xs r) (ys r) := by
  rw [zipWith_map, zipWith_self]

lemma map_range_true {p : ℕ → Bool} (h : ∀ r < n, p r = true) : (range n).map p = replicate n true :=
  eq_replicate_iff.2 ⟨by simp, fun b hb => by
    obtain ⟨r, hr, rfl⟩ := mem_map.1 hb
    exact h r (mem_range.1 hr)⟩

lemma select_map_range (mask : ℕ → Bool) (xs ys : ℕ → V) :
    select ((range n).map mask) ((range n).map xs) ((range n).map ys) =
      (range n).map fun r => if mask r then xs r else ys r := by
  rw [select, zip, zipWith_map_range, zipWith_map_range]

lemma getD_map_range (j r : ℕ) (hj : j < arity) (null : V) :
    ((range arity).map fun j => (vals j).getD r null).getD j null = (vals j).getD r null := by
  simp [hj]

variable {mask : List Bool} {r : ℕ}

lemma Agrees.getD (h : Agrees n mask c vs) (hr : mask[r]? = some true) (z : V) :
    (c.intoArray n).getD r z = vs.getD r z := by
  rw [getD_eq_getElem?_getD, getD_eq_getElem?_getD, h.2 r hr]

lemma Agrees.exists_eq {mask : ℕ → Bool} (h : Agrees n ((range n).map mask) c vs) (z : V) :
    ∃ xs : ℕ → V, c.intoArray n = (range n).map xs ∧ ∀ r < n, mask r = true → xs r = vs.getD r z := by
  refine ⟨_, (map_getD_range h.1 z).symm, fun r hr hmask => h.getD ?_ z⟩
  simp [hr, hmask]

lemma shortCircuit_computes (hS : S.Laws) (o : O) (hvals : ∀ j < 2, (vals j).length = n) :
    (shortCircuitPlan S o n).Computes n 2 (· = 0) vals
      ((range n).map fun r => S.combine o ((vals 0).getD r S.null) ((vals 1).getD r S.null)) := by
  have hlen0 := hvals 0 (by decide)
  have hlen1 := hvals 1 (by decide)
  refine .ask (by decide) length_replicate (fun _ => rfl) fun c hc => ?_
  have hleft := hc.eq hlen0
  cases c with
  | scalar v =>
    have hv : ∀ r < n, (vals 0).getD r S.null = v := by
      rw [← hleft]
      simp +contextual [ColumnarValue.intoArray]
    dsimp only
    split
    · next hneed =>
      -- the right side does not matter
      refine .done (eq_replicate_iff.2 ⟨by simp, ?_⟩).symm
      rintro _ hx
      obtain ⟨r, hr, rfl⟩ := mem_map.1 hx
      rw [hv r (mem_range.1 hr)]
      exact hS.need o [v] 0 (by rw [hneed]; rfl) _
    · refine .ask (by decide) length_replicate (fun _ => rfl) fun c hc => ?_
      have hright := hc.eq hlen1
      have hdone : (vals 1).map (S.combine o v) =
          (range n).map fun r => S.combine o ((vals 0).getD r S.null) ((vals 1).getD r S.null) := by
        conv_lhs => rw [← map_getD_range hlen1 S.null, map_map]
        exact map_congr_left fun r hr => by rw [hv r (mem_range.1 hr)]; rfl
      rw [← hright] at hdone
      cases c with
      | scalar r => exact .done (by rw [← hright, ← hdone]; simp [ColumnarValue.intoArray])
      | array rs => exact .done (hright ▸ hdone)
  | array vs =>
    subst hleft
    refine .ask (by decide) ((hS.length_need o _).trans hlen0) (fun h => by cases h) fun c hc => .done ?_
    rw [ColumnarValue.intoArray, ← map_getD_range hc.1 S.null]
    conv_lhs => rw [← map_getD_range hlen0 S.null, zipWith_map_range]
    refine map_congr_left fun r hr => ?_
    have hneed := hS.need o (vals 0) r
    cases hmask : (S.need o (vals 0))[r]? with
    | none =>
      have hle := getElem?_eq_none_iff.1 hmask
      rw [hS.length_need, hlen0] at hle
      exact absurd (mem_range.1 hr) (by omega)
    | some needed =>
      cases needed with
      | true => rw [hc.getD hmask]
      | false => exact (hneed hmask _).trans (hneed hmask _).symm

section Case

variable [DecidableEq V]

def baseNull (S : Functions V F O) (base : Option (List V)) (r : ℕ) : Bool := base.any fun bs => bs.getD r S.null == S.null

def hitAt (S : Functions V F O) (base : Option (List V)) (r : ℕ) (w : V) : Bool :=
  match base with
  | none => S.isTrue w
  | some bs => S.isEq (bs.getD r S.null) w

/-- What CASE ends with on a row, from a point of its loop on: on the rows still open what the branches give, on those
whose base is null the ELSE, and on the others the value so far. -/
def caseEnd (S : Functions V F O) (base : Option (List V)) (hasElse : Bool) (vs : List V) (whens i : ℕ)
    (remainder : List Bool)
    (current : List V) (r : ℕ) : V :=
  if remainder.getD r false then caseValue S (hitAt S base r) vs hasElse whens i
  else if baseNull S base r && hasElse then vs.getD (i + 2 * whens) S.null
  else current.getD r S.null

variable {base : Option (List V)} (hbase : ∀ bs ∈ base, bs.length = n) {isOpen : ℕ → Bool}

include hbase in
lemma elseRows_eq :
    elseRows S base ((range n).map isOpen) = (range n).map fun r => baseNull S base r || isOpen r := by
  cases base with
  | none => simp [elseRows, baseNull]
  | some bs =>
    rw [elseRows]
    conv_lhs => rw [← map_getD_range (hbase bs rfl) S.null, map_map, zipWith_map_range]
    rfl

include hbase in
omit [DecidableEq V] in
lemma matchedRows_eq {w : ColumnarValue V} {ws : ℕ → V} (hw : w.intoArray n = (range n).map ws) :
    matchedRows S n base w ((range n).map isOpen) = (range n).map fun r => hitAt S base r (ws r) && isOpen r := by
  cases base with
  | none =>
    rw [matchedRows, hw, map_map, zipWith_map_range]
    rfl
  | some bs =>
    rw [matchedRows, hw]
    conv_lhs => rw [← map_getD_range (hbase bs rfl) S.null, zipWith_map_range, zipWith_map_range]
    rfl

variable {hasElse : Bool} {whens i : ℕ} {vs : List V} {r : ℕ} {current : ℕ → V}

lemma caseEnd_map_range (hr : r < n) :
    caseEnd S base hasElse vs whens i ((range n).map isOpen) ((range n).map current) r =
      if isOpen r then caseValue S (hitAt S base r) vs hasElse whens i
      else if baseNull S base r && hasElse then vs.getD (i + 2 * whens) S.null else current r := by
  simp [caseEnd, hr]

lemma caseLoop_computes (hbase : ∀ bs ∈ base, bs.length = n)
    (harity : i + 2 * whens + (if hasElse then 1 else 0) = arity)
    (hfirst : full i → ∀ r < n, isOpen r = true) (hlater : ∀ j, i < j → ¬ full j)
    (hnull : ∀ r < n, baseNull S base r = true → isOpen r = false)
    (hopen : ∀ r < n, isOpen r = true → current r = S.null) {result : ℕ → V}
    (hresult : ∀ r < n, result r = caseEnd S base hasElse ((range arity).map fun j => (vals j).getD r S.null) whens i
      ((range n).map isOpen) ((range n).map current) r) :
    (caseLoop S n base hasElse whens i ((range n).map isOpen) ((range n).map current)).Computes n arity full vals
      ((range n).map result) := by
  induction whens generalizing i isOpen current with
  | zero =>
    cases hasElse with
    | false =>
      refine .done (map_congr_left fun r hr => ?_)
      have hr := mem_range.1 hr
      rw [hresult r hr, caseEnd_map_range hr, Bool.and_false, if_neg Bool.false_ne_true]
      split
      · next h => exact hopen r hr h
      · rfl
    | true =>
      have hi : i < arity := by
        rw [if_pos rfl] at harity
        omega
      rw [caseLoop, if_pos rfl, elseRows_eq hbase]
      refine .ask hi (by simp) (fun h => map_range_true fun r hr => ?_) fun e he => .done ?_
      · rw [hfirst h r hr, Bool.or_true]
      obtain ⟨es, hes, hagree⟩ := he.exists_eq S.null
      rw [ColumnarValue.intoArray, hes, select_map_range]
      refine map_congr_left fun r hr => ?_
      have hr := mem_range.1 hr
      rw [hresult r hr, caseEnd_map_range hr, caseValue, if_pos rfl, Nat.mul_zero, Nat.add_zero,
        getD_map_range i r hi S.null, Bool.and_true]
      have hval := hagree r hr
      revert hval
      cases isOpen r <;> cases baseNull S base r <;> simp
  | succ whens ih =>
    have hi : i + 1 < arity := by omega
    refine .ask (by omega) (by simp) (fun h => map_range_true (hfirst h)) fun w hw => ?_
    obtain ⟨ws, hws, hagree⟩ := hw.exists_eq S.null
    dsimp only
    rw [matchedRows_eq hbase hws]
    -- the rest of the loop, whether a row matches or not
    have hrest : ∀ ts : ℕ → V, (∀ r < n, (hitAt S base r (ws r) && isOpen r) = true → ts r = (vals (i + 1)).getD r S.null) →
        (caseLoop S n base hasElse whens (i + 2)
          ((range n).map fun r => isOpen r && !(hitAt S base r (ws r) && isOpen r))
          ((range n).map fun r => if hitAt S base r (ws r) && isOpen r then ts r else current r)).Computes
            n arity full vals ((range n).map result) := by
      intro ts hts
      refine ih (by omega) (fun h => absurd h (hlater _ (by omega))) (fun j hj => hlater j (by omega)) (fun r hr h => ?_)
        (fun r hr h => ?_) fun r hr => ?_
      · rw [hnull r hr h, Bool.false_and]
      · rw [Bool.and_eq_true, Bool.not_eq_true'] at h
        rw [h.2, if_neg Bool.false_ne_true]
        exact hopen r hr h.1
      · have hindex : i + 2 * (whens + 1) = i + 2 + 2 * whens := by omega
        rw [hresult r hr, caseEnd_map_range hr, caseEnd_map_range hr, caseValue, getD_map_range i r (by omega) S.null,
          getD_map_range (i + 1) r hi S.null, hindex]
        have hnull := hnull r hr
        have hval := hagree r hr
        have hts := hts r hr
        cases hisOpen : isOpen r with
        | false => simp
        | true =>
          rw [hisOpen] at hnull hval hts
          rw [← hval rfl]
          cases hhit : hitAt S base r (ws r) with
          | false => simp
          | true =>
            rw [hhit] at hts
            cases hbase : baseNull S base r with
            | false => simp [hts]
            | true => cases hnull hbase
    split
    · -- no row matches
      next hnone =>
      have hmiss : ∀ r ∈ range n, (hitAt S base r (ws r) && isOpen r) = false := fun r hr => by
        simpa only [Bool.not_eq_true'] using all_eq_true.1 hnone _ (mem_map_of_mem hr)
      have hloop := hrest current fun r hr h => by
        rw [hmiss r (mem_range.2 hr)] at h
        cases h
      have hopen' : ((range n).map fun r => isOpen r && !(hitAt S base r (ws r) && isOpen r)) = (range n).map isOpen :=
        map_congr_left fun r hr => by rw [hmiss r hr, Bool.not_false, Bool.and_true]
      simp only [ite_self] at hloop
      rwa [hopen'] at hloop
    · refine .ask hi (by simp) (fun h => absurd h (hlater _ (by omega))) fun t ht => ?_
      obtain ⟨ts, hts, hagree'⟩ := ht.exists_eq S.null
      rw [hts, zipWith_map_range, select_map_range]
      exact hrest ts hagree'

omit [DecidableEq V] in
lemma caseValue_of_no_hit {hit : V → Bool} (hhit : ∀ w, hit w = false) :
    caseValue S hit vs hasElse whens i = if hasElse then vs.getD (i + 2 * whens) S.null else S.null := by
  induction whens generalizing i with
  | zero => rfl
  | succ whens ih =>
    rw [caseValue, hhit, if_neg (by decide), ih]
    have hindex : i + 2 + 2 * whens = i + 2 * (whens + 1) := by omega
    rw [hindex]

/-- The children that a node asks for on all rows; the first WHEN of a CASE with a base is one if the base is never null. -/
def Kind.asksAll (S : Functions V F O) (base : List V) : Kind F O → ℕ → Prop
  | .func _, _ => True
  | .shortCircuit _, child => child = 0
  | .case hasBase _ _, child => child = 0 ∨ hasBase = true ∧ child = 1 ∧ ∀ v ∈ base, v ≠ S.null

lemma casePlan_computes {hasBase : Bool} {numWhens : ℕ} (hvals : ∀ j < arity, (vals j).length = n)
    (harity : (if hasBase then 1 else 0) + 2 * numWhens + (if hasElse then 1 else 0) = arity) :
    (casePlan S hasBase numWhens hasElse n).Computes n arity
      (Kind.asksAll S (vals 0) (.case hasBase numWhens hasElse : Kind F O)) vals ((range n).map fun r =>
      Kind.value S (.case hasBase numWhens hasElse : Kind F O) ((range arity).map fun j => (vals j).getD r S.null)) := by
  have hcurrent : replicate n S.null = (range n).map fun _ => S.null := by simp
  rw [casePlan, hcurrent]
  cases hasBase with
  | false =>
    have hall : replicate n true = (range n).map fun _ => true := by simp
    rw [if_neg Bool.false_ne_true, hall]
    refine caseLoop_computes (by simp) (by simpa using harity) (fun _ _ _ => rfl)
      (fun j hj h => h.elim (Nat.ne_of_gt hj) fun h => Bool.false_ne_true h.1) (fun r _ h => by simp [baseNull] at h)
      (fun _ _ _ => rfl) fun r hr => ?_
    rw [caseEnd_map_range hr]
    rfl
  | true =>
    have hpos : 0 < arity := by
      rw [if_pos rfl] at harity
      omega
    have hlen0 := hvals 0 hpos
    rw [if_pos rfl]
    refine .ask hpos (by simp) (fun _ => rfl) fun b hb => ?_
    have hopen : (vals 0).map (· != S.null) = (range n).map fun r => (vals 0).getD r S.null != S.null := by
      conv_lhs => rw [← map_getD_range hlen0 S.null, map_map]
      rfl
    dsimp only
    rw [hb.eq hlen0, hopen]
    refine caseLoop_computes (by simpa using hlen0) (by simpa using harity) (fun h r hr => ?_) (fun j hj h => ?_)
      (fun r _ h => by simpa [baseNull] using h) (fun _ _ _ => rfl) fun r hr => ?_
    · -- the first WHEN, with a base that is never null
      rcases h with h | ⟨-, -, h⟩
      · cases h
      · rw [getD_eq_getElem?_getD, getElem?_eq_getElem (hlen0 ▸ hr), Option.getD_some]
        exact bne_iff_ne.2 (h _ (getElem_mem _))
    · rcases h with rfl | ⟨-, rfl, -⟩
      · exact Nat.not_lt_zero _ hj
      · exact Nat.lt_irrefl _ hj
    rw [caseEnd_map_range hr]
    simp only [Kind.value, getD_map_range 0 r hpos S.null]
    cases hnull : (vals 0).getD r S.null == S.null with
    | true =>
      have hne : ((vals 0).getD r S.null != S.null) = false := by rw [bne, hnull]; rfl
      have hbn : baseNull S (some (vals 0)) r = true := hnull
      rw [hne, hbn, caseValue_of_no_hit (fun w => Bool.false_and _)]
      rfl
    | false =>
      have hne : ((vals 0).getD r S.null != S.null) = true := by rw [bne, hnull]; rfl
      rw [hne]
      rfl

def Kind.Arity : Kind F O → ℕ → Prop
  | .func _, _ => True
  | .shortCircuit _, arity => arity = 2
  | .case hasBase numWhens hasElse, arity =>
    (if hasBase then 1 else 0) + 2 * numWhens + (if hasElse then 1 else 0) = arity

/-- **A node computes its value on every row.** -/
theorem planOf_computes (hS : S.Laws) {k : Kind F O} (hk : k.Arity arity) (hvals : ∀ j < arity, (vals j).length = n) :
    (planOf S k arity n).Computes n arity (k.asksAll S (vals 0)) vals
      ((range n).map fun r => k.value S ((range arity).map fun j => (vals j).getD r S.null)) := by
  cases k with
  | func f =>
    refine askAll_computes hvals (Nat.zero_add arity) fun cs hcs => .done ?_
    have hlen : ∀ c ∈ cs, (c.intoArray n).length = n := by
      intro c hc
      have hmem := mem_map_of_mem (f := (·.intoArray n)) hc
      rw [hcs, mem_map] at hmem
      obtain ⟨j, hj, hval⟩ := hmem
      rw [mem_range'_1] at hj
      exact hval ▸ hvals j (by omega)
    rw [hS.kernel f n cs hlen]
    apply map_congr_left
    intro r _
    have hvs : (cs.map fun c => (c.intoArray n).getD r S.null) =
        (cs.map (·.intoArray n)).map (fun vs => vs.getD r S.null) := by rw [map_map]; rfl
    rw [hvs, hcs, map_map, range_eq_range']
    rfl
  | shortCircuit o =>
    obtain rfl : arity = 2 := hk
    exact shortCircuit_computes hS o hvals
  | case hasBase numWhens hasElse => exact casePlan_computes hvals hk

end Case

/-! ### Evaluation computes the meaning -/

variable {batch : List (Row V)} {cache : Cache V}

section Selection

variable (null : V) {ev : Evaluator V} {cache' : Cache V} (vs) (hmask : mask.length = batch.length)
  (hvs : vs.length = batch.length) (hev : ev (keep mask batch) cache = some (c, cache'))
  (hc : c.intoArray (keep mask batch).length = keep mask vs)

include hmask hvs hev hc

/-- **`evaluate_selection`**: a scalar stays one, and an array has nulls where the mask is not set. -/
theorem evaluateSelection_eq :
    ∃ c', evaluateSelection null ev batch mask cache = some (c', cache') ∧
      ((∃ v, c' = .scalar v ∧ ∀ x ∈ keep mask vs, x = v) ∨ c' = .array (blank null mask vs)) := by
  rw [evaluateSelection]
  rw [hev, Option.bind_some]
  dsimp only
  cases c with
  | scalar v =>
    refine ⟨.scalar v, by split <;> rfl, .inl ⟨v, rfl, fun x hx => ?_⟩⟩
    rw [← hc] at hx
    exact eq_of_mem_replicate hx
  | array xs =>
    subst hc
    refine ⟨.array (blank null mask vs), ?_, .inr rfl⟩
    split
    · next hlen =>
      -- all rows are selected
      have hall := all_of_length_keep hmask hlen.symm
      rw [blank_eq_self null (hmask.trans hvs.symm) hall, keep_eq_self (hmask.trans hvs.symm) hall]
    · dsimp only
      rw [spread_keep null (hmask.trans hvs.symm)]
      rfl

lemma evaluateSelection_agrees :
    ∃ c', evaluateSelection null ev batch mask cache = some (c', cache') ∧ Agrees batch.length mask c' vs := by
  obtain ⟨c', hsel, hc'⟩ := evaluateSelection_eq vs null hmask hvs hev hc
  refine ⟨c', hsel, ?_⟩
  rcases hc' with ⟨v, rfl, hv⟩ | rfl
  · refine ⟨by simp [ColumnarValue.intoArray], fun r hr => ?_⟩
    have hlt : r < batch.length := by
      rw [← hmask]
      exact (List.getElem?_eq_some_iff.1 hr).1
    have hget := getElem?_eq_getElem (show r < vs.length by omega)
    rw [hget, hv _ (mem_keep hr hget)]
    simp [ColumnarValue.intoArray, hlt]
  · exact ⟨(length_blank null (hmask.trans hvs.symm)).trans hvs, fun r hr => getElem?_blank null hr vs⟩

end Selection

/-- An evaluator gives the values of the rows and keeps a property of the cache. -/
def Evaluator.Yields (ev : Evaluator V) (rows : List (Row V)) (P : Cache V → Prop) (vs : List V) : Prop :=
  ∀ cache, P cache → ∃ c cache', ev rows cache = some (c, cache') ∧ c.intoArray rows.length = vs ∧ P cache'

/-- **The run of a plan**, for children that give their values and keep a property of the cache. -/
theorem runPlan_computes (null : V) {evs : List (Evaluator V)} {P : Cache V → Prop} {plan : Plan V}
    (hplan : plan.Computes batch.length evs.length full vals out)
    (hvals : ∀ j < evs.length, (vals j).length = batch.length)
    (hevs : ∀ j ev, evs[j]? = some ev → ∀ mask, mask.length = batch.length →
      (full j → mask = replicate batch.length true) → Evaluator.Yields ev (keep mask batch) P (keep mask (vals j)))
    (hcache : P cache) :
    ∃ c cache', runPlan null evs batch plan cache = some (c, cache') ∧ c.intoArray batch.length = out ∧ P cache' := by
  induction hplan generalizing cache with
  | done h => exact ⟨_, _, rfl, h, hcache⟩
  | ask hchild hlen hfull _ ih =>
    obtain ⟨c, _, hev, hc, hok⟩ :=
      hevs _ _ (getElem?_eq_getElem hchild) _ hlen hfull cache hcache
    obtain ⟨c', hsel, hagree⟩ := evaluateSelection_agrees _ null hlen (hvals _ hchild) hev hc
    obtain ⟨r, cache'', hrun, hr, hok'⟩ := ih c' hagree hok
    refine ⟨r, cache'', ?_, hr, hok'⟩
    rw [runPlan, getElem?_eq_getElem hchild, Option.bind_some, hsel]
    exact hrun

section Evaluate

variable [DecidableEq V]

def Exprs.toList : Exprs V F O → List (Expr V F O)
  | .nil => []
  | .cons e es => e :: es.toList

def childVals (S : Functions V F O) (es : Exprs V F O) (batch : List (Row V)) (j : ℕ) : List V :=
  match es.toList[j]? with
  | none => []
  | some e => batch.map (e.value S)

mutual

/-- No `CachedExpr`, and every node has the children it needs. -/
def Expr.Plain : Expr V F O → Prop
  | .column _ => True
  | .literal _ => True
  | .node k es => k.Arity es.toList.length ∧ es.Plain
  | .cached .. => False

def Exprs.Plain : Exprs V F O → Prop
  | .nil => True
  | .cons e es => e.Plain ∧ es.Plain

end

mutual

/-- On a batch, every `CachedExpr` has the values that belong to its number, and stands below nodes that ask for it on all
rows (`asked`). -/
def Expr.Fits (S : Functions V F O) (batch : List (Row V)) (cachedVals : ℕ → List V) (numCached : ℕ) :
    Expr V F O → Prop
  | .column _ => True
  | .literal _ => True
  | .node k es =>
    k.Arity es.toList.length ∧ es.Fits S batch cachedVals numCached (k.asksAll S (childVals S es batch 0)) 0
  | .cached id orig =>
    orig.Fits S batch cachedVals numCached ∧ id < numCached ∧ batch.map (orig.value S) = cachedVals id

def Exprs.Fits (S : Functions V F O) (batch : List (Row V)) (cachedVals : ℕ → List V) (numCached : ℕ)
    (asked : ℕ → Prop) : ℕ → Exprs V F O → Prop
  | _, .nil => True
  | j, .cons e es => (e.Plain ∨ asked j ∧ e.Fits S batch cachedVals numCached) ∧
      es.Fits S batch cachedVals numCached asked (j + 1)

end

def CacheFits (n : ℕ) (cachedVals : ℕ → List V) (numCached : ℕ) (cache : Cache V) : Prop :=
  cache.length = numCached ∧ ∀ id c, cache[id]? = some (some c) → c.intoArray n = cachedVals id

lemma getElem?_evaluators (es : Exprs V F O) (j : ℕ) :
    (es.evaluators S)[j]? = (es.toList[j]?).map (Expr.evaluate S) := by
  induction j generalizing es with
  | zero => cases es <;> rfl
  | succ j ih =>
    cases es with
    | nil => rfl
    | cons e es => exact ih es

lemma length_evaluators : (es : Exprs V F O) → (es.evaluators S).length = es.toList.length
  | .nil => rfl
  | .cons _ es => congrArg Nat.succ (length_evaluators es)

lemma values_eq_map : (es : Exprs V F O) → (row : Row V) → es.values S row = es.toList.map fun e => e.value S row
  | .nil, _ => rfl
  | .cons e es, row => congrArg (e.value S row :: ·) (values_eq_map es row)

lemma length_childVals {es : Exprs V F O} {j : ℕ} (hj : j < es.toList.length) (batch : List (Row V)) :
    (childVals S es batch j).length = batch.length := by
  rw [childVals, getElem?_eq_getElem hj]
  exact length_map _

lemma node_value_map (k : Kind F O) (es : Exprs V F O) (batch : List (Row V)) :
    ((range batch.length).map fun r =>
      k.value S ((range (es.evaluators S).length).map fun j => (childVals S es batch j).getD r S.null)) =
      batch.map ((Expr.node k es).value S) := by
  apply ext_getElem (by simp)
  intro r h1 h2
  have hr : r < batch.length := by simpa using h2
  have hvals : ((range (es.evaluators S).length).map fun j => (childVals S es batch j).getD r S.null) =
      es.values S batch[r] := by
    rw [values_eq_map, length_evaluators]
    apply ext_getElem (by simp)
    intro j _ h2
    have hj : j < es.toList.length := by simpa using h2
    simp [childVals, hj, hr]
  rw [getElem_map, getElem_map, getElem_range, hvals]
  rfl

/-- **A node evaluates to its meaning**, if its children do. -/
theorem node_evaluates (hS : S.Laws) {k : Kind F O} {es : Exprs V F O} (hk : k.Arity es.toList.length)
    {P : Cache V → Prop}
    (hes : ∀ (j : ℕ) e, es.toList[j]? = some e → ∀ mask, mask.length = batch.length →
      (k.asksAll S (childVals S es batch 0) j → mask = replicate batch.length true) →
        Evaluator.Yields (e.evaluate S) (keep mask batch) P ((keep mask batch).map (e.value S))) :
    Evaluator.Yields ((Expr.node k es).evaluate S) batch P (batch.map ((Expr.node k es).value S)) := by
  intro cache hcache
  have hlen := length_evaluators (S := S) es
  rw [← hlen] at hk
  have hvals : ∀ j < (es.evaluators S).length, (childVals S es batch j).length = batch.length :=
    fun j hj => length_childVals (hlen ▸ hj) batch
  have hplan := planOf_computes hS hk hvals
  rw [node_value_map] at hplan
  refine runPlan_computes S.null hplan hvals ?_ hcache
  intro j _ hev mask hmask hfull
  rw [getElem?_evaluators, Option.map_eq_some_iff] at hev
  obtain ⟨e, he, rfl⟩ := hev
  have hchild : childVals S es batch j = batch.map (e.value S) := by rw [childVals, he]
  rw [hchild, keep_map]
  exact hes j e he mask hmask hfull

mutual

/-- **An expression without cached parts evaluates to its meaning on any batch**, and does not touch the cache. -/
theorem evaluate_plain (hS : S.Laws) (P : Cache V → Prop) : (e : Expr V F O) → e.Plain → ∀ batch : List (Row V),
    Evaluator.Yields (e.evaluate S) batch P (batch.map (e.value S))
  | .column _, _, _ => fun cache hcache => ⟨_, cache, rfl, rfl, hcache⟩
  | .literal v, _, batch => fun cache hcache => ⟨_, cache, rfl, by simp [ColumnarValue.intoArray, Expr.value], hcache⟩
  | .node k es, h, batch => node_evaluates hS h.1 fun j e he mask _ _ =>
      evaluateAll_plain hS P es h.2 j e he (keep mask batch)
  | .cached .., h, _ => h.elim

theorem evaluateAll_plain (hS : S.Laws) (P : Cache V → Prop) : (es : Exprs V F O) → es.Plain →
    ∀ (j : ℕ) e, es.toList[j]? = some e → ∀ batch : List (Row V),
      Evaluator.Yields (e.evaluate S) batch P (batch.map (e.value S))
  | .nil, _, _, _, he, _ => by cases he
  | .cons e _, h, 0, _, he, batch => by
    cases he
    exact evaluate_plain hS P e h.1 batch
  | .cons _ es, h, j + 1, e, he, batch => evaluateAll_plain hS P es h.2 j e he batch

end

mutual

/-- **An expression whose cached parts fit evaluates to its meaning**, and leaves a cache that fits. -/
theorem evaluate_fits (hS : S.Laws) {batch : List (Row V)} {cachedVals : ℕ → List V} {numCached : ℕ} :
    (e : Expr V F O) → e.Fits S batch cachedVals numCached →
    Evaluator.Yields (e.evaluate S) batch (CacheFits batch.length cachedVals numCached) (batch.map (e.value S))
  | .column _, _ => fun cache hcache => ⟨_, cache, rfl, rfl, hcache⟩
  | .literal v, _ => fun cache hcache => ⟨_, cache, rfl, by simp [ColumnarValue.intoArray, Expr.value], hcache⟩
  | .node k es, h =>
    node_evaluates hS h.1 fun j e he mask hmask hfull => by
      rcases evaluateAll_fits hS es 0 h.2 j e he with hplain | ⟨hasks, hfits⟩
      · exact evaluate_plain hS _ e hplain (keep mask batch)
      · rw [Nat.zero_add] at hasks
        have hall := keep_eq_self hmask (by rw [hfull hasks]; exact fun b hb => eq_of_mem_replicate hb)
        rw [hall]
        exact hfits
  | .cached id orig, h => by
    intro cache hcache
    have hid : id < cache.length := hcache.1.symm ▸ h.2.1
    cases hget : cache[id] with
    | some c =>
      have hget? : cache[id]? = some (some c) := by rw [getElem?_eq_getElem hid, hget]
      exact ⟨c, cache, by simp only [Expr.evaluate, cacheGet, hget?], (hcache.2 id c hget?).trans h.2.2.symm, hcache⟩
    | none =>
      have hget? : cache[id]? = some none := by rw [getElem?_eq_getElem hid, hget]
      obtain ⟨c, cache', hev, hc, hlen, hvals⟩ := evaluate_fits hS orig h.1 cache hcache
      refine ⟨c, cache'.set id (some c), by simp only [Expr.evaluate, cacheGet, hget?, hev, Option.map_some], hc, ?_, ?_⟩
      · rw [length_set, hlen]
      · intro id' c' hc'
        rw [getElem?_set] at hc'
        split at hc'
        · next heq =>
          subst heq
          split at hc'
          · cases hc'
            exact hc.trans h.2.2
          · cases hc'
        · exact hvals id' c' hc'

theorem evaluateAll_fits (hS : S.Laws) {batch : List (Row V)} {cachedVals : ℕ → List V} {numCached : ℕ}
    {asked : ℕ → Prop} : (es : Exprs V F O) → (i : ℕ) → es.Fits S batch cachedVals numCached asked i →
    ∀ (j : ℕ) e, es.toList[j]? = some e → e.Plain ∨ asked (i + j) ∧
      Evaluator.Yields (e.evaluate S) batch (CacheFits batch.length cachedVals numCached) (batch.map (e.value S))
  | .nil, _, _, _, _, he => by cases he
  | .cons e _, i, h, 0, _, he => by
    cases he
    exact h.1.imp id fun hfits => ⟨hfits.1, evaluate_fits hS e hfits.2⟩
  | .cons _ es, i, h, j + 1, e, he => by
    have := evaluateAll_fits hS es (i + 1) h.2 j e he
    rwa [Nat.add_right_comm, Nat.add_assoc] at this

end

end Evaluate

end Auron.Eval
