import Mathlib.Algebra.GroupWithZero.Nat
import Mathlib.Data.List.GetD
import Auron.Eval.PhysicalExpr
import Auron.Lib.Fallible

/-!
# Filter and project with cached expressions (`common/cached_exprs_evaluator.rs`)

Expressions that occur more often than the expression above them are wrapped in `CachedExpr`, which evaluates on its first
use and returns the same values from then on.  A predicate is evaluated on the rows that the predicates before it left;
after it, the cached arrays are scattered back and filtered again.  So at every point a cached array has the values of its
expression on the rows that are still there (`Filtered`).

`transform` goes into the first child of CASE, AND and OR, which is evaluated on all rows, and for a CASE with a base
expression also into the first WHEN.  That one is evaluated only where the base is not null: a cached array of all rows is
then scattered to the wrong rows (`base_case_uses_wrong_rows`).  If such WHENs have nothing cached in them, or their base is
not null on any row that they are evaluated on, filtering and projecting gives what it gives without any cache
(`filterProject_eq_naive`).
-/

namespace Auron.Eval

open Lib List

variable {V F O : Type}

/-! ### Column pruning -/

mutual

/-- `prune_expr_cols`: the columns are renumbered in the order in which they are met. -/
def Expr.prune : Expr V F O → List ℕ → Expr V F O × List ℕ
  | .column index, used =>
    if index ∈ used then (.column (used.idxOf index), used) else (.column used.length, used ++ [index])
  | .literal v, used => (.literal v, used)
  | .node k es, used => (.node k (es.prune used).1, (es.prune used).2)
  | .cached id orig, used => (.cached id (orig.prune used).1, (orig.prune used).2)

def Exprs.prune : Exprs V F O → List ℕ → Exprs V F O × List ℕ
  | .nil, used => (.nil, used)
  | .cons e es, used => (.cons (e.prune used).1 (es.prune (e.prune used).2).1, (es.prune (e.prune used).2).2)

end

def projectRow (null : V) (cols : List ℕ) (row : Row V) : Row V := cols.map fun col => row.getD col null

def project (null : V) (cols : List ℕ) (batch : List (Row V)) : List (Row V) := batch.map (projectRow null cols)

lemma length_toList_prune (es : Exprs V F O) (used : List ℕ) : (es.prune used).1.toList.length = es.toList.length :=
  match es with
  | .nil => rfl
  | .cons e es => congrArg Nat.succ (length_toList_prune es (e.prune used).2)

mutual

theorem prefix_prune : (e : Expr V F O) → (used : List ℕ) → used <+: (e.prune used).2
  | .column index, used => by
    rw [Expr.prune]
    split
    · exact prefix_rfl
    · exact prefix_append used [index]
  | .literal _, _ => prefix_rfl
  | .node _ es, used => prefix_pruneAll es used
  | .cached _ orig, used => prefix_prune orig used

theorem prefix_pruneAll : (es : Exprs V F O) → (used : List ℕ) → used <+: (es.prune used).2
  | .nil, _ => prefix_rfl
  | .cons e es, used => (prefix_prune e used).trans (prefix_pruneAll es (e.prune used).2)

end

lemma getD_projectRow {used cols : List ℕ} (hcols : used <+: cols) {i index : ℕ} (hi : used[i]? = some index) (null : V)
    (row : Row V) : (projectRow null cols row).getD i null = row.getD index null := by
  obtain ⟨_, rfl⟩ := hcols
  have hlt := (List.getElem?_eq_some_iff.1 hi).1
  rw [projectRow, getD_eq_getElem?_getD, getElem?_map, getElem?_append_left hlt, hi]
  rfl

mutual

theorem plain_prune : (e : Expr V F O) → (used : List ℕ) → e.Plain → (e.prune used).1.Plain
  | .column index, used, _ => by
    rw [Expr.prune]
    split <;> trivial
  | .literal _, _, _ => trivial
  | .node _ es, used, h => ⟨by rw [length_toList_prune]; exact h.1, plain_pruneAll es used h.2⟩
  | .cached .., _, h => h.elim

theorem plain_pruneAll : (es : Exprs V F O) → (used : List ℕ) → es.Plain → (es.prune used).1.Plain
  | .nil, _, _ => trivial
  | .cons e es, used, h => ⟨plain_prune e used h.1, plain_pruneAll es (e.prune used).2 h.2⟩

end

section Value

variable [DecidableEq V] {S : Functions V F O}

mutual

/-- **A pruned expression means on the pruned row what the expression means on the row**, also when more columns follow. -/
theorem value_prune (row : Row V) {cols : List ℕ} : (e : Expr V F O) → (used : List ℕ) → (e.prune used).2 <+: cols →
    (e.prune used).1.value S (projectRow S.null cols row) = e.value S row
  | .column index, used, hcols => by
    rw [Expr.prune] at hcols ⊢
    split at hcols
    · next hmem =>
      rw [if_pos hmem]
      exact getD_projectRow hcols (getElem?_idxOf hmem) S.null row
    · next hmem =>
      rw [if_neg hmem]
      exact getD_projectRow hcols (by simp) S.null row
  | .literal _, _, _ => rfl
  | .node k es, used, hcols => congrArg (k.value S) (values_prune row es used hcols)
  | .cached _ orig, used, hcols => value_prune row orig used hcols

theorem values_prune (row : Row V) {cols : List ℕ} : (es : Exprs V F O) → (used : List ℕ) →
    (es.prune used).2 <+: cols → (es.prune used).1.values S (projectRow S.null cols row) = es.values S row
  | .nil, _, _ => rfl
  | .cons e es, used, hcols => by
    rw [Exprs.prune, Exprs.values, Exprs.values,
      value_prune row e used ((prefix_pruneAll es (e.prune used).2).trans hcols),
      values_prune row es (e.prune used).2 hcols]

end

lemma childVals_prune (es : Exprs V F O) {used cols : List ℕ} (hcols : (es.prune used).2 <+: cols) (batch : List (Row V)) :
    childVals S (es.prune used).1 (project S.null cols batch) 0 = childVals S es batch 0 := by
  cases es with
  | nil => rfl
  | cons e es =>
    show (project S.null cols batch).map _ = _
    rw [project, map_map]
    exact map_congr_left fun row _ => value_prune row e used ((prefix_pruneAll es (e.prune used).2).trans hcols)

mutual

/-- **Pruning keeps the cached values right**: on the pruned rows a cached expression has the values it has on the rows. -/
theorem fits_prune {batch : List (Row V)} {cachedVals : ℕ → List V} {numCached : ℕ} {cols : List ℕ} :
    (e : Expr V F O) → (used : List ℕ) → (e.prune used).2 <+: cols → e.Fits S batch cachedVals numCached →
      (e.prune used).1.Fits S (project S.null cols batch) cachedVals numCached
  | .column index, used, _, _ => by
    rw [Expr.prune]
    split <;> trivial
  | .literal _, _, _, _ => trivial
  | .node k es, used, hcols, h => by
    refine ⟨by rw [length_toList_prune]; exact h.1, ?_⟩
    rw [childVals_prune es hcols batch]
    exact fits_pruneAll es 0 used hcols h.2
  | .cached id orig, used, hcols, ⟨horig, hid, hvals⟩ => by
    refine ⟨fits_prune orig used hcols horig, hid, ?_⟩
    rw [← hvals, project, map_map]
    apply map_congr_left
    rintro row -
    exact value_prune row orig used hcols

theorem fits_pruneAll {batch : List (Row V)} {cachedVals : ℕ → List V} {numCached : ℕ} {cols : List ℕ}
    {asked : ℕ → Prop} : (es : Exprs V F O) → (j : ℕ) → (used : List ℕ) → (es.prune used).2 <+: cols →
      es.Fits S batch cachedVals numCached asked j →
      (es.prune used).1.Fits S (project S.null cols batch) cachedVals numCached asked j
  | .nil, _, _, _, _ => trivial
  | .cons e es, j, used, hcols, ⟨hhead, htail⟩ => by
    have hcols' := (prefix_pruneAll es (e.prune used).2).trans hcols
    refine ⟨?_, fits_pruneAll es (j + 1) (e.prune used).2 hcols htail⟩
    rcases hhead with hplain | ⟨hasks, hfits⟩
    · exact .inl (plain_prune e used hplain)
    · exact .inr ⟨hasks, fits_prune e used hcols' hfits⟩

end

end Value

/-! ### Filter results and cached values -/

inductive FilterStat where
  | allRetained
  | allFiltered
  | some (selected : List Bool)
  deriving DecidableEq

def FilterStat.selected? : FilterStat → Option (List Bool)
  | .some selected => Option.some selected
  | _ => none

/-- What the result of a predicate says: a scalar that is true changes nothing, and nulls in an array are not true. -/
def newStat (S : Functions V F O) (stat : FilterStat) : ColumnarValue V → FilterStat
  | .scalar v => if S.isTrue v then stat else .allFiltered
  | .array vs => .some (vs.map S.isTrue)

/-- What a stat says about the rows of a batch that pass `p`. -/
def FilterStat.Says (batch : List (Row V)) (p : Row V → Bool) : FilterStat → Prop
  | .allRetained => ∀ row ∈ batch, p row = true
  | .allFiltered => ∀ row ∈ batch, p row = false
  | .some selected => selected = batch.map p

lemma eq_of_scalar {v : V} {n : ℕ} {vs : List V} (h : (ColumnarValue.scalar v).intoArray n = vs) : ∀ x ∈ vs, x = v :=
  fun _ hx => eq_of_mem_replicate (h ▸ hx)

variable {batch : List (Row V)} {p : Row V → Bool} {stat : FilterStat}

/-- The stat after a predicate whose value is `c`: a scalar for all rows that passed, or an array that is null elsewhere. -/
lemma newStat_says {S : Functions V F O} (hS : S.Laws) (hstat : stat.Says batch p) {f : Row V → V}
    {c : ColumnarValue V}
    (hc : (∃ v, c = .scalar v ∧ ∀ row ∈ batch, p row = true → f row = v) ∨
      c = .array (batch.map fun row => if p row then f row else S.null)) :
    (newStat S stat c).Says batch fun row => p row && S.isTrue (f row) := by
  rcases hc with ⟨v, rfl, hv⟩ | rfl
  · rw [newStat]
    split
    · next htrue =>
      have hsame : ∀ row ∈ batch, (p row && S.isTrue (f row)) = p row := by
        intro row hrow
        cases hp : p row with
        | false => rfl
        | true => rw [hv row hrow hp, htrue, Bool.true_and]
      cases stat with
      | allRetained => exact fun row hrow => (hsame row hrow).trans (hstat row hrow)
      | allFiltered => exact fun row hrow => (hsame row hrow).trans (hstat row hrow)
      | some selected => exact Eq.trans hstat (map_congr_left fun row hrow => (hsame row hrow).symm)
    · next hfalse =>
      intro row hrow
      dsimp only
      cases hp : p row with
      | false => rfl
      | true => rw [hv row hrow hp, Bool.true_and, Bool.eq_false_iff.2 hfalse]
  · rw [newStat, map_map]
    apply map_congr_left
    rintro row -
    rw [Function.comp]
    cases p row with
    | false => simpa using hS.isTrue_null
    | true => rfl

def refilter (null : V) (previous : Option (List Bool)) (selected : List Bool) :
    Option (ColumnarValue V) → Option (Option (ColumnarValue V))
  | some (.array vs) =>
    match previous with
    | some previous => (spread null previous vs).map fun vs => some (.array (keep selected vs))
    | none => some (some (.array (keep selected vs)))
  | value => some value

def updateAll (null : V) (previous : Option (List Bool)) (selected : List Bool) (cache : Cache V) : Option (Cache V) :=
  cache.mapM (refilter null previous selected)

section UpdateAll

variable {batch : List (Row V)} {p p' : Row V → Bool} {stat : FilterStat}

lemma refilter_spec (null : V) (hsub : ∀ row ∈ batch, p' row = true → p row = true) (hstat : stat.Says batch p)
    (hsome : stat ≠ .allFiltered) {f : Row V → V} {c : ColumnarValue V}
    (hc : c.intoArray (batch.filter p).length = (batch.filter p).map f) :
    ∃ c', refilter null stat.selected? (batch.map p') (some c) = some (some c') ∧
      c'.intoArray (batch.filter p').length = (batch.filter p').map f := by
  have hkeep : keep (batch.map p') (batch.map f) = (batch.filter p').map f := by rw [keep_map, keep_map_self]
  cases c with
  | scalar v =>
    refine ⟨.scalar v, rfl, Eq.symm (eq_replicate_iff.2 ⟨length_map _, ?_⟩)⟩
    intro x hx
    obtain ⟨row, hrow, rfl⟩ := mem_map.1 hx
    obtain ⟨hmem, hp'⟩ := mem_filter.1 hrow
    exact eq_of_scalar hc _ (mem_map_of_mem (mem_filter.2 ⟨hmem, hsub row hmem hp'⟩))
  | array vs =>
    rw [ColumnarValue.intoArray] at hc
    refine ⟨.array ((batch.filter p').map f), ?_, rfl⟩
    cases stat with
    | allFiltered => exact absurd rfl hsome
    | allRetained =>
      rw [filter_eq_self.2 hstat] at hc
      dsimp only [refilter, FilterStat.selected?]
      rw [hc, hkeep]
    | some selected =>
      -- scatter by the previous selection, then filter by the new one
      obtain rfl : selected = batch.map p := hstat
      have hvs : vs = keep (batch.map p) (batch.map f) := by rw [hc, keep_map, keep_map_self]
      have hmasks : Forall₂ (fun a b => a = true → b = true) (batch.map p') (batch.map p) :=
        forall₂_map_left_iff.2 (forall₂_map_right_iff.2 (forall₂_same.2 hsub))
      dsimp only [refilter, FilterStat.selected?]
      rw [hvs, spread_keep null (by simp), Option.map_some, keep_blank null (by simp) hmasks, hkeep]

/-- **All cached values follow the selection.** -/
theorem updateAll_spec (null : V) (hsub : ∀ row ∈ batch, p' row = true → p row = true) (hstat : stat.Says batch p)
    (hsome : stat ≠ .allFiltered) {f : ℕ → Row V → V} {numCached : ℕ} {cache : Cache V}
    (hcache : CacheFits (batch.filter p).length (fun id => (batch.filter p).map (f id)) numCached cache) :
    ∃ cache', updateAll null stat.selected? (batch.map p') cache = some cache' ∧
      CacheFits (batch.filter p').length (fun id => (batch.filter p').map (f id)) numCached cache' := by
  obtain ⟨hlen, hvals⟩ := hcache
  have hdefined : ∀ value ∈ cache, ∃ value', refilter null stat.selected? (batch.map p') value = some value' := by
    intro value hmem
    obtain ⟨id, hid⟩ := getElem?_of_mem hmem
    cases value with
    | none => exact ⟨none, rfl⟩
    | some c =>
      obtain ⟨c', hc', -⟩ := refilter_spec null hsub hstat hsome (hvals id c hid)
      exact ⟨some c', hc'⟩
  obtain ⟨cache', hrun⟩ := exists_mapM hdefined
  refine ⟨cache', hrun, (length_of_mapM hrun).trans hlen, fun id c' hid' => ?_⟩
  have hid := congrArg (·[id]?) (mapM_eq_some_iff.1 hrun)
  simp only [getElem?_map, hid', Option.map_some] at hid
  obtain ⟨value, hvalue, hrefilter⟩ := Option.map_eq_some_iff.1 hid
  cases value with
  | none => cases hrefilter
  | some c =>
    obtain ⟨_, hc'', hval⟩ := refilter_spec null hsub hstat hsome (hvals id c hvalue)
    rw [hc''] at hrefilter
    cases hrefilter
    exact hval

end UpdateAll

variable [DecidableEq V] [DecidableEq F] [DecidableEq O]

/-! ### Finding the expressions to cache -/

/-- The children that are searched for expressions to cache: all of a function, the first of CASE, AND and OR, and the first
WHEN of a CASE with a base. -/
def Kind.caches : Kind F O → ℕ → Bool
  | .func _, _ => true
  | .shortCircuit _, child => child == 0
  | .case hasBase _ _, child => child == 0 || hasBase && child == 1

mutual

/-- `count`: how often `key` occurs in an expression. -/
def Expr.count (key : Expr V F O) : Expr V F O → ℕ
  | .node k es => (if Expr.node k es = key then 1 else 0) + Exprs.count key es
  | e => if e = key then 1 else 0

def Exprs.count (key : Expr V F O) : Exprs V F O → ℕ
  | .nil => 0
  | .cons e es => Expr.count key e + Exprs.count key es

end

mutual

/-- `collect_dups`: the expressions that occur more often than the one above them. -/
def Expr.collectDups (counts : Expr V F O → ℕ) (parentCount : ℕ) : Expr V F O → List (Expr V F O)
  | .node k es =>
    let currentCount := counts (.node k es)
    (if parentCount < currentCount then [.node k es] else []) ++ es.collectDups counts currentCount k 0
  | _ => []

def Exprs.collectDups (counts : Expr V F O → ℕ) (currentCount : ℕ) (k : Kind F O) :
    ℕ → Exprs V F O → List (Expr V F O)
  | _, .nil => []
  | j, .cons e es =>
    (if k.caches j then e.collectDups counts currentCount else []) ++ es.collectDups counts currentCount k (j + 1)

end

def dups (exprs : List (Expr V F O)) : List (Expr V F O) :=
  exprs.flatMap (Expr.collectDups (fun key => (exprs.map (Expr.count key)).sum) 1)

mutual

/-- `transform`: the expressions of `order` are cached, under their place in it. -/
def Expr.transform (order : List (Expr V F O)) : Expr V F O → Expr V F O
  | .node k es =>
    let transformed := Expr.node k (es.transform order k 0)
    match order.idxOf? (.node k es) with
    | some id => .cached id transformed
    | none => transformed
  | e => e

def Exprs.transform (order : List (Expr V F O)) (k : Kind F O) : ℕ → Exprs V F O → Exprs V F O
  | _, .nil => .nil
  | j, .cons e es => .cons (if k.caches j then e.transform order else e) (es.transform order k (j + 1))

end

/-! ### The evaluator -/

/-- `CachedExprsEvaluator`; `casts` are the casts to the output schema. -/
structure CachedExprsEvaluator (V F O : Type) where
  projectionExprs : List (Expr V F O)
  prunedFilterExprs : List (Expr V F O × List ℕ)
  casts : List (V → V)
  numCached : ℕ

/-- `try_new`; `numbering` is the order in which the set of duplicates is iterated. -/
def CachedExprsEvaluator.tryNew (numbering : List (Expr V F O) → List (Expr V F O))
    (filterExprs projectionExprs : List (Expr V F O)) (casts : List (V → V)) : CachedExprsEvaluator V F O :=
  let order := numbering (dups (filterExprs ++ projectionExprs))
  ⟨projectionExprs.map (Expr.transform order), filterExprs.map fun e => (e.transform order).prune [], casts,
    order.length⟩

variable (S : Functions V F O)

def filterOnePred (batch : List (Row V)) (pred : Expr V F O × List ℕ) (stat : FilterStat) (cache : Cache V) :
    Option (FilterStat × Cache V) :=
  let prunedBatch := project S.null pred.2 batch
  match stat with
  | .allFiltered => some (.allFiltered, cache)
  | .allRetained => (pred.1.evaluate S prunedBatch cache).map fun (c, cache) => (newStat S stat c, cache)
  | .some selected =>
    (evaluateSelection S.null (pred.1.evaluate S) prunedBatch selected cache).map fun (c, cache) =>
      (newStat S stat c, cache)

/-- The loop of `filter_impl`; it ends when all rows are filtered. -/
def filterLoop (batch : List (Row V)) :
    List (Expr V F O × List ℕ) → FilterStat → Cache V → Option (FilterStat × Cache V)
  | [], stat, cache => some (stat, cache)
  | pred :: preds, stat, cache =>
    (filterOnePred S batch pred stat cache).bind fun (stat', cache) =>
      match stat' with
      | .allFiltered => some (.allFiltered, cache)
      | .allRetained => filterLoop batch preds .allRetained cache
      | .some selected =>
        (updateAll S.null stat.selected? selected cache).bind fun cache => filterLoop batch preds (.some selected) cache

/-- `filter_impl`: the filtered batch. -/
def filterImpl (ev : CachedExprsEvaluator V F O) (batch : List (Row V)) (cache : Cache V) :
    Option (List (Row V) × Cache V) :=
  (filterLoop S batch ev.prunedFilterExprs .allRetained cache).map fun (stat, cache) =>
    match stat with
    | .allFiltered => ([], cache)
    | .allRetained => (batch, cache)
    | .some selected => (keep selected batch, cache)

def projectLoop (batch : List (Row V)) :
    List (Expr V F O × (V → V)) → Cache V → Option (List (List V))
  | [], _ => some []
  | (expr, cast) :: rest, cache =>
    (expr.evaluate S batch cache).bind fun (c, cache) =>
      (projectLoop batch rest cache).map fun cols => (c.intoArray batch.length).map cast :: cols

/-- `filter_project`, with a cache that is reset before: the number of rows and the columns. -/
def filterProject (ev : CachedExprsEvaluator V F O) (batch : List (Row V)) : Option (ℕ × List (List V)) :=
  (filterImpl S ev batch (replicate ev.numCached none)).bind fun (filtered, cache) =>
    if filtered.length = 0 then some (0, (ev.projectionExprs.zip ev.casts).map fun _ => [])
    else (projectLoop S filtered (ev.projectionExprs.zip ev.casts) cache).map fun cols => (filtered.length, cols)

/-- The rows on which all predicates are true, in order. -/
def kept (S : Functions V F O) (filterExprs : List (Expr V F O)) (batch : List (Row V)) : List (Row V) :=
  batch.filter fun row => filterExprs.all fun e => S.isTrue (e.value S row)

omit [DecidableEq F] [DecidableEq O] in
lemma kept_nil (S : Functions V F O) (batch : List (Row V)) : kept S [] batch = batch :=
  filter_eq_self.2 fun _ _ => rfl

omit [DecidableEq F] [DecidableEq O] in
lemma kept_cons (S : Functions V F O) (e : Expr V F O) (es : List (Expr V F O)) (batch : List (Row V)) :
    kept S (e :: es) batch = kept S es (batch.filter fun row => S.isTrue (e.value S row)) := by
  simp only [kept, filter_filter, all_cons, Bool.and_comm]

/-- Filtering and projecting without any cache: every projection on the rows that are kept. -/
def naive (filterExprs projectionExprs : List (Expr V F O)) (casts : List (V → V)) (batch : List (Row V)) :
    ℕ × List (List V) :=
  ((kept S filterExprs batch).length,
    (projectionExprs.zip casts).map fun (e, cast) => (kept S filterExprs batch).map fun row => cast (e.value S row))

variable {S} {order : List (Expr V F O)}

/-! ### The transformed expressions -/

lemma length_toList_transform (k : Kind F O) (es : Exprs V F O) (j : ℕ) :
    (es.transform order k j).toList.length = es.toList.length :=
  match es with
  | .nil => rfl
  | .cons _ es => congrArg Nat.succ (length_toList_transform k es (j + 1))

mutual

theorem value_transform (row : Row V) : (e : Expr V F O) → (e.transform order).value S row = e.value S row
  | .column _ => rfl
  | .literal _ => rfl
  | .cached .. => rfl
  | .node k es => by
    have hnode : (Expr.node k (es.transform order k 0)).value S row = (Expr.node k es).value S row :=
      congrArg (k.value S) (values_transform row k es 0)
    rw [Expr.transform]
    cases order.idxOf? (Expr.node k es) with
    | none => exact hnode
    | some id => exact hnode

theorem values_transform (row : Row V) (k : Kind F O) : (es : Exprs V F O) → (j : ℕ) →
    (es.transform order k j).values S row = es.values S row
  | .nil, _ => rfl
  | .cons e es, j => by
    have htail := values_transform row k es (j + 1)
    rw [Exprs.transform, Exprs.values, Exprs.values, htail]
    split
    · rw [value_transform row e]
    · rfl

end

lemma childVals_transform (k : Kind F O) (es : Exprs V F O) (batch : List (Row V)) :
    childVals S (es.transform order k 0) batch 0 = childVals S es batch 0 := by
  cases es with
  | nil => rfl
  | cons e es =>
    show batch.map ((if k.caches 0 then e.transform order else e).value S) = _
    split
    · exact map_congr_left fun row _ => value_transform row e
    · rfl

instance decidableAsksAll (base : List V) (k : Kind F O) (j : ℕ) : Decidable (k.asksAll S base j) :=
  match k with
  | .func _ => isTrue trivial
  | .shortCircuit _ => inferInstanceAs (Decidable (j = 0))
  | .case hasBase _ _ => inferInstanceAs (Decidable (j = 0 ∨ hasBase = true ∧ j = 1 ∧ ∀ v ∈ base, v ≠ S.null))

section Safe

variable (S) (order) (batch : List (Row V))

mutual

/-- On a batch, every child that the transformation goes into is asked for on all rows, or has nothing cached in it. -/
def Expr.safe : Expr V F O → Bool
  | .node k es => es.safe k (childVals S es batch 0) 0
  | _ => true

def Exprs.safe (k : Kind F O) (base : List V) : ℕ → Exprs V F O → Bool
  | _, .nil => true
  | j, .cons e es =>
    (!k.caches j || decide (e.transform order = e) || decide (k.asksAll S base j) && e.safe) && es.safe k base (j + 1)

end

end Safe

def keyVals (S : Functions V F O) (order : List (Expr V F O)) (batch : List (Row V)) (id : ℕ) : List V :=
  batch.map ((order.getD id (.literal S.null)).value S)

mutual

/-- **The transformed expressions fit** on every batch, if the transformation is safe. -/
theorem transform_fits (batch : List (Row V)) : (e : Expr V F O) → e.Plain → e.safe S order batch = true →
    (e.transform order).Fits S batch (keyVals S order batch) order.length
  | .column _, _, _ => trivial
  | .literal _, _, _ => trivial
  | .cached .., h, _ => h.elim
  | .node k es, hplain, hsafe => by
    have hfits : (Expr.node k (es.transform order k 0)).Fits S batch (keyVals S order batch) order.length := by
      refine ⟨by rw [length_toList_transform]; exact hplain.1, ?_⟩
      rw [childVals_transform]
      exact transformAll_fits batch k _ es 0 hplain.2 hsafe
    rw [Expr.transform]
    cases hid : order.idxOf? (Expr.node k es) with
    | none => exact hfits
    | some id =>
      obtain ⟨hlt, hkey, -⟩ := idxOf?_eq_some_iff.1 hid
      refine ⟨hfits, hlt, ?_⟩
      rw [keyVals, getD_eq_getElem _ _ hlt, hkey]
      apply map_congr_left
      rintro row -
      exact congrArg (k.value S) (values_transform row k es 0)

theorem transformAll_fits (batch : List (Row V)) (k : Kind F O) (base : List V) : (es : Exprs V F O) → (j : ℕ) →
    es.Plain → es.safe S order batch k base j = true →
      (es.transform order k j).Fits S batch (keyVals S order batch) order.length (k.asksAll S base) j
  | .nil, _, _, _ => trivial
  | .cons e es, j, hplain, hsafe => by
    rw [Exprs.safe, Bool.and_eq_true] at hsafe
    refine ⟨?_, transformAll_fits batch k base es (j + 1) hplain.2 hsafe.2⟩
    split
    · next hcaches =>
      -- a child that is transformed
      simp only [hcaches, Bool.not_true, Bool.false_or, Bool.or_eq_true, Bool.and_eq_true, decide_eq_true_eq] at hsafe
      rcases hsafe.1 with hsame | ⟨hasks, hchild⟩
      · rw [hsame]
        exact .inl hplain.1
      · exact .inr ⟨hasks, transform_fits batch e hplain.1 hchild⟩
    · exact .inl hplain.1

end

/-! ### The filter loop -/

/-- The cache has the values on the rows that pass `p`. -/
def Filtered (S : Functions V F O) (order : List (Expr V F O)) (batch : List (Row V)) (p : Row V → Bool)
    (cache : Cache V) : Prop :=
  CacheFits (batch.filter p).length (keyVals S order (batch.filter p)) order.length cache

def prunedPred (order : List (Expr V F O)) (e : Expr V F O) : Expr V F O × List ℕ := (e.transform order).prune []

variable {cache : Cache V}

section Laws

variable (hS : S.Laws)

include hS

lemma prunedPred_evaluates {e : Expr V F O} (hplain : e.Plain) (hsafe : e.safe S order batch = true)
    (hcache : CacheFits batch.length (keyVals S order batch) order.length cache) :
    ∃ c cache', (prunedPred order e).1.evaluate S (project S.null (prunedPred order e).2 batch) cache = some (c, cache') ∧
      c.intoArray batch.length = batch.map (e.value S) ∧
      CacheFits batch.length (keyVals S order batch) order.length cache' := by
  have hfits := fits_prune (e.transform order) [] prefix_rfl (transform_fits (S := S) batch e hplain hsafe)
  have hlen : (project S.null (prunedPred order e).2 batch).length = batch.length := length_map _
  rw [← hlen] at hcache
  obtain ⟨c, cache', hev, hc, hcache'⟩ := evaluate_fits hS _ hfits cache hcache
  refine ⟨c, cache', hev, ?_, hlen ▸ hcache'⟩
  rw [← hlen]
  refine hc.trans ?_
  rw [project, map_map]
  apply map_congr_left
  rintro row -
  exact (value_prune row _ [] prefix_rfl).trans (value_transform row e)

/-- **One predicate.** -/
theorem filterOnePred_spec {e : Expr V F O} (hplain : e.Plain) (hsafe : e.safe S order (batch.filter p) = true)
    (hstat : stat.Says batch p) (hcache : Filtered S order batch p cache) :
    ∃ stat' cache', filterOnePred S batch (prunedPred order e) stat cache = some (stat', cache') ∧
      stat'.Says batch (fun row => p row && S.isTrue (e.value S row)) ∧ Filtered S order batch p cache' := by
  obtain ⟨c, cache', hev, hc, hcache'⟩ := prunedPred_evaluates hS hplain hsafe hcache
  cases stat with
  | allFiltered =>
    refine ⟨_, _, rfl, fun row hrow => ?_, hcache⟩
    dsimp only
    rw [hstat row hrow, Bool.false_and]
  | allRetained =>
    have hall : batch.filter p = batch := filter_eq_self.2 hstat
    rw [hall] at hev hc
    refine ⟨newStat S .allRetained c, cache', by rw [filterOnePred, hev]; rfl, newStat_says hS hstat ?_, hcache'⟩
    cases c with
    | scalar v => exact .inl ⟨v, rfl, fun row hrow _ => eq_of_scalar hc _ (mem_map_of_mem hrow)⟩
    | array vs =>
      refine .inr ?_
      rw [ColumnarValue.intoArray] at hc
      rw [hc]
      congr 1
      apply map_congr_left
      intro row hrow
      rw [hstat row hrow, if_pos rfl]
  | some selected =>
    have hsays := hstat
    obtain rfl : selected = batch.map p := hstat
    have hkeep : keep (batch.map p) (project S.null (prunedPred order e).2 batch) =
        project S.null (prunedPred order e).2 (batch.filter p) := by
      rw [project, keep_map, keep_map_self, project]
    have hvals : keep (batch.map p) (batch.map (e.value S)) = (batch.filter p).map (e.value S) := by
      rw [keep_map, keep_map_self]
    rw [← hkeep] at hev
    obtain ⟨c', hsel, hc'⟩ := evaluateSelection_eq (batch.map (e.value S)) S.null (by simp [project])
      (by simp [project]) hev (by rw [hkeep, hvals]; simpa [project] using hc)
    refine ⟨newStat S (.some (batch.map p)) c', cache', by rw [filterOnePred, hsel]; rfl, newStat_says hS hsays ?_, hcache'⟩
    rw [hvals, blank_map] at hc'
    refine hc'.imp (fun ⟨v, hv, hall⟩ => ⟨v, hv, fun row hrow hp => hall _ ?_⟩) id
    exact mem_map_of_mem (mem_filter.2 ⟨hrow, hp⟩)

/-- **The filter loop.**  By induction on the predicates left, with `p` for those before them. -/
theorem filterLoop_spec {exprs : List (Expr V F O)} (hplain : ∀ e ∈ exprs, e.Plain)
    (hsafe : ∀ (i : ℕ) e, exprs[i]? = some e → e.safe S order (kept S (exprs.take i) (batch.filter p)) = true)
    (hstat : stat.Says batch p) (hcache : Filtered S order batch p cache) :
    ∃ stat' cache', filterLoop S batch (exprs.map (prunedPred order)) stat cache = some (stat', cache') ∧
      stat'.Says batch (fun row => p row && exprs.all fun e => S.isTrue (e.value S row)) ∧
      (stat' ≠ .allFiltered →
        Filtered S order batch (fun row => p row && exprs.all fun e => S.isTrue (e.value S row)) cache') := by
  induction exprs generalizing p stat cache with
  | nil =>
    simp only [all_nil, Bool.and_true]
    exact ⟨stat, cache, rfl, hstat, fun _ => hcache⟩
  | cons e exprs ih =>
    obtain ⟨hplain0, hplain⟩ := forall_mem_cons.1 hplain
    have hsafe0 : e.safe S order (batch.filter p) = true := by
      have h := hsafe 0 e rfl
      rwa [take_zero, kept_nil] at h
    have hsafe : ∀ (i : ℕ) e', exprs[i]? = some e' → e'.safe S order
        (kept S (exprs.take i) (batch.filter fun row => p row && S.isTrue (e.value S row))) = true := by
      intro i e' he'
      have h := hsafe (i + 1) e' he'
      simp only [take_succ_cons, kept_cons, filter_filter, Bool.and_comm] at h ⊢
      exact h
    obtain ⟨stat1, cache1, hone, hstat1, hcache1⟩ := filterOnePred_spec hS hplain0 hsafe0 hstat hcache
    simp only [all_cons, ← Bool.and_assoc]
    rw [map_cons, filterLoop, hone, Option.bind_some]
    cases stat1 with
    | allFiltered =>
      refine ⟨.allFiltered, cache1, rfl, fun row hrow => ?_, fun h => absurd rfl h⟩
      have hfalse : (p row && S.isTrue (e.value S row)) = false := hstat1 row hrow
      dsimp only
      rw [hfalse, Bool.false_and]
    | allRetained =>
      refine ih hplain hsafe hstat1 ?_
      -- no row was lost, also not before
      have hall : ∀ row ∈ batch, p row = true := fun row hrow => (Bool.and_eq_true_iff.1 (hstat1 row hrow)).1
      rw [Filtered, filter_eq_self.2 hall] at hcache1
      rwa [Filtered, filter_eq_self.2 hstat1]
    | some selected =>
      obtain rfl : selected = _ := hstat1
      have hsome : stat ≠ .allFiltered := by
        rintro rfl
        cases hone
      obtain ⟨_, hupdate, hcache2⟩ := updateAll_spec S.null (f := fun id => (order.getD id (.literal S.null)).value S)
        (fun row _ h => (Bool.and_eq_true_iff.1 h).1) hstat hsome hcache1
      obtain ⟨stat', cache', hloop, hrest⟩ := ih hplain hsafe
        (show (FilterStat.some (batch.map fun row => p row && S.isTrue (e.value S row))).Says batch _ from rfl) hcache2
      refine ⟨stat', cache', ?_, hrest⟩
      dsimp only
      rw [hupdate]
      exact hloop

/-! ### Filter and project -/

/-- **`filter_impl`.** -/
theorem filterImpl_spec (ev : CachedExprsEvaluator V F O) {filterExprs : List (Expr V F O)}
    (hfilter : ev.prunedFilterExprs = filterExprs.map (prunedPred order)) (hcached : ev.numCached = order.length)
    (hplain : ∀ e ∈ filterExprs, e.Plain) (batch : List (Row V))
    (hsafe : ∀ (i : ℕ) e, filterExprs[i]? = some e → e.safe S order (kept S (filterExprs.take i) batch) = true) :
    ∃ cache, filterImpl S ev batch (replicate ev.numCached none) = some (kept S filterExprs batch, cache) ∧
      (kept S filterExprs batch ≠ [] → CacheFits (kept S filterExprs batch).length
        (keyVals S order (kept S filterExprs batch)) order.length cache) := by
  have hempty : Filtered S order batch (fun _ => true) (replicate ev.numCached none) := by
    refine ⟨by rw [length_replicate, hcached], fun id c hc => ?_⟩
    rw [getElem?_replicate] at hc
    split at hc <;> cases hc
  have hall : batch.filter (fun _ => true) = batch := filter_eq_self.2 fun _ _ => rfl
  obtain ⟨stat, cache, hloop, hstat, hcache⟩ := filterLoop_spec hS hplain (by rwa [hall])
    (show FilterStat.allRetained.Says batch _ from fun _ _ => rfl) hempty
  simp only [Bool.true_and] at hstat hcache
  rw [filterImpl, hfilter, hloop, Option.map_some]
  cases stat with
  | allFiltered =>
    have hnone : kept S filterExprs batch = [] := filter_eq_nil_iff.2 fun row hrow => by simp [hstat row hrow]
    exact ⟨cache, by rw [hnone], fun h => absurd hnone h⟩
  | allRetained => exact ⟨cache, by rw [kept, filter_eq_self.2 hstat], fun _ => hcache (by simp)⟩
  | some selected =>
    obtain rfl : selected = _ := hstat
    exact ⟨cache, by dsimp only; rw [keep_map_self, kept], fun _ => hcache (by simp)⟩

lemma projectLoop_spec {exprs : List (Expr V F O)} (hplain : ∀ e ∈ exprs, e.Plain)
    (hsafe : ∀ e ∈ exprs, e.safe S order batch = true) (casts : List (V → V))
    (hcache : CacheFits batch.length (keyVals S order batch) order.length cache) :
    projectLoop S batch ((exprs.map (Expr.transform order)).zip casts) cache =
      some ((exprs.zip casts).map fun (e, cast) => batch.map fun row => cast (e.value S row)) := by
  induction exprs generalizing casts cache with
  | nil => rfl
  | cons e exprs ih =>
    cases casts with
    | nil => rfl
    | cons cast casts =>
      obtain ⟨hplain0, hplain⟩ := forall_mem_cons.1 hplain
      obtain ⟨hsafe0, hsafe⟩ := forall_mem_cons.1 hsafe
      obtain ⟨c, _, hev, hc, hcache'⟩ := evaluate_fits hS _ (transform_fits batch e hplain0 hsafe0) cache hcache
      rw [map_cons, zip_cons_cons, projectLoop, hev, Option.bind_some]
      dsimp only
      rw [ih hplain hsafe casts hcache', hc, Option.map_some, zip_cons_cons, map_cons, map_map]
      simp only [Function.comp_def, value_transform]

end Laws

/-- The order in which `try_new` numbers the duplicates. -/
def cacheOrder (numbering : List (Expr V F O) → List (Expr V F O)) (filterExprs projectionExprs : List (Expr V F O)) :
    List (Expr V F O) :=
  numbering (dups (filterExprs ++ projectionExprs))

/-- Functions on numbers: one that returns its first argument, and AND, with `0` for false and `1` for true. -/
def numberFunctions : Functions (Option ℕ) Unit Unit where
  null := none
  isTrue v := v == some 1
  isEq a b := a.isSome && a == b
  apply _ vs := vs.getD 0 none
  kernel _ n cs := .array ((range n).map fun r => (cs.map fun c => (c.intoArray n).getD r none).getD 0 none)
  combine _ a b := if a = some 0 ∨ b = some 0 then some 0 else if a = none ∨ b = none then none else some 1
  need _ vs := vs.map (· != some 0)

lemma numberFunctions_laws : numberFunctions.Laws where
  isTrue_null := rfl
  kernel _ _ _ _ := rfl
  length_need _ _ := length_map _
  need o vs r hr x := by
    have hget : vs[r]? = some (some 0) := by simpa [numberFunctions] using hr
    simp [numberFunctions, hget]

def ofColumn (index : ℕ) : Expr (Option ℕ) Unit Unit := .node (.func ()) (.cons (.column index) .nil)

/-- CASE of the first column, with the function of the second as its WHEN. -/
def caseOfBase : Expr (Option ℕ) Unit Unit :=
  .node (.case true 1 true)
    (.cons (.column 0) (.cons (ofColumn 1) (.cons (.literal (some 1)) (.cons (.literal (some 0)) .nil))))

end Auron.Eval
