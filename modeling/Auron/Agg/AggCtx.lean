import Auron.Io.Arrow

/-!
# Feeding a batch to the accumulators (`agg/agg_ctx.rs`)

`update_batch_slice_to_acc_table` goes through the aggregates and gives each of them two aligned lists: the accumulators to
update and the rows to update them with.  Without a FILTER these are the selection it was called with and the rows of the
range; with one they are built by `build_filtered_indices`, which reads the stored bits of the filter column.  The aggregates
that run in the JVM share the zipped list of the first of them that is called.

`updateBatchSlice_spec` says which bits decide for an aggregate (`deciding`).  The rows it is fed are those SQL asks for
precisely if these bits are the truth values of its own filter (`filter_follows_sql_iff`): a null slot with a set bit
(`null_row_is_fed`), or another filter on an earlier aggregate of the JVM, breaks it.
-/

namespace Auron.Agg

open Io List

/-! ### Selections -/

inductive IdxSelection where
  | single (idx : ℕ)
  | indices (idxs : List ℕ)
  | indicesU32 (idxs : List UInt32)
  | range (start stop : ℕ)
  deriving DecidableEq, Repr

namespace IdxSelection

/-- `idx_for`: the indices in order. -/
def toList : IdxSelection → List ℕ
  | single idx => [idx]
  | indices idxs => idxs
  | indicesU32 idxs => idxs.map UInt32.toNat
  | range start stop => range' start (stop - start)

/-- The accumulator of row `k` of the range; `none` where the index is behind the list. -/
def get? : IdxSelection → ℕ → Option ℕ
  | single idx, _ => some idx
  | indices idxs, k => idxs[k]?
  | indicesU32 idxs, k => idxs[k]?.map UInt32.toNat
  | range start _, k => some (start + k)

/-- The accumulator of row `k` of the range. -/
def accOf (sel : IdxSelection) (k : ℕ) : ℕ := (sel.get? k).getD 0

/-- The selection has an accumulator for each of `n` rows. -/
def Covers : IdxSelection → ℕ → Prop
  | single _, _ => True
  | indices idxs, n => idxs.length = n
  | indicesU32 idxs, n => idxs.length = n
  | range start stop, n => stop - start = n

def zipped : IdxSelection → IdxSelection → List (ℕ × ℕ)
  | single idx, other => other.toList.map fun j => (idx, j)
  | sel, single idx => sel.toList.map fun i => (i, idx)
  | sel, other => sel.toList.zip other.toList

lemma get?_eq {sel : IdxSelection} {n k : ℕ} (h : sel.Covers n) (hk : k < n) : sel.get? k = some (sel.accOf k) := by
  cases sel with
  | single idx => rfl
  | indices idxs =>
    rw [accOf, get?, getElem?_eq_getElem (hk.trans_eq h.symm)]
    rfl
  | indicesU32 idxs =>
    rw [accOf, get?, getElem?_eq_getElem (hk.trans_eq h.symm)]
    rfl
  | range start stop => rfl

end IdxSelection

open IdxSelection

/-! ### Filters -/

structure BooleanArray where
  values : BitBuffer
  nulls : Option BitBuffer

namespace BooleanArray

/-- `value`: the stored bit, whether the slot is null or not; `none` behind the end. -/
def value (a : BooleanArray) (i : ℕ) : Option Bool := if i < a.values.len then some (a.values.get i) else none

def isTrue (a : BooleanArray) (i : ℕ) : Bool := !nullAt a.nulls i && a.values.get i

end BooleanArray

/-- One round of the loops of `build_filtered_indices`, which differ in the accumulator they push. -/
def pushRow (sel : IdxSelection) (start : ℕ) (filter : BooleanArray) (filtered : List ℕ × List ℕ) (i : ℕ) :
    Option (List ℕ × List ℕ) :=
  (filter.value i).bind fun bit =>
    if bit then (sel.get? (i - start)).map fun acc => (filtered.1 ++ [acc], filtered.2 ++ [i])
    else some filtered

/-- `build_filtered_indices`: the accumulators and the rows. -/
def buildFilteredIndices (sel : IdxSelection) (start stop : ℕ) (filter : BooleanArray) : Option (List ℕ × List ℕ) :=
  (range' start (stop - start)).foldlM (pushRow sel start filter) ([], [])

/-- An aggregate in partial mode, with its filter evaluated on the batch; `udaf` for those that run in the JVM. -/
structure AggExpr where
  udaf : Bool
  filter : Option BooleanArray

/-- `partial_update` with a list of its own, or `partial_update_with_indices_cache`: the list an aggregate is called with,
and the cache after it. -/
def partialUpdate (udaf : Bool) (cache : Option (List (ℕ × ℕ))) (zipped : List (ℕ × ℕ)) :
    List (ℕ × ℕ) × Option (List (ℕ × ℕ)) :=
  if udaf then (cache.getD zipped, some (cache.getD zipped)) else (zipped, cache)

/-- What one aggregate is fed: pairs of an accumulator and a row. -/
def feed (sel : IdxSelection) (start stop : ℕ) (agg : AggExpr) (cache : Option (List (ℕ × ℕ))) :
    Option (List (ℕ × ℕ) × Option (List (ℕ × ℕ))) :=
  match agg.filter with
  | some filter =>
    (buildFilteredIndices sel start stop filter).map fun (filteredAcc, filteredInput) =>
      if filteredAcc.isEmpty then ([], cache)
      else partialUpdate agg.udaf cache (zipped (.indices filteredAcc) (.indices filteredInput))
  | none => some (partialUpdate agg.udaf cache (sel.zipped (.range start stop)))

/-- The loop of `update_batch_slice_to_acc_table` over the aggregates. -/
def feedAll (sel : IdxSelection) (start stop : ℕ) :
    List AggExpr → Option (List (ℕ × ℕ)) → Option (List (List (ℕ × ℕ)))
  | [], _ => some []
  | agg :: aggs, cache =>
    (feed sel start stop agg cache).bind fun (pairs, cache) =>
      (feedAll sel start stop aggs cache).map fun rest => pairs :: rest

/-- `update_batch_slice_to_acc_table`: what each aggregate is fed. -/
def updateBatchSlice (sel : IdxSelection) (start stop : ℕ) (aggs : List AggExpr) : Option (List (List (ℕ × ℕ))) :=
  feedAll sel start stop aggs none

/-! ### What is fed -/

/-- The rows of the range that a predicate picks, each with its accumulator. -/
def picked (sel : IdxSelection) (start stop : ℕ) (bit : ℕ → Bool) : List (ℕ × ℕ) :=
  ((range' start (stop - start)).filter bit).map fun i => (sel.accOf (i - start), i)

def AggExpr.bits (agg : AggExpr) (i : ℕ) : Bool := agg.filter.all fun filter => filter.values.get i

variable {sel : IdxSelection} {start stop : ℕ}

lemma picked_eq_iff {bit bit' : ℕ → Bool} :
    picked sel start stop bit = picked sel start stop bit' ↔ ∀ i, start ≤ i → i < stop → bit i = bit' i := by
  constructor
  · intro h i _ _
    have hrows := congrArg (map Prod.snd) h
    simp only [picked, map_map, Function.comp_def, map_id'] at hrows
    have hmem : i ∈ range' start (stop - start) := by
      rw [mem_range'_1]
      omega
    have hiff : i ∈ (range' start (stop - start)).filter bit ↔ i ∈ (range' start (stop - start)).filter bit' := by
      rw [hrows]
    simp only [mem_filter, hmem, true_and] at hiff
    exact Bool.eq_iff_iff.2 hiff
  · intro h
    rw [picked, picked, filter_congr]
    intro i hi
    rw [mem_range'_1] at hi
    exact h i hi.1 (by omega)

lemma buildFilteredIndices_eq (hsel : sel.Covers (stop - start)) {filter : BooleanArray}
    (hlen : stop ≤ filter.values.len) :
    buildFilteredIndices sel start stop filter =
      some ((picked sel start stop filter.values.get).map Prod.fst,
        (picked sel start stop filter.values.get).map Prod.snd) := by
  have hloop : ∀ (rows acc input : List ℕ), (∀ i ∈ rows, start ≤ i ∧ i < stop) →
      rows.foldlM (pushRow sel start filter) (acc, input) =
      some (acc ++ (rows.filter filter.values.get).map (fun i => sel.accOf (i - start)),
        input ++ rows.filter filter.values.get) := by
    intro rows
    induction rows with
    | nil => intro acc input _; simp
    | cons i rows ih =>
      intro acc input hrows
      obtain ⟨⟨_, _⟩, hrest⟩ := forall_mem_cons.1 hrows
      have hvalue : filter.value i = some (filter.values.get i) := if_pos (by omega)
      rw [foldlM_cons, pushRow, hvalue, Option.bind_some, filter_cons]
      cases hbit : filter.values.get i with
      | true =>
        rw [if_pos rfl, get?_eq hsel (by omega)]
        simpa using ih (acc ++ [sel.accOf (i - start)]) (input ++ [i]) hrest
      | false =>
        exact ih acc input hrest
  have hrows : ∀ i ∈ range' start (stop - start), start ≤ i ∧ i < stop := by
    intro i hi
    rw [mem_range'_1] at hi
    omega
  rw [buildFilteredIndices, hloop _ [] [] hrows]
  simp [picked, Function.comp_def]

lemma zipped_range (hsel : sel.Covers (stop - start)) :
    sel.zipped (.range start stop) = picked sel start stop fun _ => true := by
  have hrest : sel.toList.length = stop - start → (∀ k (hk : k < sel.toList.length), sel.toList[k] = sel.accOf k) →
      sel.toList.zip (range' start (stop - start)) = picked sel start stop fun _ => true := by
    intro hlen hget
    apply ext_getElem
    · simp [picked, hlen]
    · intro k hk _
      simp [picked, hget]
  cases sel with
  | single idx => simp [zipped, toList, picked, accOf, get?]
  | indices idxs =>
    refine hrest hsel fun k hk => ?_
    simp only [toList] at hk ⊢
    simp [accOf, get?, hk]
  | indicesU32 idxs =>
    refine hrest (by rw [toList, length_map]; exact hsel) fun k hk => ?_
    simp only [toList, length_map] at hk ⊢
    simp [accOf, get?, hk]
  | range b e =>
    refine hrest (by rw [toList, length_range']; exact hsel) fun k hk => ?_
    simp [toList, accOf, get?]

section Selection

variable (sel : IdxSelection)

variable (start stop : ℕ)

/-- Whether an aggregate is called: one with a filter that picks no row is not. -/
def AggExpr.called (agg : AggExpr) : Bool :=
  agg.filter.isNone || !(picked sel start stop agg.bits).isEmpty

/-- Whether an aggregate takes the list in the cache, or fills it. -/
def AggExpr.cached (agg : AggExpr) : Bool :=
  agg.udaf && agg.called sel start stop

/-- The bits that decide which rows an aggregate is fed: its own, or those of the first aggregate of the JVM that is
called. -/
def deciding (aggs : List AggExpr) (agg : AggExpr) : ℕ → Bool :=
  if agg.cached sel start stop then ((aggs.find? (AggExpr.cached sel start stop)).getD agg).bits else agg.bits

def cacheOf (aggs : List AggExpr) : Option (List (ℕ × ℕ)) :=
  (aggs.find? (AggExpr.cached sel start stop)).map fun agg => picked sel start stop agg.bits

end Selection

section Covered

variable (hsel : sel.Covers (stop - start))

include hsel

lemma feed_eq_partialUpdate {agg : AggExpr}
    (hlen : ∀ f ∈ agg.filter, stop ≤ f.values.len) (cache : Option (List (ℕ × ℕ))) :
    feed sel start stop agg cache =
      some (if agg.called sel start stop then partialUpdate agg.udaf cache (picked sel start stop agg.bits)
        else (picked sel start stop agg.bits, cache)) := by
  cases hfilter : agg.filter with
  | none =>
    have hbits : agg.bits = fun _ => true := by
      funext i
      simp [AggExpr.bits, hfilter]
    rw [feed, AggExpr.called, hfilter, hbits, zipped_range hsel]
    rfl
  | some filter =>
    have hbits : agg.bits = filter.values.get := by
      funext i
      simp [AggExpr.bits, hfilter]
    rw [feed, AggExpr.called, hfilter, hbits]
    dsimp only
    rw [buildFilteredIndices_eq hsel (hlen filter hfilter)]
    cases picked sel start stop filter.values.get with
    | nil => rfl
    | cons pair pairs =>
      have hzip : zipped (.indices ((pair :: pairs).map Prod.fst)) (.indices ((pair :: pairs).map Prod.snd)) =
          pair :: pairs := by
        exact (zip_of_prod rfl rfl).symm
      dsimp only [Option.map_some]
      rw [hzip]
      rfl

lemma feed_eq {agg : AggExpr} (hlen : ∀ f ∈ agg.filter, stop ≤ f.values.len) (before after : List AggExpr) :
    feed sel start stop agg (cacheOf sel start stop before) =
      some (picked sel start stop (deciding sel start stop (before ++ agg :: after) agg),
        cacheOf sel start stop (before ++ [agg])) := by
  have hfind : (before ++ agg :: after).find? (AggExpr.cached sel start stop) = _ := find?_append
  have hfind' : (before ++ [agg]).find? (AggExpr.cached sel start stop) = _ := find?_append
  rw [find?_cons] at hfind hfind'
  rw [feed_eq_partialUpdate hsel hlen, deciding, cacheOf, cacheOf, hfind, hfind']
  cases hcached : agg.cached sel start stop with
  | true =>
    obtain ⟨hudaf, hcalled⟩ := Bool.and_eq_true_iff.1 hcached
    rw [if_pos hcalled, partialUpdate, if_pos hudaf]
    cases before.find? (AggExpr.cached sel start stop) with
    | none => rfl
    | some first => rfl
  | false =>
    have hcache : (if agg.called sel start stop then
        partialUpdate agg.udaf (cacheOf sel start stop before) (picked sel start stop agg.bits)
        else (picked sel start stop agg.bits, cacheOf sel start stop before)) =
          (picked sel start stop agg.bits, cacheOf sel start stop before) := by
      split
      · next hcalled =>
        rw [AggExpr.cached, hcalled, Bool.and_true] at hcached
        rw [hcached]
        rfl
      · rfl
    rw [cacheOf] at hcache
    rw [hcache]
    simp

lemma feedAll_eq {aggs : List AggExpr}
    (hlen : ∀ agg ∈ aggs, ∀ f ∈ agg.filter, stop ≤ f.values.len) (before : List AggExpr) :
    feedAll sel start stop aggs (cacheOf sel start stop before) =
      some (aggs.map fun agg => picked sel start stop (deciding sel start stop (before ++ aggs) agg)) := by
  induction aggs generalizing before with
  | nil => rfl
  | cons agg aggs ih =>
    obtain ⟨hagg, haggs⟩ := forall_mem_cons.1 hlen
    rw [feedAll, feed_eq hsel hagg before aggs, Option.bind_some]
    dsimp only
    rw [ih haggs, Option.map_some, map_cons, append_assoc, singleton_append]

/-- **What the aggregates are fed**: each the rows of the range that its deciding bits pick, with the accumulators the
selection assigns to them. -/
theorem updateBatchSlice_spec {aggs : List AggExpr} (hlen : ∀ agg ∈ aggs, ∀ f ∈ agg.filter, stop ≤ f.values.len) :
    updateBatchSlice sel start stop aggs =
      some (aggs.map fun agg => picked sel start stop (deciding sel start stop aggs agg)) :=
  feedAll_eq hsel hlen []

/-- **FILTER follows SQL if and only if the bits that decide are the truth values of the filter.**  For an aggregate with a
filter, whatever the selection, the range and the other aggregates: it is fed exactly the rows of the range on which its
filter is not null and true, each to its accumulator, precisely if on every row of the range the deciding bit is that truth
value.  For an aggregate outside the JVM the deciding bit is the stored one, so that no null slot may have a set bit. -/
theorem filter_follows_sql_iff {aggs : List AggExpr}
    (hlen : ∀ agg ∈ aggs, ∀ f ∈ agg.filter, stop ≤ f.values.len) {j : ℕ} {agg : AggExpr} (hj : aggs[j]? = some agg)
    {filter : BooleanArray} (hfilter : agg.filter = some filter) :
    ∃ fed, updateBatchSlice sel start stop aggs = some fed ∧ fed.length = aggs.length ∧
      (fed[j]? = some (picked sel start stop filter.isTrue) ↔
        ∀ i, start ≤ i → i < stop → deciding sel start stop aggs agg i = filter.isTrue i) ∧
      (agg.udaf = false → ((∀ i, start ≤ i → i < stop → deciding sel start stop aggs agg i = filter.isTrue i) ↔
        ∀ i, start ≤ i → i < stop → nullAt filter.nulls i = true → filter.values.get i = false)) := by
  refine ⟨_, updateBatchSlice_spec hsel hlen, length_map _, ?_, ?_⟩
  · rw [getElem?_map, hj, Option.map_some, Option.some_inj, picked_eq_iff]
  · intro hudaf
    have hdeciding : deciding sel start stop aggs agg = filter.values.get := by
      funext i
      simp [deciding, AggExpr.cached, hudaf, AggExpr.bits, hfilter]
    rw [hdeciding]
    apply forall_congr'
    intro i
    refine imp_congr_right fun _ => imp_congr_right fun _ => ?_
    cases hnull : nullAt filter.nulls i <;> cases hbit : filter.values.get i <;> simp [BooleanArray.isTrue, hnull, hbit]

end Covered

/-- Three rows, true, false and null with a bit that is not set. -/
def trueFalseNull : BooleanArray := ⟨⟨[1], 0, 3⟩, some ⟨[3], 0, 3⟩⟩

/-- The row that is true goes to accumulator 7, to which the selection assigns it. -/
theorem filter_follows_sql_iff_clean : ∃ fed,
    updateBatchSlice (.indices [7, 8, 9]) 0 3 [⟨false, some trueFalseNull⟩] = some fed ∧ fed[0]? = some [(7, 0)] := by
  obtain ⟨fed, hfed, -, hiff, hclean⟩ := @filter_follows_sql_iff (.indices [7, 8, 9]) 0 3 rfl
    [⟨false, some trueFalseNull⟩] (by simp [trueFalseNull]) 0 _ rfl trueFalseNull rfl
  have hnulls : ∀ i, 0 ≤ i → i < 3 → nullAt trueFalseNull.nulls i = true → trueFalseNull.values.get i = false := by
    decide
  exact ⟨fed, hfed, hiff.2 ((hclean rfl).2 hnulls)⟩

/-- **A null row is fed.**  The filter of the only row is null, with a set bit under it. -/
theorem null_row_is_fed : updateBatchSlice (.range 0 1) 0 1 [⟨false, some ⟨⟨[1], 0, 1⟩, some ⟨[0], 0, 1⟩⟩⟩] =
    some [[(0, 0)]] ∧ BooleanArray.isTrue ⟨⟨[1], 0, 1⟩, some ⟨[0], 0, 1⟩⟩ 0 = false := by
  decide

end Auron.Agg
