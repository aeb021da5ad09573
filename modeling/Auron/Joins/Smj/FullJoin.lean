import Auron.Joins.Params
import Auron.Joins.Smj.Loops

/-!
# The inner and outer sort-merge join (`joins/smj/full_join.rs`)

`FullJoiner` walks over two streams sorted by their keys.  It does not copy rows: it notes pairs of indexes into the
batches the cursors buffer, the null row's index for a row that is extended, and `flush` gathers the rows of all pairs
noted so far.  A flush comes before a cursor drops batches, so that no noted index outlives its batch.

At equal keys both runs are followed in step until one ends.  The pairs of what was passed are noted, and the rest of
the longer run is streamed against the rows of the shorter one.

`Joined` is the invariant that ties the notes to rows: what was sent, and what the noted indexes point to, are the rows
joined so far.  `joiner` says what one round of the main loop adds to them: the join of a piece of both streams that
does not match the rest, and `join_spec` is the run.  The result (`FullJoiner.join_correct`) is about the keys that were
encoded: the rows sent are those of the relational join.
-/

namespace Auron.Joins.Smj

open Auron.Io Auron.Lib List
open Option (bind_eq_bind bind_some)

variable {α : Type} {lw rw : ℕ}

/-- `FullJoiner`, with the batches given to its sender. -/
structure FullJoiner (α : Type) where
  lindices : List Idx
  rindices : List Idx
  sent : List (List (List (Option α)))

namespace FullJoiner

def new : FullJoiner α := ⟨[], [], []⟩

def push (J : FullJoiner α) (lidx ridx : Idx) : FullJoiner α :=
  { J with lindices := J.lindices ++ [lidx], rindices := J.rindices ++ [ridx] }

section Steps

variable (p : JoinParams α lw rw)

def shouldFlush (J : FullJoiner α) : Bool := p.batchSize ≤ J.lindices.length

def hasEnoughRoom (J : FullJoiner α) (newSize : ℕ) : Bool :=
  J.lindices.length + newSize ≤ p.batchSize

/-- The output rows of gathered pairs.  With a residual condition the streams carry all columns, and the projection is
applied to what the condition selects; without one the streams come projected. -/
def outputRows (lrows : List (Row α lw)) (rrows : List (Row α rw)) : List (List (Option α)) :=
  match p.joinFilter with
  | some joinFilter =>
    let selected := zipWith joinFilter.evaluate lrows rrows
    zipWith (fun l r => p.projection.projectLeft l ++ p.projection.projectRight r)
      (filterSelected lrows selected) (filterSelected rrows selected)
  | none => zipWith (fun l r => l.toList ++ r.toList) lrows rrows

section Left

variable (c1 : StreamCursor (Row α lw))

section Right

variable (c2 : StreamCursor (Row α rw))

def flush (J : FullJoiner α) : Option (FullJoiner α) := do
  if J.lindices.length = J.rindices.length then
    let lrows ← gather₂ c1.batches J.lindices
    let rrows ← gather₂ c2.batches J.rindices
    some ⟨[], [], sendBatch J.sent (outputRows p lrows rrows)⟩
  else none

/-- Pairs noted one by one, with a flush whenever one is due. -/
def pushAggressive (J : FullJoiner α) (pairs : List (Idx × Idx)) : Option (FullJoiner α) :=
  pairs.foldlM (fun J pair =>
    let J := J.push pair.1 pair.2
    if J.shouldFlush p then J.flush p c1 c2 else some J) J

/-- The pairs of the runs passed so far, noted all at once if there is room for them. -/
def pushProduct (J : FullJoiner α) (equalLindices equalRindices : List Idx) : Option (FullJoiner α) :=
  if J.hasEnoughRoom p (equalLindices.length * equalRindices.length) then
    some ((equalLindices ×ˢ equalRindices).foldl (fun J pair => J.push pair.1 pair.2) J)
  else J.pushAggressive p c1 c2 (equalLindices ×ˢ equalRindices)

end Right

/-- The loop that streams the rest of the right run against the rows of the left one. -/
def streamRight (lKeyIdx : Idx) (equalLindices : List Idx)
    (J : FullJoiner α) (c2 : StreamCursor (Row α rw)) : Option (FullJoiner α × StreamCursor (Row α rw)) :=
  forwardWhile (fun c2 => do some ((← c2.curKey) = (← c1.key lKeyIdx)))
    (fun J ridx => equalLindices.foldl (fun J lidx => J.push lidx ridx) J)
    (fun J c2 => do
      if J.shouldFlush p || 1 < c2.numBufferedBatches then some (← J.flush p c1 c2, c2.cleanOutDatedBatches)
      else some (J, c2))
    (c2.rowsBound + 1) J c2

end Left

/-- The loop that streams the rest of the left run against the rows of the right one. -/
def streamLeft (c2 : StreamCursor (Row α rw)) (rKeyIdx : Idx) (equalRindices : List Idx)
    (J : FullJoiner α) (c1 : StreamCursor (Row α lw)) : Option (FullJoiner α × StreamCursor (Row α lw)) :=
  forwardWhile (fun c1 => do some ((← c1.curKey) = (← c2.key rKeyIdx)))
    (fun J lidx => equalRindices.foldl (fun J ridx => J.push lidx ridx) J)
    (fun J c1 => do
      if J.shouldFlush p || 1 < c1.numBufferedBatches then some (← J.flush p c1 c2, c1.cleanOutDatedBatches)
      else some (J, c1))
    (c1.rowsBound + 1) J c1

def joinEqual (J : FullJoiner α) (c1 : StreamCursor (Row α lw)) (c2 : StreamCursor (Row α rw)) :
    Option (FullJoiner α × StreamCursor (Row α lw) × StreamCursor (Row α rw)) := do
  let lKeyIdx := c1.curIdx
  let rKeyIdx := c2.curIdx
  let c1 ← c1.next
  let c2 ← c2.next
  let ((equalLindices, equalRindices), c1, c2, lEqual, rEqual) ←
    scanEqual (fun s i => (s.1 ++ [i], s.2)) (fun s i => (s.1, s.2 ++ [i])) lKeyIdx rKeyIdx
      (c1.rowsBound + 1) ([lKeyIdx], [rKeyIdx]) c1 c2
  if ¬(1 < equalLindices.length ∨ 1 < equalRindices.length) then some (J.push lKeyIdx rKeyIdx, c1, c2)
  else
    let J ← J.pushProduct p c1 c2 equalLindices equalRindices
    let (J, c2) ← if rEqual then J.streamRight p c1 lKeyIdx equalLindices c2 else some (J, c2)
    let (J, c1) ← if lEqual then J.streamLeft p c2 rKeyIdx equalRindices c1 else some (J, c1)
    some (J, c1, c2)

def flushBeforeRound (J : FullJoiner α) (c1 : StreamCursor (Row α lw)) (c2 : StreamCursor (Row α rw)) :
    Option (FullJoiner α × StreamCursor (Row α lw) × StreamCursor (Row α rw)) := do
  if J.shouldFlush p || 1 < c1.numBufferedBatches || 1 < c2.numBufferedBatches then
    some (← J.flush p c1 c2, c1.cleanOutDatedBatches, c2.cleanOutDatedBatches)
  else some (J, c1, c2)

end Steps

def joinStep (lOuter rOuter : Bool) (p : JoinParams α lw rw) (J : FullJoiner α) (c1 : StreamCursor (Row α lw))
    (c2 : StreamCursor (Row α rw)) :
    Option (FullJoiner α × StreamCursor (Row α lw) × StreamCursor (Row α rw)) := do
  let (J, c1, c2) ← J.flushBeforeRound p c1 c2
  match ← compareCursor c1 c2 with
  | .lt => some (if lOuter then J.push c1.curIdx (0, 0) else J, ← c1.next, c2)
  | .gt => some (if rOuter then J.push (0, 0) c2.curIdx else J, c1, ← c2.next)
  | .eq => J.joinEqual p c1 c2

def joinLoop (lOuter rOuter : Bool) (p : JoinParams α lw rw) :
    ℕ → FullJoiner α → StreamCursor (Row α lw) → StreamCursor (Row α rw) →
    Option (FullJoiner α × StreamCursor (Row α lw) × StreamCursor (Row α rw))
  | 0, _, _, _ => none
  | rounds + 1, J, c1, c2 => do
    if c1.finished || c2.finished then some (J, c1, c2)
    else
      let (J, c1, c2) ← J.joinStep lOuter rOuter p c1 c2
      joinLoop lOuter rOuter p rounds J c1 c2

def flushAfterLoop (p : JoinParams α lw rw) (J : FullJoiner α) (c1 : StreamCursor (Row α lw))
    (c2 : StreamCursor (Row α rw)) :
    Option (FullJoiner α × StreamCursor (Row α lw) × StreamCursor (Row α rw)) := do
  if J.lindices ≠ [] then some (← J.flush p c1 c2, c1.cleanOutDatedBatches, c2.cleanOutDatedBatches)
  else some (J, c1, c2)

/-- `while L_OUTER && !cur1.finished() { .. }`. -/
def consumeLeft (lOuter : Bool) (p : JoinParams α lw rw) (c2 : StreamCursor (Row α rw)) (J : FullJoiner α)
    (c1 : StreamCursor (Row α lw)) : Option (FullJoiner α × StreamCursor (Row α lw)) :=
  forwardWhile (fun _ => some lOuter) (fun J lidx => J.push lidx (0, 0))
    (fun J c1 => do if J.shouldFlush p then some (← J.flush p c1 c2, c1.cleanOutDatedBatches) else some (J, c1))
    (c1.rowsBound + 1) J c1

/-- `while R_OUTER && !cur2.finished() { .. }`. -/
def consumeRight (rOuter : Bool) (p : JoinParams α lw rw) (c1 : StreamCursor (Row α lw)) (J : FullJoiner α)
    (c2 : StreamCursor (Row α rw)) : Option (FullJoiner α × StreamCursor (Row α rw)) :=
  forwardWhile (fun _ => some rOuter) (fun J ridx => J.push (0, 0) ridx)
    (fun J c2 => do if J.shouldFlush p then some (← J.flush p c1 c2, c2.cleanOutDatedBatches) else some (J, c2))
    (c2.rowsBound + 1) J c2

def join (lOuter rOuter : Bool) (p : JoinParams α lw rw) (J : FullJoiner α) (c1 : StreamCursor (Row α lw))
    (c2 : StreamCursor (Row α rw)) : Option (FullJoiner α) := do
  let (J, c1, c2) ← J.joinLoop lOuter rOuter p (c1.rowsBound + c2.rowsBound + 1) c1 c2
  let (J, c1, c2) ← J.flushAfterLoop p c1 c2
  let (J, c1) ← J.consumeLeft lOuter p c2 c1
  let (J, c2) ← J.consumeRight rOuter p c1 c2
  if J.lindices ≠ [] then J.flush p c1 c2 else some J

/-- What `execute_join` does with the joiner: both cursors are moved to their first row, then `join` runs. -/
def executeJoin (lOuter rOuter : Bool) (p : JoinParams α lw rw) (hasNulls : Bytes → Bool)
    (left : List (List (Bytes × Row α lw))) (right : List (List (Bytes × Row α rw))) : Option (FullJoiner α) := do
  let c1 ← (StreamCursor.tryNew left hasNulls (Row.null α lw)).next
  let c2 ← (StreamCursor.tryNew right hasNulls (Row.null α rw)).next
  new.join lOuter rOuter p c1 c2

/-! ### The invariant -/

/-- What a noted index stands for: a buffered row, or the null row. -/
def Ref {ρ : Type} (buf : List (List (Bytes × ρ))) (idx : Idx) : Option (Bytes × ρ) → Prop
  | some x => At buf idx x
  | none => idx = (0, 0)

lemma Ref.mono {ρ : Type} {buf buf' : List (List (Bytes × ρ))} {idx : Idx} {o : Option (Bytes × ρ)}
    (h : Ref buf idx o) (hpre : buf <+: buf') : Ref buf' idx o := by
  cases o with
  | none => exact h
  | some x => exact At.mono h hpre

/-- A pair of joined rows; `none` is a side that is extended. -/
abbrev Pair (α : Type) (lw rw : ℕ) := Option (Bytes × Row α lw) × Option (Bytes × Row α rw)

section Output

variable (p : JoinParams α lw rw)

/-- The output row of a pair of rows, if the residual condition selects it. -/
def outputRow (l : Row α lw) (r : Row α rw) : Option (List (Option α)) :=
  if p.selects l r then some (p.joinedRow l r) else none

def emitted (pairs : List (Pair α lw rw)) : List (List (Option α)) :=
  pairs.filterMap fun pair => outputRow p (sideRow pair.1) (sideRow pair.2)

/-- The pairs `out` are joined, in some order: the first of them sent, the rest noted by index. -/
structure Joined (buf1 : List (List (Bytes × Row α lw))) (buf2 : List (List (Bytes × Row α rw)))
    (J : FullJoiner α) (out : List (Pair α lw rw)) : Prop where
  intro ::
  split : ∃ done pend, (done ++ pend).Perm out ∧ J.sent.flatten = emitted p done ∧
    Forall₂ (Ref buf1) J.lindices (pend.map Prod.fst) ∧ Forall₂ (Ref buf2) J.rindices (pend.map Prod.snd)

end Output

section Joined

variable {p : JoinParams α lw rw} {buf1 buf1' : List (List (Bytes × Row α lw))}
  {buf2 buf2' : List (List (Bytes × Row α rw))} {J : FullJoiner α} {out : List (Pair α lw rw)}
  {hasNulls : Bytes → Bool} {c1 : StreamCursor (Row α lw)} {c2 : StreamCursor (Row α rw)}
  {L : List (Bytes × Row α lw)} {R : List (Bytes × Row α rw)}

lemma joined_new : Joined p buf1 buf2 (new : FullJoiner α) [] := ⟨[], [], .nil, rfl, .nil, .nil⟩

lemma Joined.perm {out' : List (Pair α lw rw)} (h : Joined p buf1 buf2 J out) (hperm : out.Perm out') :
    Joined p buf1 buf2 J out' := by
  obtain ⟨done, pend, hout, hrest⟩ := h.split
  exact ⟨done, pend, hout.trans hperm, hrest⟩

lemma Joined.mono (h : Joined p buf1 buf2 J out) (h1 : buf1 <+: buf1') (h2 : buf2 <+: buf2') :
    Joined p buf1' buf2' J out := by
  obtain ⟨done, pend, hout, hsent, hl, hr⟩ := h.split
  exact ⟨done, pend, hout, hsent, hl.imp fun _ _ h => h.mono h1, hr.imp fun _ _ h => h.mono h2⟩

lemma Joined.push (h : Joined p buf1 buf2 J out) {lidx ridx : Idx} {l : Option (Bytes × Row α lw)}
    {r : Option (Bytes × Row α rw)} (hl : Ref buf1 lidx l) (hr : Ref buf2 ridx r) :
    Joined p buf1 buf2 (J.push lidx ridx) (out ++ [(l, r)]) := by
  obtain ⟨done, pend, hout, hsent, hls, hrs⟩ := h.split
  refine ⟨done, pend ++ [(l, r)], by simpa using hout.append_right [(l, r)], hsent, ?_, ?_⟩
  · rw [map_append]
    exact rel_append hls (.cons hl .nil)
  · rw [map_append]
    exact rel_append hrs (.cons hr .nil)

/-! ### Flushing -/

lemma outputRows_eq (lrows : List (Row α lw)) (rrows : List (Row α rw)) :
    outputRows p lrows rrows = (lrows.zip rrows).filterMap fun lr => outputRow p lr.1 lr.2 := by
  unfold outputRows outputRow JoinParams.selects JoinParams.joinedRow
  cases p.joinFilter with
  | some joinFilter => exact zipWith_filterSelected _ _ _ _
  | none => simp [zip]

lemma gather_refs {w : ℕ} {buf : List (List (Bytes × Row α w))} {c : StreamCursor (Row α w)}
    {rem : List (Bytes × Row α w)} {idxs : List Idx} {os : List (Option (Bytes × Row α w))}
    (h : Rep hasNulls (Row.null α w) c buf rem) (hrefs : Forall₂ (Ref buf) idxs os) :
    gather₂ c.batches idxs = some (os.map sideRow) := by
  rw [gather₂_eq_some_iff, forall₂_map_right_iff]
  refine hrefs.imp fun idx o href => ?_
  cases o with
  | none =>
    rw [show idx = (0, 0) from href]
    exact h.row_null
  | some x => exact h.row_at href

/-- **A flush sends the noted pairs and forgets their indexes**; the joined pairs stay the same. -/
theorem Joined.flush (h : Joined p buf1 buf2 J out) (h1 : Rep hasNulls (Row.null α lw) c1 buf1 L)
    (h2 : Rep hasNulls (Row.null α rw) c2 buf2 R) :
    ∃ J', J.flush p c1 c2 = some J' ∧ J'.sent.flatten.Perm (emitted p out) ∧
      ∀ buf1' buf2', Joined p buf1' buf2' J' out := by
  obtain ⟨done, pend, hout, hsent, hl, hr⟩ := h.split
  have hlen : J.lindices.length = J.rindices.length := by
    rw [hl.length_eq, hr.length_eq, length_map, length_map]
  have hrows : outputRows p ((pend.map Prod.fst).map sideRow) ((pend.map Prod.snd).map sideRow) = emitted p pend := by
    have hzip : (pend.map Prod.fst).zip (pend.map Prod.snd) = pend := (zip_of_prod rfl rfl).symm
    rw [outputRows_eq, zip_map, filterMap_map, hzip]
    rfl
  have hflat : (sendBatch J.sent (emitted p pend)).flatten = emitted p (done ++ pend) := by
    rw [flatten_sendBatch, hsent]
    exact filterMap_append.symm
  refine ⟨⟨[], [], sendBatch J.sent (emitted p pend)⟩, ?_, hflat ▸ hout.filterMap _,
    fun _ _ => ⟨done ++ pend, [], by simpa using hout, hflat, .nil, .nil⟩⟩
  simp only [FullJoiner.flush, hlen, if_true, gather_refs h1 hl, gather_refs h2 hr, bind_eq_bind, bind_some, hrows]

/-- The invariant, with what the loops need of it. -/
@[reducible] def notes (hasNulls : Bytes → Bool) (p : JoinParams α lw rw) :
    Notes (Row α lw) (Row α rw) (FullJoiner α) (Pair α lw rw) where
  hasNulls := hasNulls
  nullRow₁ := Row.null α lw
  nullRow₂ := Row.null α rw
  flush J c1 c2 := J.flush p c1 c2
  Inv buf1 buf2 J out := Joined p buf1 buf2 J out
  mono := Joined.mono
  flush_spec h h1 h2 := by
    obtain ⟨J', hflush, -, hJ'⟩ := h.flush h1 h2
    exact ⟨J', hflush, hJ'⟩

/-! ### Runs of equal keys -/

def RefPair (buf1 : List (List (Bytes × Row α lw))) (buf2 : List (List (Bytes × Row α rw))) (ij : Idx × Idx)
    (lr : Pair α lw rw) : Prop := Ref buf1 ij.1 lr.1 ∧ Ref buf2 ij.2 lr.2

variable {il ir : List Idx} {xs : List (Bytes × Row α lw)} {ys : List (Bytes × Row α rw)}

lemma refPair_product (hl : Forall₂ (At buf1) il xs) (hr : Forall₂ (At buf2) ir ys) :
    Forall₂ (RefPair buf1 buf2) (il ×ˢ ir) (allPairs xs ys) := by
  refine rel_flatMap hl fun i x hx => ?_
  rw [forall₂_map_left_iff, forall₂_map_right_iff]
  exact hr.imp fun j y hy => ⟨hx, hy⟩

lemma Joined.foldl_push {ijs : List (Idx × Idx)} {lrs : List (Pair α lw rw)}
    (hrefs : Forall₂ (RefPair buf1 buf2) ijs lrs) (h : Joined p buf1 buf2 J out) :
    Joined p buf1 buf2 (ijs.foldl (fun J ij => J.push ij.1 ij.2) J) (out ++ lrs) := by
  induction hrefs generalizing J out with
  | nil => simpa using h
  | cons href _ ih =>
    rw [append_cons]
    exact ih (h.push href.1 href.2)

variable {y : Bytes × Row α rw}

lemma Joined.foldl_push_left {ridx : Idx} (h : Joined p buf1 buf2 J out) (hl : Forall₂ (At buf1) il xs)
    (hr : At buf2 ridx y) :
    Joined p buf1 buf2 (il.foldl (fun J lidx => J.push lidx ridx) J) (out ++ allPairs xs [y]) := by
  have hrefs : Forall₂ (RefPair buf1 buf2) (il.map fun lidx => (lidx, ridx)) (allPairs xs [y]) := by
    rw [allPairs_singleton_right, forall₂_map_left_iff, forall₂_map_right_iff]
    exact hl.imp fun i x hx => ⟨hx, hr⟩
  simpa only [foldl_map] using h.foldl_push hrefs

variable {x : Bytes × Row α lw}

lemma Joined.foldl_push_right {lidx : Idx} (h : Joined p buf1 buf2 J out) (hl : At buf1 lidx x)
    (hr : Forall₂ (At buf2) ir ys) :
    Joined p buf1 buf2 (ir.foldl (fun J ridx => J.push lidx ridx) J) (out ++ allPairs [x] ys) := by
  have hrefs : Forall₂ (RefPair buf1 buf2) (ir.map fun ridx => (lidx, ridx)) (allPairs [x] ys) := by
    rw [allPairs, flatMap_singleton, forall₂_map_left_iff, forall₂_map_right_iff]
    exact hr.imp fun j y hy => ⟨hl, hy⟩
  simpa only [foldl_map] using h.foldl_push hrefs

section Reps

variable (h : Joined p buf1 buf2 J out) (h1 : Rep hasNulls (Row.null α lw) c1 buf1 L)
  (h2 : Rep hasNulls (Row.null α rw) c2 buf2 R)

include h h1 h2

lemma Joined.pushAggressive {ijs : List (Idx × Idx)} {lrs : List (Pair α lw rw)}
    (hrefs : Forall₂ (RefPair buf1 buf2) ijs lrs) :
    ∃ J', J.pushAggressive p c1 c2 ijs = some J' ∧ Joined p buf1 buf2 J' (out ++ lrs) := by
  induction hrefs generalizing J out with
  | nil => exact ⟨J, rfl, by simpa using h⟩
  | @cons ij lr ijs lrs href _ ih =>
    have hpush := h.push href.1 href.2
    have hstep : ∃ J', (if (J.push ij.1 ij.2).shouldFlush p then (J.push ij.1 ij.2).flush p c1 c2
        else some (J.push ij.1 ij.2)) = some J' ∧ Joined p buf1 buf2 J' (out ++ [lr]) := by
      split
      · obtain ⟨J', hflush, -, hJ'⟩ := hpush.flush h1 h2
        exact ⟨J', hflush, hJ' _ _⟩
      · exact ⟨_, rfl, hpush⟩
    obtain ⟨_, hJ1, hjoined⟩ := hstep
    obtain ⟨J2, hJ2, _⟩ := ih hjoined
    refine ⟨J2, ?_, by rwa [append_cons]⟩
    unfold FullJoiner.pushAggressive at hJ2 ⊢
    exact (congrArg (· >>= _) hJ1).trans hJ2

lemma Joined.pushProduct (hl : Forall₂ (At buf1) il xs) (hr : Forall₂ (At buf2) ir ys) :
    ∃ J', J.pushProduct p c1 c2 il ir = some J' ∧ Joined p buf1 buf2 J' (out ++ allPairs xs ys) := by
  unfold FullJoiner.pushProduct
  split
  · exact ⟨_, rfl, h.foldl_push (refPair_product hl hr)⟩
  · exact h.pushAggressive h1 h2 (refPair_product hl hr)

lemma streamRight_spec {lKeyIdx : Idx} (hx : At buf1 lKeyIdx x) (hl : Forall₂ (At buf1) il xs) :
    ∃ J' c2' buf2', J.streamRight p c1 lKeyIdx il c2 = some (J', c2') ∧
      Rep hasNulls (Row.null α rw) c2' buf2' (R.dropWhile fun z => z.1 = x.1) ∧
      Joined p buf1 buf2' J' (out ++ allPairs xs (R.takeWhile fun z => z.1 = x.1)) := by
  refine (notes hasNulls p).swap.forward (fun ys => out ++ allPairs xs ys) h2 h1 (by simpa using h)
    (fun hz => ?_) (fun hJ hy => ?_)
  · simp [hz.curKey_eq, h1.key_at hx]
  · refine (hJ.foldl_push_left hl hy).perm ?_
    rw [append_assoc]
    exact Perm.append_left _ (allPairs_append_right xs _ _).symm

lemma streamLeft_spec {rKeyIdx : Idx} (hy : At buf2 rKeyIdx y) (hr : Forall₂ (At buf2) ir ys) :
    ∃ J' c1' buf1', J.streamLeft p c2 rKeyIdx ir c1 = some (J', c1') ∧
      Rep hasNulls (Row.null α lw) c1' buf1' (L.dropWhile fun z => z.1 = y.1) ∧
      Joined p buf1' buf2 J' (out ++ allPairs (L.takeWhile fun z => z.1 = y.1) ys) := by
  refine (notes hasNulls p).forward (fun xs => out ++ allPairs xs ys) h1 h2 (by simpa [allPairs] using h)
    (fun hz => ?_) (fun hJ hx => ?_)
  · simp [hz.curKey_eq, h2.key_at hy]
  · rw [allPairs_append_left, ← append_assoc]
    exact hJ.foldl_push_right hx hr

end Reps

lemma foldl_scan (l r il ir : List Idx) :
    ir.foldl (fun s i => (s.1, s.2 ++ [i])) (il.foldl (fun (s : List Idx × List Idx) i => (s.1 ++ [i], s.2)) (l, r)) =
      (l ++ il, r ++ ir) := by
  have hl : ∀ l, il.foldl (fun (s : List Idx × List Idx) i => (s.1 ++ [i], s.2)) (l, r) = (l ++ il, r) := by
    induction il with
    | nil => simp
    | cons i il ih => simp [ih]
  have hr : ∀ l r, ir.foldl (fun (s : List Idx × List Idx) i => (s.1, s.2 ++ [i])) (l, r) = (l, r ++ ir) := by
    induction ir with
    | nil => simp
    | cons i ir ih => simp [ih]
  rw [hl, hr]

/-- **At equal keys** the runs of the key on both sides are passed and all their pairs are joined. -/
theorem joinEqual_spec (h : Joined p buf1 buf2 J out) (h1 : Rep hasNulls (Row.null α lw) c1 buf1 (x :: L))
    (h2 : Rep hasNulls (Row.null α rw) c2 buf2 (y :: R)) (hxy : x.1 = y.1) :
    ∃ J' c1' c2' runL L' runR R', J.joinEqual p c1 c2 = some (J', c1', c2') ∧
      (notes hasNulls p).Holds J' c1' c2' L' R' (out ++ allPairs (x :: runL) (y :: runR)) ∧
      FrontRun x.1 (x :: L) (x :: runL) L' ∧ FrontRun x.1 (y :: R) (y :: runR) R' := by
  obtain ⟨c1', _, hn1, hp1⟩ := Passed.next h1 rfl
  obtain ⟨_, _, hn2, hp2⟩ := Passed.next h2 hxy.symm
  obtain ⟨c1'', c2'', buf1'', buf2'', L', R', runL, runR, il, ir, lEqual, rEqual, hscan, hl, hr, hlt, hrt, hlf, hrf, hne⟩ :=
    scanEqual_spec (fun (s : List Idx × List Idx) i => (s.1 ++ [i], s.2)) (fun s i => (s.1, s.2 ++ [i])) (by simp) hxy
      (c1'.rowsBound + 1) ([c1.curIdx], [c2.curIdx]) hp1.rep hp2.rep (h1.at_cur.mono hp1.buf) (h2.at_cur.mono hp2.buf)
      (Nat.lt_succ_of_le hp1.rep.length_le)
  rw [foldl_scan, singleton_append, singleton_append] at hscan
  -- what was passed on either side, the current rows included
  have hpl := hp1.trans hl
  have hpr := hp2.trans hr
  rw [singleton_append, singleton_append] at hpl hpr
  have hx : At buf1'' c1.curIdx x := (forall₂_cons.1 hpl.idxs).1
  have hy : At buf2'' c2.curIdx y := (forall₂_cons.1 hpr.idxs).1
  have hJ := h.mono hpl.buf hpr.buf
  unfold joinEqual
  simp only [hn1, hn2, hscan, bind_eq_bind, bind_some, length_cons]
  by_cases hmulti : 1 < il.length + 1 ∨ 1 < ir.length + 1
  · rw [if_neg (not_not_intro hmulti)]
    obtain ⟨J1, hJ1, hjoined⟩ := hJ.pushProduct hpl.rep hpr.rep hpl.idxs hpr.idxs
    simp only [hJ1]
    cases rEqual with
    | true =>
      have hlEqual : lEqual = false := by simpa using hne
      subst hlEqual
      obtain ⟨J', cR, bufR, hrun, hrep, hJ'⟩ := streamRight_spec hjoined hpl.rep hpr.rep hx hpl.idxs
      refine ⟨J', c1'', cR, runL, L', runR ++ R'.takeWhile (fun z => z.1 = x.1), _, by simp [hrun],
        ⟨buf1'', bufR, hpl.rep, hrep, hJ'.perm ?_⟩, hpl.frontRun (hlf rfl), hpr.frontRun_takeWhile⟩
      rw [append_assoc]
      exact Perm.append_left _ (allPairs_append_right _ _ _).symm
    | false =>
      cases lEqual with
      | true =>
        obtain ⟨J', cL, bufL, hrun, hrep, hJ'⟩ :=
          streamLeft_spec hjoined hpl.rep hpr.rep hy hpr.idxs
        rw [← hxy] at hrep hJ'
        refine ⟨J', cL, c2'', runL ++ L'.takeWhile (fun z => z.1 = x.1), _, runR, R', by simp [hrun],
          ⟨bufL, buf2'', hrep, hpr.rep, ?_⟩, hpl.frontRun_takeWhile, hpr.frontRun (hrf rfl)⟩
        rwa [← cons_append, allPairs_append_left, ← append_assoc]
      | false =>
        exact ⟨J1, c1'', c2'', runL, L', runR, R', rfl, ⟨buf1'', buf2'', hpl.rep, hpr.rep, hjoined⟩,
          hpl.frontRun (hlf rfl), hpr.frontRun (hrf rfl)⟩
  · -- one row on either side: then neither run goes on
    have hil : il = [] := length_eq_zero_iff.1 (by omega)
    have hir : ir = [] := length_eq_zero_iff.1 (by omega)
    subst hil hir
    have hrunL : runL = [] := forall₂_nil_left_iff.1 hl.idxs
    have hrunR : runR = [] := forall₂_nil_left_iff.1 hr.idxs
    subst hrunL hrunR
    refine ⟨_, c1'', c2'', [], L', [], R', rfl, ⟨buf1'', buf2'', hpl.rep, hpr.rep, hJ.push (l := some x) (r := some y)
      hx hy⟩, hpl.frontRun (hlf ?_), hpr.frontRun (hrf ?_)⟩
    · simpa using hlt
    · simpa using hrt

/-! ### The run -/

@[reducible] def joiner (lOuter rOuter : Bool) (hasNulls : Bytes → Bool) (p : JoinParams α lw rw) :
    MergeJoiner (Row α lw) (Row α rw) (FullJoiner α) (Pair α lw rw) where
  toNotes := notes hasNulls p
  due J c1 c2 := J.shouldFlush p || 1 < c1.numBufferedBatches || 1 < c2.numBufferedBatches
  onLt J lidx := if lOuter then J.push lidx (0, 0) else J
  onGt J ridx := if rOuter then J.push (0, 0) ridx else J
  equal J c1 c2 := J.joinEqual p c1 c2
  join := outerJoin lOuter rOuter (keyMatch hasNulls)
  join_nil := by simp [outerJoin_nil_right]
  join_append h1 h2 h := h.perm (outerJoin_append lOuter rOuter h1 h2).symm
  onLt_spec h hx := by
    rw [outerJoin_nil_right]
    cases lOuter with
    | true => exact h.push hx rfl
    | false => simpa using h
  onGt_spec h hy := by
    rw [outerJoin_nil_left]
    cases rOuter with
    | true => exact h.push rfl hy
    | false => simpa using h
  equal_spec h h1 h2 hxy hnull := by
    obtain ⟨J', c1', c2', runL, L', runR, R', heq, hJ', hl, hr⟩ := joinEqual_spec h h1 h2 hxy
    refine ⟨J', c1', c2', runL, L', runR, R', heq, ?_, hl, hr⟩
    rwa [outerJoin_together lOuter rOuter (together_of_keys_eq hnull hl.keys hr.keys) (by simp) (by simp)]

lemma consumeLeft_spec (lOuter : Bool) (h : (notes hasNulls p).Holds J c1 c2 L R out) :
    ∃ J' c1' L', J.consumeLeft lOuter p c2 c1 = some (J', c1') ∧
      (notes hasNulls p).Holds J' c1' c2 L' R (out ++ if lOuter then L.map (fun x => (some x, none)) else []) := by
  obtain ⟨_, buf2, h1, h2, hJ⟩ := h
  obtain ⟨J', c1', buf1', hrun, hrep, hJ'⟩ : ∃ J' c1' buf1', J.consumeLeft lOuter p c2 c1 = some (J', c1') ∧ _ := by
    refine (notes hasNulls p).forward (fun xs => out ++ xs.map fun x => (some x, none)) h1 h2 (by simpa using hJ)
      (fun _ => rfl) (fun hJ hx => ?_)
    rw [map_append, ← append_assoc]
    exact hJ.push hx rfl
  refine ⟨J', c1', _, hrun, buf1', buf2, hrep, h2, ?_⟩
  rw [takeWhile_const] at hJ'
  cases lOuter with
  | true => exact hJ'
  | false => exact hJ'

lemma consumeRight_spec (rOuter : Bool) (h : (notes hasNulls p).Holds J c1 c2 L R out) :
    ∃ J' c2' R', J.consumeRight rOuter p c1 c2 = some (J', c2') ∧
      (notes hasNulls p).Holds J' c1 c2' L R' (out ++ if rOuter then R.map (fun y => (none, some y)) else []) := by
  obtain ⟨buf1, _, h1, h2, hJ⟩ := h
  obtain ⟨J', c2', buf2', hrun, hrep, hJ'⟩ : ∃ J' c2' buf2', J.consumeRight rOuter p c1 c2 = some (J', c2') ∧ _ := by
    refine (notes hasNulls p).swap.forward (fun ys => out ++ ys.map fun y => (none, some y)) h2 h1 (by simpa using hJ)
      (fun _ => rfl) (fun hJ hy => ?_)
    rw [map_append, ← append_assoc]
    exact hJ.push rfl hy
  refine ⟨J', c2', _, hrun, buf1, buf2', h1, hrep, ?_⟩
  rw [takeWhile_const] at hJ'
  cases rOuter with
  | true => exact hJ'
  | false => exact hJ'

lemma lastFlush_spec (h : (notes hasNulls p).Holds J c1 c2 L R out) :
    ∃ J', (if J.lindices ≠ [] then J.flush p c1 c2 else some J) = some J' ∧ J'.sent.flatten.Perm (emitted p out) := by
  obtain ⟨_, _, h1, h2, hJ⟩ := h
  by_cases hl : J.lindices = []
  · obtain ⟨_, _, hout, hsent, hrefs, -⟩ := hJ.split
    rw [hl, forall₂_nil_left_iff, map_eq_nil_iff] at hrefs
    rw [hrefs, append_nil] at hout
    exact ⟨J, by simp [hl], hsent ▸ hout.filterMap _⟩
  · obtain ⟨J', hflush, hsent, -⟩ := hJ.flush h1 h2
    exact ⟨J', by rw [if_pos hl, hflush], hsent⟩

/-- **`join`** sends the rows of the join of what the cursors hold. -/
theorem join_spec (lOuter rOuter : Bool) (h1 : Rep hasNulls (Row.null α lw) c1 buf1 L)
    (h2 : Rep hasNulls (Row.null α rw) c2 buf2 R) (hL : SortedByKey L) (hR : SortedByKey R) :
    ∃ J', (new : FullJoiner α).join lOuter rOuter p c1 c2 = some J' ∧
      J'.sent.flatten.Perm (emitted p (outerJoin lOuter rOuter (keyMatch hasNulls) L R)) := by
  have hnew : (joiner lOuter rOuter hasNulls p).Before L R (new : FullJoiner α) c1 c2 [] L [] R :=
    ⟨⟨buf1, buf2, h1, h2, (joiner lOuter rOuter hasNulls p).join_nil ▸ joined_new⟩, rfl, rfl, by simp [Apart],
      by simp [Apart]⟩
  obtain ⟨J1, c11, c21, _, _, _, _, hloop, hrest, hend⟩ := (joiner lOuter rOuter hasNulls p).loop_spec
    (joinLoop lOuter rOuter p) (fun _ _ _ _ => rfl) hL hR (c1.rowsBound + c2.rowsBound + 1) hnew
    (Nat.lt_succ_of_le (add_le_add h1.length_le h2.length_le))
  obtain ⟨J2, c12, c22, hflush, hJ2⟩ := (notes hasNulls p).flushIf_spec (J1.lindices ≠ []) hrest.holds
  obtain ⟨_, _, _, hleft, hJ3⟩ := consumeLeft_spec lOuter hJ2
  obtain ⟨_, _, _, hright, buf1', buf2', h1', h2', hJ4⟩ := consumeRight_spec rOuter hJ3
  rw [← outerJoin_nil_left lOuter rOuter (keyMatch hasNulls), ← outerJoin_nil_right lOuter rOuter (keyMatch hasNulls)] at hJ4
  obtain ⟨J5, hlast, hsent⟩ := lastFlush_spec ⟨buf1', buf2', h1', h2', hrest.rest hend hJ4⟩
  have hafter : J1.flushAfterLoop p c11 c21 = some (J2, c12, c22) := by
    simpa [flushAfterLoop, Notes.flushIf] using hflush
  refine ⟨J5, ?_, hsent⟩
  unfold join
  simp only [hloop, hafter, hleft, hright, hlast, bind_eq_bind, bind_some]

end Joined

/-! ### The rows sent -/

lemma executeJoin_spec (lOuter rOuter : Bool) (p : JoinParams α lw rw) (hasNulls : Bytes → Bool)
    (left : List (List (Bytes × Row α lw))) (right : List (List (Bytes × Row α rw))) (hL : SortedByKey left.flatten)
    (hR : SortedByKey right.flatten) :
    ∃ J, executeJoin lOuter rOuter p hasNulls left right = some J ∧
      J.sent.flatten.Perm (emitted p (outerJoin lOuter rOuter (keyMatch hasNulls) left.flatten right.flatten)) := by
  obtain ⟨_, _, hnext1, h1⟩ := tryNew_next left hasNulls (Row.null α lw)
  obtain ⟨_, _, hnext2, h2⟩ := tryNew_next right hasNulls (Row.null α rw)
  obtain ⟨J, hjoin, hperm⟩ := join_spec (p := p) lOuter rOuter h1 h2 hL hR
  refine ⟨J, ?_, hperm⟩
  unfold executeJoin
  simp only [hnext1, hnext2, hjoin, bind_eq_bind, bind_some]

lemma emitted_outerJoin {n : ℕ} {κ : Fin n → Type} [∀ i, DecidableEq (κ i)] (E : KeyEncoding κ) (lOuter rOuter : Bool)
    (p : JoinParams α lw rw) (hfilter : p.joinFilter.isSome → lOuter = false ∧ rOuter = false)
    (left : List (Key κ × Row α lw)) (right : List (Key κ × Row α rw)) :
    emitted p (outerJoin lOuter rOuter (keyMatch E.hasNulls) (left.map E.keyed) (right.map E.keyed)) =
      relationalJoin lOuter rOuter p left right := by
  have hmatch : (fun (l : Key κ × Row α lw) (r : Key κ × Row α rw) => keyMatch E.hasNulls (E.keyed l) (E.keyed r)) =
      fun l r => partners l.1 r.1 := by
    funext l r
    exact E.keyMatch_keyed l r
  have hside : ∀ {w : ℕ} (o : Option (Key κ × Row α w)), sideRow (o.map E.keyed) = sideRow o := by
    intro w o
    cases o <;> rfl
  unfold emitted relationalJoin
  rw [outerJoin_map, hmatch, filterMap_map]
  cases hp : p.joinFilter with
  | none =>
    simp [outputRow, JoinParams.selects, hp, hside]
  | some joinFilter =>
    obtain ⟨rfl, rfl⟩ := hfilter (by simp [hp])
    simp only [outerJoin, Bool.false_eq_true, if_false, append_nil]
    refine filterMap_innerJoin (fun l r => partners l.1 r.1)
      (fun l r => p.selects l.2 r.2) _ _ ?_ left right
    intro l r
    rfl

/-- **The sort-merge join is the relational join.**  Whatever the batches of the two streams are, `join` ends, and the rows
it sends are those of the join, each as often as it occurs there. -/
theorem join_correct {n : ℕ} {κ : Fin n → Type} [∀ i, DecidableEq (κ i)] (E : KeyEncoding κ) (lOuter rOuter : Bool)
    (p : JoinParams α lw rw) (hfilter : p.joinFilter.isSome → lOuter = false ∧ rOuter = false)
    (left : List (List (Key κ × Row α lw))) (right : List (List (Key κ × Row α rw)))
    (hL : SortedByKey (left.flatten.map E.keyed)) (hR : SortedByKey (right.flatten.map E.keyed)) :
    ∃ J, executeJoin lOuter rOuter p E.hasNulls (left.map (·.map E.keyed)) (right.map (·.map E.keyed)) = some J ∧
      J.sent.flatten.Perm (relationalJoin lOuter rOuter p left.flatten right.flatten) := by
  rw [map_flatten] at hL hR
  obtain ⟨J, hJ, hperm⟩ := executeJoin_spec lOuter rOuter p E.hasNulls _ _ hL hR
  refine ⟨J, hJ, ?_⟩
  rwa [← map_flatten, ← map_flatten, emitted_outerJoin E lOuter rOuter p hfilter] at hperm

/-- A full outer join with null and repeated keys, an empty batch, and a run of equal keys that spans batches. -/
theorem join_correct_fullOuter :
    ∃ J, executeJoin true true ⟨⟨[], []⟩, none, 2, false⟩ byteKeys.hasNulls
        ([[(fun _ => none, #v[some 1]), (fun _ => some 5, #v[some 2])], [], [(fun _ => some 5, #v[some 3])]].map
          (·.map byteKeys.keyed))
        ([[(fun _ => some 4, #v[some 7])], [(fun _ => some 5, #v[none]), (fun _ => some 5, #v[some 9])]].map
          (·.map byteKeys.keyed)) = some J ∧
      J.sent.flatten.Perm [[some 2, none], [some 2, some 9], [some 3, none], [some 3, some 9], [some 1, none],
        [none, some (7 : ℕ)]] :=
  join_correct byteKeys true true _ (by simp) _ _ (by decide) (by decide)

end FullJoiner

end Auron.Joins.Smj
