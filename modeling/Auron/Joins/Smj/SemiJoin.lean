import Auron.Joins.Params
import Auron.Joins.Smj.Loops

/-!
# Semi, anti and existence sort-merge joins (`joins/smj/semi_join.rs`, `joins/smj/existence_join.rs`)

These joiners send rows of one side only, the join side: a semi join those with a partner, an anti join those without,
an existence join all of them with a flag.  Their loops are the same; what differs is which rows are noted, and with
what.  `OneSideJoiner` is the joiner over that difference: a row of the join side is noted with `matched` or
`unmatched`, or not at all where that is `none`.  `SemiJoiner` and `ExistenceJoiner` are its instances.

The invariant `Noted` ties the noted indexes to output rows, as for the full joiner.  The rows of the join side are
noted in the order of the stream, so the results are about lists and not about multisets.
-/

namespace Auron.Joins.Smj

open Auron.Io Auron.Lib List

variable {α τ : Type} {lw rw : ℕ}

inductive SemiJoinSide where
  | L
  | R
  deriving DecidableEq, Repr

structure OneSideParams (α τ : Type) where
  joinSide : SemiJoinSide
  /-- What a row of the join side with a partner is noted with, if it is. -/
  matched : Option τ
  /-- What a row of the join side without a partner is noted with, if it is. -/
  unmatched : Option τ
  /-- The columns a note adds to the row. -/
  tagColumns : τ → List (Option α)
  batchSize : ℕ

/-- The joiner, with the batches given to its sender. -/
structure OneSideJoiner (α τ : Type) where
  indices : List Idx
  tags : List τ
  sent : List (List (List (Option α)))

namespace OneSideJoiner

def new : OneSideJoiner α τ := ⟨[], [], []⟩

def push (J : OneSideJoiner α τ) (tag : Option τ) (idx : Idx) : OneSideJoiner α τ :=
  match tag with
  | some tag => { J with indices := J.indices ++ [idx], tags := J.tags ++ [tag] }
  | none => J

section Steps

variable (p : OneSideParams α τ)

/-- Notes a row of the left side, if that is the join side. -/
def pushLeft (tag : Option τ) (J : OneSideJoiner α τ) (idx : Idx) : OneSideJoiner α τ :=
  if p.joinSide = .L then J.push tag idx else J

/-- Notes a row of the right side, if that is the join side. -/
def pushRight (tag : Option τ) (J : OneSideJoiner α τ) (idx : Idx) : OneSideJoiner α τ :=
  if p.joinSide = .R then J.push tag idx else J

def shouldFlush (J : OneSideJoiner α τ) : Bool := p.batchSize ≤ J.indices.length

def gatherRows (c1 : StreamCursor (Row α lw)) (c2 : StreamCursor (Row α rw))
    (indices : List Idx) : Option (List (List (Option α))) :=
  match p.joinSide with
  | .L => (gather₂ c1.batches indices).map (·.map Vector.toList)
  | .R => (gather₂ c2.batches indices).map (·.map Vector.toList)

/-- `flush`.  Columns of different lengths would be refused by `RecordBatch::try_new_with_options`. -/
def flush (c1 : StreamCursor (Row α lw)) (c2 : StreamCursor (Row α rw))
    (J : OneSideJoiner α τ) : Option (OneSideJoiner α τ) := do
  let rows ← gatherRows p c1 c2 J.indices
  if rows.length = J.tags.length then
    some ⟨[], [], sendBatch J.sent (zipWith (fun row tag => row ++ p.tagColumns tag) rows J.tags)⟩
  else none

def streamLeft (c2 : StreamCursor (Row α rw)) (rKeyIdx : Idx) (J : OneSideJoiner α τ)
    (c1 : StreamCursor (Row α lw)) : Option (OneSideJoiner α τ × StreamCursor (Row α lw)) :=
  forwardWhile (fun c1 => do some ((← c1.curKey) = (← c2.key rKeyIdx))) (pushLeft p p.matched)
    (fun J c1 => do
      if J.shouldFlush p || 1 < c1.numBufferedBatches then some (← J.flush p c1 c2, c1.cleanOutDatedBatches)
      else some (J, c1))
    (c1.rowsBound + 1) J c1

def streamRight (c1 : StreamCursor (Row α lw)) (lKeyIdx : Idx) (J : OneSideJoiner α τ)
    (c2 : StreamCursor (Row α rw)) : Option (OneSideJoiner α τ × StreamCursor (Row α rw)) :=
  forwardWhile (fun c2 => do some ((← c2.curKey) = (← c1.key lKeyIdx))) (pushRight p p.matched)
    (fun J c2 => do
      if J.shouldFlush p || 1 < c2.numBufferedBatches then some (← J.flush p c1 c2, c2.cleanOutDatedBatches)
      else some (J, c2))
    (c2.rowsBound + 1) J c2

variable (J : OneSideJoiner α τ)

variable (c1 : StreamCursor (Row α lw))

variable (c2 : StreamCursor (Row α rw))

def joinEqual : Option (OneSideJoiner α τ × StreamCursor (Row α lw) × StreamCursor (Row α rw)) := do
  let lKeyIdx := c1.curIdx
  let rKeyIdx := c2.curIdx
  let J := J.pushLeft p p.matched lKeyIdx
  let c1 ← c1.next
  let J := J.pushRight p p.matched rKeyIdx
  let c2 ← c2.next
  let (J, c1, c2, lEqual, rEqual) ←
    scanEqual (pushLeft p p.matched) (pushRight p p.matched) lKeyIdx rKeyIdx (c1.rowsBound + 1) J c1 c2
  let (J, c1) ← if lEqual then J.streamLeft p c2 rKeyIdx c1 else some (J, c1)
  let (J, c2) ← if rEqual then J.streamRight p c1 lKeyIdx c2 else some (J, c2)
  some (J, c1, c2)

def flushBeforeRound : Option (OneSideJoiner α τ × StreamCursor (Row α lw) × StreamCursor (Row α rw)) := do
  if J.shouldFlush p || 1 < c1.numBufferedBatches || 1 < c2.numBufferedBatches then
    some (← J.flush p c1 c2, c1.cleanOutDatedBatches, c2.cleanOutDatedBatches)
  else some (J, c1, c2)

def joinStep : Option (OneSideJoiner α τ × StreamCursor (Row α lw) × StreamCursor (Row α rw)) := do
  let (J, c1, c2) ← J.flushBeforeRound p c1 c2
  match ← compareCursor c1 c2 with
  | .lt => some (J.pushLeft p p.unmatched c1.curIdx, ← c1.next, c2)
  | .gt => some (J.pushRight p p.unmatched c2.curIdx, c1, ← c2.next)
  | .eq => J.joinEqual p c1 c2

end Steps

def joinLoop (p : OneSideParams α τ) :
    ℕ → OneSideJoiner α τ → StreamCursor (Row α lw) → StreamCursor (Row α rw) →
    Option (OneSideJoiner α τ × StreamCursor (Row α lw) × StreamCursor (Row α rw))
  | 0, _, _, _ => none
  | rounds + 1, J, c1, c2 => do
    if c1.finished || c2.finished then some (J, c1, c2)
    else
      let (J, c1, c2) ← J.joinStep p c1 c2
      joinLoop p rounds J c1 c2

section Consumed

variable (p : OneSideParams α τ)

/-- The rows left on the left side, if they are noted. -/
def consumeLeft (c2 : StreamCursor (Row α rw)) (J : OneSideJoiner α τ)
    (c1 : StreamCursor (Row α lw)) : Option (OneSideJoiner α τ × StreamCursor (Row α lw)) :=
  forwardWhile (fun _ => some (p.joinSide = .L && p.unmatched.isSome)) (pushLeft p p.unmatched)
    (fun J c1 => do if J.shouldFlush p then some (← J.flush p c1 c2, c1.cleanOutDatedBatches) else some (J, c1))
    (c1.rowsBound + 1) J c1

/-- The rows left on the right side, if they are noted. -/
def consumeRight (c1 : StreamCursor (Row α lw)) (J : OneSideJoiner α τ)
    (c2 : StreamCursor (Row α rw)) : Option (OneSideJoiner α τ × StreamCursor (Row α rw)) :=
  forwardWhile (fun _ => some (p.joinSide = .R && p.unmatched.isSome)) (pushRight p p.unmatched)
    (fun J c2 => do if J.shouldFlush p then some (← J.flush p c1 c2, c2.cleanOutDatedBatches) else some (J, c2))
    (c2.rowsBound + 1) J c2

def join (J : OneSideJoiner α τ) (c1 : StreamCursor (Row α lw))
    (c2 : StreamCursor (Row α rw)) : Option (OneSideJoiner α τ) := do
  let (J, c1, c2) ← J.joinLoop p (c1.rowsBound + c2.rowsBound + 1) c1 c2
  let (J, c1) ← J.consumeLeft p c2 c1
  let (J, c2) ← J.consumeRight p c1 c2
  if J.indices ≠ [] then J.flush p c1 c2 else some J

def executeJoin (hasNulls : Bytes → Bool) (left : List (List (Bytes × Row α lw)))
    (right : List (List (Bytes × Row α rw))) : Option (OneSideJoiner α τ) := do
  let c1 ← (StreamCursor.tryNew left hasNulls (Row.null α lw)).next
  let c2 ← (StreamCursor.tryNew right hasNulls (Row.null α rw)).next
  new.join p c1 c2

/-! ### The invariant -/

section Tagged

variable (tag : Option τ)

def leftRows (xs : List (Bytes × Row α lw)) : List (List (Option α)) :=
  if p.joinSide = .L then xs.filterMap fun x => tag.map fun t => x.2.toList ++ p.tagColumns t else []

def rightRows (ys : List (Bytes × Row α rw)) : List (List (Option α)) :=
  if p.joinSide = .R then ys.filterMap fun y => tag.map fun t => y.2.toList ++ p.tagColumns t else []

@[simp] lemma leftRows_nil : leftRows p tag ([] : List (Bytes × Row α lw)) = [] := by simp [leftRows]

@[simp] lemma rightRows_nil : rightRows p tag ([] : List (Bytes × Row α rw)) = [] := by simp [rightRows]

lemma leftRows_append (xs xs' : List (Bytes × Row α lw)) :
    leftRows p tag (xs ++ xs') = leftRows p tag xs ++ leftRows p tag xs' := by
  unfold leftRows
  split
  · exact filterMap_append
  · rfl

lemma rightRows_append (ys ys' : List (Bytes × Row α rw)) :
    rightRows p tag (ys ++ ys') = rightRows p tag ys ++ rightRows p tag ys' := by
  unfold rightRows
  split
  · exact filterMap_append
  · rfl

end Tagged

def RowAt (buf1 : List (List (Bytes × Row α lw))) (buf2 : List (List (Bytes × Row α rw)))
    (idx : Idx) (row : List (Option α)) : Prop :=
  match p.joinSide with
  | .L => ∃ x, At buf1 idx x ∧ row = x.2.toList
  | .R => ∃ y, At buf2 idx y ∧ row = y.2.toList

/-- The output rows `out` are sent, or noted by index. -/
structure Noted (buf1 : List (List (Bytes × Row α lw)))
    (buf2 : List (List (Bytes × Row α rw))) (J : OneSideJoiner α τ) (out : List (List (Option α))) : Prop where
  intro ::
  split : ∃ rows, out = J.sent.flatten ++ zipWith (fun row tag => row ++ p.tagColumns tag) rows J.tags ∧
    Forall₂ (RowAt p buf1 buf2) J.indices rows ∧ rows.length = J.tags.length

end Consumed

section Noted

variable {p : OneSideParams α τ} {buf1 buf1' : List (List (Bytes × Row α lw))}
  {buf2 buf2' : List (List (Bytes × Row α rw))} {J : OneSideJoiner α τ} {out : List (List (Option α))}
  {hasNulls : Bytes → Bool} {c1 : StreamCursor (Row α lw)} {c2 : StreamCursor (Row α rw)}
  {L : List (Bytes × Row α lw)} {R : List (Bytes × Row α rw)}

lemma noted_new : Noted p buf1 buf2 (new : OneSideJoiner α τ) [] := ⟨[], rfl, .nil, rfl⟩

lemma Noted.mono (h : Noted p buf1 buf2 J out) (h1 : buf1 <+: buf1') (h2 : buf2 <+: buf2') :
    Noted p buf1' buf2' J out := by
  obtain ⟨rows, hout, hrows, hlen⟩ := h.split
  refine ⟨rows, hout, hrows.imp fun idx row hrow => ?_, hlen⟩
  unfold RowAt at hrow ⊢
  split at hrow
  · obtain ⟨x, hx, rfl⟩ := hrow
    exact ⟨x, hx.mono h1, rfl⟩
  · obtain ⟨y, hy, rfl⟩ := hrow
    exact ⟨y, hy.mono h2, rfl⟩

variable {idx : Idx}

/-- A row of the given side, noted if that is the join side. -/
lemma Noted.push (h : Noted p buf1 buf2 J out) (tag : Option τ) {side : SemiJoinSide} {row : List (Option α)}
    (hrow : p.joinSide = side → RowAt p buf1 buf2 idx row) :
    Noted p buf1 buf2 (if p.joinSide = side then J.push tag idx else J)
      (out ++ if p.joinSide = side then (tag.map fun t => row ++ p.tagColumns t).toList else []) := by
  split
  case isFalse => simpa using h
  case isTrue hside =>
    cases tag with
    | none => simpa [OneSideJoiner.push] using h
    | some t =>
      obtain ⟨rows, rfl, hrows, hlen⟩ := h.split
      refine ⟨rows ++ [row], ?_, rel_append hrows (.cons (hrow hside) .nil), ?_⟩
      · simp only [OneSideJoiner.push, zipWith_append hlen, append_assoc]
        rfl
      · simp [OneSideJoiner.push, hlen]

variable {x : Bytes × Row α lw}

lemma Noted.pushLeft (h : Noted p buf1 buf2 J out) (tag : Option τ) (hx : At buf1 idx x) :
    Noted p buf1 buf2 (J.pushLeft p tag idx) (out ++ leftRows p tag [x]) := by
  have hrow (hside : p.joinSide = .L) : RowAt p buf1 buf2 idx x.2.toList := by
    unfold RowAt
    rw [hside]
    exact ⟨x, hx, rfl⟩
  cases tag <;> exact h.push _ hrow

variable {y : Bytes × Row α rw}

lemma Noted.pushRight (h : Noted p buf1 buf2 J out) (tag : Option τ) (hy : At buf2 idx y) :
    Noted p buf1 buf2 (J.pushRight p tag idx) (out ++ rightRows p tag [y]) := by
  have hrow (hside : p.joinSide = .R) : RowAt p buf1 buf2 idx y.2.toList := by
    unfold RowAt
    rw [hside]
    exact ⟨y, hy, rfl⟩
  cases tag <;> exact h.push _ hrow

lemma Noted.foldl_pushLeft (tag : Option τ) {idxs : List Idx} {xs : List (Bytes × Row α lw)}
    (hxs : Forall₂ (At buf1) idxs xs) (h : Noted p buf1 buf2 J out) :
    Noted p buf1 buf2 (idxs.foldl (OneSideJoiner.pushLeft p tag) J) (out ++ leftRows p tag xs) := by
  induction hxs generalizing J out with
  | nil => simpa using h
  | @cons idx x idxs xs hx _ ih =>
    rw [foldl_cons, ← singleton_append, leftRows_append, ← append_assoc]
    exact ih (h.pushLeft tag hx)

lemma Noted.foldl_pushRight (tag : Option τ) {idxs : List Idx} {ys : List (Bytes × Row α rw)}
    (hys : Forall₂ (At buf2) idxs ys) (h : Noted p buf1 buf2 J out) :
    Noted p buf1 buf2 (idxs.foldl (OneSideJoiner.pushRight p tag) J) (out ++ rightRows p tag ys) := by
  induction hys generalizing J out with
  | nil => simpa using h
  | @cons idx y idxs ys hy _ ih =>
    rw [foldl_cons, ← singleton_append, rightRows_append, ← append_assoc]
    exact ih (h.pushRight tag hy)

/-! ### Flushing -/

variable (h1 : Rep hasNulls (Row.null α lw) c1 buf1 L) (h2 : Rep hasNulls (Row.null α rw) c2 buf2 R)

include h1 h2 in
lemma gatherRows_eq {indices : List Idx} {rows : List (List (Option α))} (hrows : Forall₂ (RowAt p buf1 buf2) indices rows) :
    gatherRows p c1 c2 indices = some rows := by
  induction hrows with
  | nil => cases hside : p.joinSide <;> simp [gatherRows, hside, gather₂, collect]
  | @cons idx row indices rows hrow _ ih =>
    unfold gatherRows RowAt at *
    cases hside : p.joinSide with
    | L =>
      simp only [hside, Option.map_eq_some_iff] at hrow ih ⊢
      obtain ⟨x, hx, rfl⟩ := hrow
      obtain ⟨as, has, rfl⟩ := ih
      refine ⟨x.2 :: as, ?_, rfl⟩
      rw [gather₂_eq_some_iff] at has ⊢
      exact .cons (h1.row_at hx) has
    | R =>
      simp only [hside, Option.map_eq_some_iff] at hrow ih ⊢
      obtain ⟨y, hy, rfl⟩ := hrow
      obtain ⟨as, has, rfl⟩ := ih
      refine ⟨y.2 :: as, ?_, rfl⟩
      rw [gather₂_eq_some_iff] at has ⊢
      exact .cons (h2.row_at hy) has

include h1 h2 in
/-- **A flush sends the noted rows and forgets their indexes.** -/
theorem Noted.flush (h : Noted p buf1 buf2 J out) :
    ∃ J', J.flush p c1 c2 = some J' ∧ J'.sent.flatten = out ∧
      ∀ (buf1' : List (List (Bytes × Row α lw))) (buf2' : List (List (Bytes × Row α rw))), Noted p buf1' buf2' J' out := by
  obtain ⟨rows, rfl, hrows, hlen⟩ := h.split
  refine ⟨⟨[], [], sendBatch J.sent (zipWith (fun row tag => row ++ p.tagColumns tag) rows J.tags)⟩, ?_,
    flatten_sendBatch _ _, fun _ _ => ⟨[], by simp, .nil, rfl⟩⟩
  simp only [OneSideJoiner.flush, gatherRows_eq h1 h2 hrows, Option.bind_eq_bind, Option.bind_some, hlen, if_true]

/-- The invariant, with what the loops need of it. -/
@[reducible] def notes (hasNulls : Bytes → Bool) (p : OneSideParams α τ) :
    Notes (Row α lw) (Row α rw) (OneSideJoiner α τ) (List (Option α)) where
  hasNulls := hasNulls
  nullRow₁ := Row.null α lw
  nullRow₂ := Row.null α rw
  flush J c1 c2 := J.flush p c1 c2
  Inv buf1 buf2 J out := Noted p buf1 buf2 J out
  mono := Noted.mono
  flush_spec h h1 h2 := by
    obtain ⟨J', hflush, -, hJ'⟩ := h.flush h1 h2
    exact ⟨J', hflush, hJ'⟩

/-! ### Runs of equal keys -/

include h1 h2

lemma streamLeft_spec {rKeyIdx : Idx} (h : Noted p buf1 buf2 J out) (hy : At buf2 rKeyIdx y) :
    ∃ J' c1' buf1', J.streamLeft p c2 rKeyIdx c1 = some (J', c1') ∧
      Rep hasNulls (Row.null α lw) c1' buf1' (L.dropWhile fun z => z.1 = y.1) ∧
      Noted p buf1' buf2 J' (out ++ leftRows p p.matched (L.takeWhile fun z => z.1 = y.1)) := by
  refine (notes hasNulls p).forward (fun xs => out ++ leftRows p p.matched xs) h1 h2 (by simpa using h)
    (fun hz => ?_) (fun hJ hx => ?_)
  · simp [hz.curKey_eq, h2.key_at hy]
  · rw [leftRows_append, ← append_assoc]
    exact hJ.pushLeft p.matched hx

lemma streamRight_spec {lKeyIdx : Idx} (h : Noted p buf1 buf2 J out) (hx : At buf1 lKeyIdx x) :
    ∃ J' c2' buf2', J.streamRight p c1 lKeyIdx c2 = some (J', c2') ∧
      Rep hasNulls (Row.null α rw) c2' buf2' (R.dropWhile fun z => z.1 = x.1) ∧
      Noted p buf1 buf2' J' (out ++ rightRows p p.matched (R.takeWhile fun z => z.1 = x.1)) := by
  refine (notes hasNulls p).swap.forward (fun ys => out ++ rightRows p p.matched ys) h2 h1 (by simpa using h)
    (fun hz => ?_) (fun hJ hy => ?_)
  · simp [hz.curKey_eq, h1.key_at hx]
  · rw [rightRows_append, ← append_assoc]
    exact hJ.pushRight p.matched hy

omit h1 h2

lemma pushRight_pushLeft (tag tag' : Option τ) (J : OneSideJoiner α τ) (i j : Idx) :
    (J.pushLeft p tag i).pushRight p tag' j = (J.pushRight p tag' j).pushLeft p tag i := by
  unfold OneSideJoiner.pushLeft OneSideJoiner.pushRight
  cases p.joinSide <;> rfl

lemma rightRows_append_leftRows (tag tag' : Option τ) (xs : List (Bytes × Row α lw)) (ys : List (Bytes × Row α rw)) :
    rightRows p tag' ys ++ leftRows p tag xs = leftRows p tag xs ++ rightRows p tag' ys := by
  unfold leftRows rightRows
  cases p.joinSide <;> simp

/-- **At equal keys** the runs of the key on both sides are passed, and the rows of the join side's run are noted. -/
theorem joinEqual_spec (h : Noted p buf1 buf2 J out) (h1 : Rep hasNulls (Row.null α lw) c1 buf1 (x :: L))
    (h2 : Rep hasNulls (Row.null α rw) c2 buf2 (y :: R)) (hxy : x.1 = y.1) :
    ∃ J' c1' c2' runL L' runR R', J.joinEqual p c1 c2 = some (J', c1', c2') ∧
      (notes hasNulls p).Holds J' c1' c2' L' R'
        (out ++ leftRows p p.matched (x :: runL) ++ rightRows p p.matched (y :: runR)) ∧
      FrontRun x.1 (x :: L) (x :: runL) L' ∧ FrontRun x.1 (y :: R) (y :: runR) R' := by
  obtain ⟨c1', buf1', hn1, hp1⟩ := Passed.next h1 rfl
  obtain ⟨c2', buf2', hn2, hp2⟩ := Passed.next h2 hxy.symm
  obtain ⟨c1'', c2'', buf1'', buf2'', L', R', runL, runR, il, ir, lEqual, rEqual, hscan, hl, hr, hlt, hrt, hlf, hrf, hne⟩ :=
    scanEqual_spec (OneSideJoiner.pushLeft p p.matched) (OneSideJoiner.pushRight p p.matched)
      (pushRight_pushLeft p.matched p.matched) hxy (c1'.rowsBound + 1)
      ((J.pushLeft p p.matched c1.curIdx).pushRight p p.matched c2.curIdx) hp1.rep hp2.rep
      (h1.at_cur.mono hp1.buf) (h2.at_cur.mono hp2.buf) (Nat.lt_succ_of_le hp1.rep.length_le)
  have hpl := hp1.trans hl
  have hpr := hp2.trans hr
  have hx : At buf1'' c1.curIdx x := (forall₂_cons.1 hpl.idxs).1
  have hy : At buf2'' c2.curIdx y := (forall₂_cons.1 hpr.idxs).1
  -- the rows passed so far are noted, those of the left run first
  have hJ : Noted p buf1'' buf2''
      (ir.foldl (OneSideJoiner.pushRight p p.matched) (il.foldl (OneSideJoiner.pushLeft p p.matched)
        ((J.pushLeft p p.matched c1.curIdx).pushRight p p.matched c2.curIdx)))
      (out ++ leftRows p p.matched (x :: runL) ++ rightRows p p.matched (y :: runR)) := by
    have hnote := ((h.mono hpl.buf hpr.buf).foldl_pushLeft p.matched hpl.idxs).foldl_pushRight p.matched hpr.idxs
    have hcomm := foldl_foldl_comm (pushRight_pushLeft (p := p) p.matched p.matched) il [c2.curIdx]
      (J.pushLeft p p.matched c1.curIdx)
    rw [foldl_cons, foldl_cons, foldl_nil] at hcomm
    rwa [hcomm]
  unfold joinEqual
  simp only [hn1, hn2, hscan, Option.bind_eq_bind, Option.bind_some]
  cases lEqual with
  | true =>
    have hrEqual : rEqual = false := by simpa using hne
    subst hrEqual
    obtain ⟨J', cL, bufL, hrun, hrep, hJ'⟩ := streamLeft_spec hpl.rep hpr.rep hJ hy
    rw [← hxy] at hrep hJ'
    refine ⟨J', cL, c2'', runL ++ L'.takeWhile (fun z => z.1 = x.1), _, runR, R', by simp [hrun],
      ⟨bufL, buf2'', hrep, hpr.rep, ?_⟩, hpl.frontRun_takeWhile, hpr.frontRun (hrf rfl)⟩
    rw [← cons_append, leftRows_append]
    rw [append_assoc, rightRows_append_leftRows] at hJ'
    simpa only [append_assoc] using hJ'
  | false =>
    cases rEqual with
    | true =>
      obtain ⟨J', cR, bufR, hrun, hrep, hJ'⟩ := streamRight_spec hpl.rep hpr.rep hJ hx
      refine ⟨J', c1'', cR, runL, L', runR ++ R'.takeWhile (fun z => z.1 = x.1), _, by simp [hrun],
        ⟨buf1'', bufR, hpl.rep, hrep, ?_⟩, hpl.frontRun (hlf rfl), hpr.frontRun_takeWhile⟩
      rwa [← cons_append, rightRows_append, ← append_assoc]
    | false =>
      exact ⟨_, c1'', c2'', runL, L', runR, R', rfl, ⟨buf1'', buf2'', hpl.rep, hpr.rep, hJ⟩, hpl.frontRun (hlf rfl),
        hpr.frontRun (hrf rfl)⟩

/-! ### The run -/

def tagOf (p : OneSideParams α τ) (hasPartner : Bool) : Option τ := if hasPartner then p.matched else p.unmatched

def taggedRow {K : Type} {w : ℕ} (p : OneSideParams α τ) (xt : (K × Row α w) × τ) : List (Option α) :=
  xt.1.2.toList ++ p.tagColumns xt.2

/-- The output rows, by what the rows of the join side match on the other side. -/
def sideRows {K : Type} (p : OneSideParams α τ) (m : K × Row α lw → K × Row α rw → Bool) (left : List (K × Row α lw))
    (right : List (K × Row α rw)) : List (List (Option α)) :=
  match p.joinSide with
  | .L => (tagJoin m (tagOf p) left right).map (taggedRow p)
  | .R => (tagJoin (fun r l => m l r) (tagOf p) right left).map (taggedRow p)

lemma sideRows_append {K : Type} {m : K × Row α lw → K × Row α rw → Bool} {as as' : List (K × Row α lw)}
    {bs bs' : List (K × Row α rw)} (h1 : Apart m as bs') (h2 : Apart m as' bs) :
    sideRows p m (as ++ as') (bs ++ bs') = sideRows p m as bs ++ sideRows p m as' bs' := by
  unfold sideRows
  split
  · rw [tagJoin_append _ h1 h2, map_append]
  · rw [tagJoin_append _ h2.swap h1.swap, map_append]

section SideRows

variable {m : Bytes × Row α lw → Bytes × Row α rw → Bool} {as : List (Bytes × Row α lw)} {bs : List (Bytes × Row α rw)}

lemma sideRows_nil_right : sideRows p m as [] = leftRows p p.unmatched as := by
  unfold sideRows leftRows
  cases p.joinSide with
  | L => simp [tagJoin_nil_right, tagOf, map_filterMap, taggedRow, Function.comp_def]
  | R => simp [tagJoin]

lemma sideRows_nil_left : sideRows p m [] bs = rightRows p p.unmatched bs := by
  unfold sideRows rightRows
  cases p.joinSide with
  | L => simp [tagJoin]
  | R => simp [tagJoin_nil_right, tagOf, map_filterMap, taggedRow, Function.comp_def]

lemma sideRows_together (h : Together m as bs) (hl : as ≠ []) (hr : bs ≠ []) :
    sideRows p m as bs = leftRows p p.matched as ++ rightRows p p.matched bs := by
  unfold sideRows leftRows rightRows
  cases p.joinSide with
  | L => simp [tagJoin_together _ h hr, tagOf, map_filterMap, taggedRow, Function.comp_def]
  | R => simp [tagJoin_together _ h.swap hl, tagOf, map_filterMap, taggedRow, Function.comp_def]

end SideRows

@[reducible] def joiner (hasNulls : Bytes → Bool) (p : OneSideParams α τ) :
    MergeJoiner (Row α lw) (Row α rw) (OneSideJoiner α τ) (List (Option α)) where
  toNotes := notes hasNulls p
  due J c1 c2 := J.shouldFlush p || 1 < c1.numBufferedBatches || 1 < c2.numBufferedBatches
  onLt := OneSideJoiner.pushLeft p p.unmatched
  onGt := OneSideJoiner.pushRight p p.unmatched
  equal J c1 c2 := J.joinEqual p c1 c2
  join := sideRows p (keyMatch hasNulls)
  join_nil := by rw [sideRows_nil_right, leftRows_nil]
  join_append h1 h2 h := by rwa [sideRows_append h1 h2]
  onLt_spec h hx := by
    rw [sideRows_nil_right]
    exact h.pushLeft p.unmatched hx
  onGt_spec h hy := by
    rw [sideRows_nil_left]
    exact h.pushRight p.unmatched hy
  equal_spec h h1 h2 hxy hnull := by
    obtain ⟨J', c1', c2', runL, L', runR, R', heq, hJ', hl, hr⟩ := joinEqual_spec h h1 h2 hxy
    refine ⟨J', c1', c2', runL, L', runR, R', heq, ?_, hl, hr⟩
    rwa [sideRows_together (together_of_keys_eq hnull hl.keys hr.keys) (by simp) (by simp), ← append_assoc]

section Kept

variable (h : (notes hasNulls p).Holds J c1 c2 L R out)

include h

lemma consumeLeft_spec :
    ∃ J' c1' L', J.consumeLeft p c2 c1 = some (J', c1') ∧
      (notes hasNulls p).Holds J' c1' c2 L' R (out ++ leftRows p p.unmatched L) := by
  obtain ⟨buf1, buf2, h1, h2, hJ⟩ := h
  obtain ⟨J', c1', buf1', hrun, hrep, hJ'⟩ : ∃ J' c1' buf1', J.consumeLeft p c2 c1 = some (J', c1') ∧ _ := by
    refine (notes hasNulls p).forward (fun xs => out ++ leftRows p p.unmatched xs) h1 h2 (by simpa using hJ)
      (fun _ => rfl) (fun hJ hx => ?_)
    rw [leftRows_append, ← append_assoc]
    exact hJ.pushLeft p.unmatched hx
  refine ⟨J', c1', _, hrun, buf1', buf2, hrep, h2, ?_⟩
  rw [takeWhile_const] at hJ'
  have hrows : leftRows p p.unmatched (if p.joinSide = .L && p.unmatched.isSome then L else []) =
      leftRows p p.unmatched L := by
    unfold leftRows
    cases p.joinSide <;> cases p.unmatched <;> simp
  rwa [hrows] at hJ'

lemma consumeRight_spec :
    ∃ J' c2' R', J.consumeRight p c1 c2 = some (J', c2') ∧
      (notes hasNulls p).Holds J' c1 c2' L R' (out ++ rightRows p p.unmatched R) := by
  obtain ⟨buf1, buf2, h1, h2, hJ⟩ := h
  obtain ⟨J', c2', buf2', hrun, hrep, hJ'⟩ : ∃ J' c2' buf2', J.consumeRight p c1 c2 = some (J', c2') ∧ _ := by
    refine (notes hasNulls p).swap.forward (fun ys => out ++ rightRows p p.unmatched ys) h2 h1 (by simpa using hJ)
      (fun _ => rfl) (fun hJ hy => ?_)
    rw [rightRows_append, ← append_assoc]
    exact hJ.pushRight p.unmatched hy
  refine ⟨J', c2', _, hrun, buf1, buf2', h1, hrep, ?_⟩
  rw [takeWhile_const] at hJ'
  have hrows : rightRows p p.unmatched (if p.joinSide = .R && p.unmatched.isSome then R else []) =
      rightRows p p.unmatched R := by
    unfold rightRows
    cases p.joinSide <;> cases p.unmatched <;> simp
  rwa [hrows] at hJ'

lemma lastFlush_spec :
    ∃ J', (if J.indices ≠ [] then J.flush p c1 c2 else some J) = some J' ∧ J'.sent.flatten = out := by
  obtain ⟨buf1, buf2, h1, h2, hJ⟩ := h
  by_cases hi : J.indices = []
  · obtain ⟨rows, rfl, hrows, -⟩ := hJ.split
    rw [hi, forall₂_nil_left_iff] at hrows
    exact ⟨J, by simp [hi], by simp [hrows]⟩
  · obtain ⟨J', hflush, hsent, -⟩ := hJ.flush h1 h2
    exact ⟨J', by rw [if_pos hi, hflush], hsent⟩

end Kept

include h1 h2 in
/-- **`join`** sends the rows of the join side, in order, each with its note. -/
theorem join_spec (hL : SortedByKey L) (hR : SortedByKey R) :
    ∃ J', (new : OneSideJoiner α τ).join p c1 c2 = some J' ∧ J'.sent.flatten = sideRows p (keyMatch hasNulls) L R := by
  have hnew : (joiner hasNulls p).Before L R (new : OneSideJoiner α τ) c1 c2 [] L [] R :=
    ⟨⟨buf1, buf2, h1, h2, (joiner hasNulls p).join_nil ▸ noted_new⟩, rfl, rfl, by simp [Apart], by simp [Apart]⟩
  obtain ⟨J1, c11, c21, as, L1, bs, R1, hloop, hrest, hend⟩ := (joiner hasNulls p).loop_spec (joinLoop p)
    (fun _ _ _ _ => rfl) hL hR (c1.rowsBound + c2.rowsBound + 1) hnew
    (Nat.lt_succ_of_le (add_le_add h1.length_le h2.length_le))
  obtain ⟨J2, c12, L2, hleft, hJ2⟩ := consumeLeft_spec hrest.holds
  obtain ⟨J3, c23, R3, hright, buf1', buf2', h1', h2', hJ3⟩ := consumeRight_spec hJ2
  rw [← sideRows_nil_left, ← sideRows_nil_right] at hJ3
  obtain ⟨J4, hlast, hsent⟩ := lastFlush_spec ⟨buf1', buf2', h1', h2', hrest.rest hend hJ3⟩
  refine ⟨J4, ?_, hsent⟩
  unfold join
  simp only [hloop, hleft, hright, hlast, Option.bind_eq_bind, Option.bind_some]

end Noted

lemma executeJoin_spec (p : OneSideParams α τ) (hasNulls : Bytes → Bool) (left : List (List (Bytes × Row α lw)))
    (right : List (List (Bytes × Row α rw))) (hL : SortedByKey left.flatten) (hR : SortedByKey right.flatten) :
    ∃ J, executeJoin p hasNulls left right = some J ∧
      J.sent.flatten = sideRows p (keyMatch hasNulls) left.flatten right.flatten := by
  obtain ⟨c1, buf1, hnext1, h1⟩ := tryNew_next left hasNulls (Row.null α lw)
  obtain ⟨c2, buf2, hnext2, h2⟩ := tryNew_next right hasNulls (Row.null α rw)
  obtain ⟨J, hjoin, hsent⟩ := join_spec (p := p) h1 h2 hL hR
  refine ⟨J, ?_, hsent⟩
  unfold executeJoin
  simp only [hnext1, hnext2, hjoin, Option.bind_eq_bind, Option.bind_some]

end OneSideJoiner

structure JoinerParams where
  joinSide : SemiJoinSide
  semi : Bool
  deriving DecidableEq, Repr

def leftSemi : JoinerParams := ⟨.L, true⟩

def leftAnti : JoinerParams := ⟨.L, false⟩

def rightSemi : JoinerParams := ⟨.R, true⟩

def rightAnti : JoinerParams := ⟨.R, false⟩

/-- `SemiJoiner<P>`: notes the rows with a partner if `P.semi`, those without one otherwise. -/
def SemiJoiner (P : JoinerParams) (batchSize : ℕ) : OneSideParams α Unit where
  joinSide := P.joinSide
  matched := if P.semi then some () else none
  unmatched := if P.semi then none else some ()
  tagColumns _ := []
  batchSize := batchSize

/-- `ExistenceJoiner`: notes every left row with a flag, output as a column of booleans. -/
def ExistenceJoiner (ofBool : Bool → α) (batchSize : ℕ) : OneSideParams α Bool where
  joinSide := .L
  matched := some true
  unmatched := some false
  tagColumns exists_ := [some (ofBool exists_)]
  batchSize := batchSize

/-! ### The rows sent -/

section Correct

variable {n : ℕ} {κ : Fin n → Type} [∀ i, DecidableEq (κ i)]

/-- **The relational semi (or anti) join**: the rows of the join side with (or without) a partner, in order. -/
def relationalSemiJoin (P : JoinerParams) (left : List (Key κ × Row α lw)) (right : List (Key κ × Row α rw)) :
    List (List (Option α)) :=
  match P.joinSide with
  | .L => (left.filter fun l => (right.any fun r => partners l.1 r.1) == P.semi).map fun l => l.2.toList
  | .R => (right.filter fun r => (left.any fun l => partners l.1 r.1) == P.semi).map fun r => r.2.toList

/-- **The relational existence join**: every left row, in order, and whether it has a partner. -/
def relationalExistenceJoin (ofBool : Bool → α) (left : List (Key κ × Row α lw)) (right : List (Key κ × Row α rw)) :
    List (List (Option α)) :=
  left.map fun l => l.2.toList ++ [some (ofBool (right.any fun r => partners l.1 r.1))]

namespace OneSideJoiner

lemma sideRows_keyed (E : KeyEncoding κ) (p : OneSideParams α τ) (left : List (Key κ × Row α lw))
    (right : List (Key κ × Row α rw)) :
    sideRows p (keyMatch E.hasNulls) (left.map E.keyed) (right.map E.keyed) =
      sideRows p (fun l r => partners l.1 r.1) left right := by
  unfold sideRows
  split
  · rw [tagJoin_map, map_map]
    simp only [E.keyMatch_keyed]
    rfl
  · rw [tagJoin_map, map_map]
    simp only [E.keyMatch_keyed]
    rfl

lemma executeJoin_keyed (E : KeyEncoding κ) (p : OneSideParams α τ) (left : List (List (Key κ × Row α lw)))
    (right : List (List (Key κ × Row α rw))) (hL : SortedByKey (left.flatten.map E.keyed))
    (hR : SortedByKey (right.flatten.map E.keyed)) :
    ∃ J, executeJoin p E.hasNulls (left.map (·.map E.keyed)) (right.map (·.map E.keyed)) = some J ∧
      J.sent.flatten = sideRows p (fun l r => partners l.1 r.1) left.flatten right.flatten := by
  rw [map_flatten] at hL hR
  obtain ⟨J, hJ, hsent⟩ := executeJoin_spec p E.hasNulls _ _ hL hR
  refine ⟨J, hJ, ?_⟩
  rw [hsent, ← map_flatten, ← map_flatten, sideRows_keyed]

end OneSideJoiner

open OneSideJoiner

lemma tagJoin_semi {β γ : Type} (m : β → γ → Bool) (semi : Bool) (as : List β) (bs : List γ) :
    (tagJoin m (fun b => if b then (if semi then some () else none) else (if semi then none else some ())) as bs).map
      Prod.fst = as.filter fun a => bs.any (m a) == semi := by
  change _ = as.filter fun a => hasPartner m bs a == semi
  unfold tagJoin
  induction as with
  | nil => rfl
  | cons a as ih =>
    rw [filterMap_cons, filter_cons, ← ih]
    cases hasPartner m bs a <;> cases semi <;> rfl

lemma sideRows_semiJoiner (P : JoinerParams) (batchSize : ℕ) (left : List (Key κ × Row α lw))
    (right : List (Key κ × Row α rw)) :
    sideRows (SemiJoiner P batchSize) (fun l r => partners l.1 r.1) left right = relationalSemiJoin P left right := by
  have hrow : ∀ {w : ℕ}, (taggedRow (SemiJoiner P batchSize) : (Key κ × Row α w) × Unit → List (Option α)) =
      (fun x => x.2.toList) ∘ Prod.fst := by
    intro w
    funext x
    simp [taggedRow, SemiJoiner]
  unfold sideRows relationalSemiJoin
  simp only [hrow, ← map_map]
  cases hside : P.joinSide with
  | L =>
    simp only [SemiJoiner, hside]
    exact congrArg (map _) (tagJoin_semi _ P.semi left right)
  | R =>
    simp only [SemiJoiner, hside]
    exact congrArg (map _) (tagJoin_semi _ P.semi right left)

lemma sideRows_existenceJoiner (ofBool : Bool → α) (batchSize : ℕ) (left : List (Key κ × Row α lw))
    (right : List (Key κ × Row α rw)) :
    sideRows (ExistenceJoiner ofBool batchSize) (fun l r => partners l.1 r.1) left right =
      relationalExistenceJoin ofBool left right := by
  have htag : ∀ b, tagOf (ExistenceJoiner ofBool batchSize) b = some b := by
    intro b
    cases b <;> rfl
  unfold sideRows relationalExistenceJoin tagJoin
  simp only [htag, Option.map_some, filterMap_eq_map']
  simp only [map_map]
  rfl

/-- **Semi, anti and existence sort-merge joins are the relational ones.**  Whatever the batches of the two streams are,
the joiners end; they send the rows of the join side that belong to the result once each and in the order of the
stream. -/
theorem oneSideJoin_correct (E : KeyEncoding κ) (ofBool : Bool → α) (batchSize : ℕ)
    (left : List (List (Key κ × Row α lw))) (right : List (List (Key κ × Row α rw)))
    (hL : SortedByKey (left.flatten.map E.keyed)) (hR : SortedByKey (right.flatten.map E.keyed)) :
    (∀ P : JoinerParams, ∃ J, executeJoin (SemiJoiner P batchSize) E.hasNulls (left.map (·.map E.keyed))
        (right.map (·.map E.keyed)) = some J ∧
      J.sent.flatten = relationalSemiJoin P left.flatten right.flatten) ∧
    (∃ J, executeJoin (ExistenceJoiner ofBool batchSize) E.hasNulls (left.map (·.map E.keyed))
        (right.map (·.map E.keyed)) = some J ∧
      J.sent.flatten = relationalExistenceJoin ofBool left.flatten right.flatten) := by
  constructor
  · intro P
    rw [← sideRows_semiJoiner P batchSize]
    exact executeJoin_keyed E (SemiJoiner P batchSize) left right hL hR
  · rw [← sideRows_existenceJoiner ofBool batchSize]
    exact executeJoin_keyed E (ExistenceJoiner ofBool batchSize) left right hL hR

end Correct

/-- A left run that spans batches, and null keys on both sides: the existence join flags the two rows of the run. -/
theorem oneSideJoin_correct_bytes :
    (∃ J, OneSideJoiner.executeJoin (SemiJoiner leftAnti 1) byteKeys.hasNulls
        ([[(fun _ => none, #v[some 1]), (fun _ => some 5, #v[some 2])], [], [(fun _ => some 5, #v[some 3])]].map
          (·.map byteKeys.keyed))
        ([[(fun _ => none, #v[some 7])], [(fun _ => some 5, #v[some 8])]].map (·.map byteKeys.keyed)) = some J ∧
      J.sent.flatten = [[some (1 : ℕ)]]) ∧
    (∃ J, OneSideJoiner.executeJoin (ExistenceJoiner (fun b => cond b 1 0) 1) byteKeys.hasNulls
        ([[(fun _ => none, #v[some 1]), (fun _ => some 5, #v[some 2])], [], [(fun _ => some 5, #v[some 3])]].map
          (·.map byteKeys.keyed))
        ([[(fun _ => none, #v[some 7])], [(fun _ => some 5, #v[some 8])]].map (·.map byteKeys.keyed)) = some J ∧
      J.sent.flatten = [[some (1 : ℕ), some 0], [some 2, some 1], [some 3, some 1]]) := by
  exact ⟨(oneSideJoin_correct byteKeys (fun b => cond b 1 0) 1 _ _ (by decide) (by decide)).1 leftAnti,
    (oneSideJoin_correct byteKeys _ 1 _ _ (by decide) (by decide)).2⟩

end Auron.Joins.Smj
