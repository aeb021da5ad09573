import Auron.Io.Bytes
import Auron.Lib.Gather
import Mathlib.Data.List.Infix

/-!
# The cursor over a sorted stream of batches (`joins/stream_cursor.rs`)

A `StreamCursor` walks over a stream of batches whose rows come with their encoded keys.  It keeps the batches a joiner
may still refer to by index; in front of them always stands a batch of one row, all null, so that the index (0, 0) means
the null row.  `next` moves one row and polls the stream at the end of a batch, passing over empty batches;
`cleanOutDatedBatches` drops the batches before the current one.

`Rep c buf rem` says what a cursor stands for: it has buffered the batches `buf`, and the rows from the current one on
are `rem`.  Each operation has one lemma over it.  An index is read through `At`, which `next` keeps (`At.mono`) and
`cleanOutDatedBatches` does not: what is still referred to has to be flushed before.

A function returns `none` where the source panics: an index out of range.
-/

namespace Auron.Joins

open Auron.Io Auron.Lib List

variable {ρ : Type}

abbrev Idx := ℕ × ℕ

/-- `StreamCursor`.  The batches of the stream come with the encoded key of each row (`RecordBatchWithKeyRows`). -/
structure StreamCursor (ρ : Type) where
  stream : List (List (Bytes × ρ))
  /-- `RowNullChecker::has_nulls` on one encoded key. -/
  keyNullChecker : Bytes → Bool
  batches : List (List ρ)
  curIdx : Idx
  keys : List (List Bytes)
  /-- The null buffers, a null marked by `true`. -/
  keyHasNulls : List (Option (List Bool))
  finished : Bool

namespace StreamCursor

def tryNew (stream : List (List (Bytes × ρ))) (keyNullChecker : Bytes → Bool) (nullRow : ρ) : StreamCursor ρ where
  stream := stream
  keyNullChecker := keyNullChecker
  batches := [[nullRow]]
  curIdx := (0, 0)
  keys := [[]]
  keyHasNulls := [some [true]]
  finished := false

/-- The null buffer of a batch, dropped when it has no nulls. -/
def nullBuffer (keyNullChecker : Bytes → Bool) (batch : List (Bytes × ρ)) : Option (List Bool) :=
  let nb := batch.map fun x => keyNullChecker x.1
  if nb.any id then some nb else none

/-- The future of `next`: polls the stream until a batch with rows comes, or the stream ends. -/
def poll (c : StreamCursor ρ) : List (List (Bytes × ρ)) → StreamCursor ρ
  | [] => { c with stream := [], finished := true }
  | batch :: stream =>
    if batch.isEmpty then c.poll stream
    else
      { c with
        stream := stream
        batches := c.batches ++ [batch.map Prod.snd]
        keyHasNulls := c.keyHasNulls ++ [nullBuffer c.keyNullChecker batch]
        keys := c.keys ++ [batch.map Prod.fst] }

def nextIdx (idx : Idx) (numRows : ℕ) : Idx := if numRows ≤ idx.2 + 1 then (idx.1 + 1, 0) else (idx.1, idx.2 + 1)

/-- `next`, its future awaited, as `cur_forward!` does. -/
def next (c : StreamCursor ρ) : Option (StreamCursor ρ) := do
  let batch ← c.batches[c.curIdx.1]?
  let c := { c with curIdx := nextIdx c.curIdx batch.length }
  if c.batches.length ≤ c.curIdx.1 then some (c.poll c.stream) else some c

def isNullKey (c : StreamCursor ρ) (idx : Idx) : Option Bool := do
  match ← c.keyHasNulls[idx.1]? with
  | some nb => nb[idx.2]?
  | none => some false

def key (c : StreamCursor ρ) (idx : Idx) : Option Bytes := at₂ c.keys idx

def curKey (c : StreamCursor ρ) : Option Bytes := c.key c.curIdx

def numBufferedBatches (c : StreamCursor ρ) : ℕ := c.batches.length - 1

/-- `v.splice(1..n, empty())`. -/
def spliceFront {γ : Type} (n : ℕ) (xs : List γ) : List γ := xs.take 1 ++ xs.drop n

def cleanOutDatedBatches (c : StreamCursor ρ) : StreamCursor ρ :=
  if 1 < c.curIdx.1 then
    { c with
      batches := spliceFront c.curIdx.1 c.batches
      keys := spliceFront c.curIdx.1 c.keys
      keyHasNulls := spliceFront c.curIdx.1 c.keyHasNulls
      curIdx := (1, c.curIdx.2) }
  else c

/-- A number of rows the cursor does not exceed any more: the bound on the rounds of a loop that moves it. -/
def rowsBound (c : StreamCursor ρ) : ℕ := c.batches.flatten.length + c.stream.flatten.length

end StreamCursor

/-- `Row::cmp`: the order of the encoded bytes. -/
def cmpRow (a b : Bytes) : Ordering := if a < b then .lt else if a = b then .eq else .gt

/-- `compare_cursor!`: a null key is smaller than any key of the other side. -/
def compareCursor {ρ1 ρ2 : Type} (c1 : StreamCursor ρ1) (c2 : StreamCursor ρ2) : Option Ordering := do
  if ← c1.isNullKey c1.curIdx then some .lt
  else if ← c2.isNullKey c2.curIdx then some .gt
  else
    let lkey ← c1.key c1.curIdx
    let rkey ← c2.key c2.curIdx
    some (cmpRow lkey rkey)

/-! ### What a cursor stands for -/

/-- The row an index points to, in the buffered batches; batch 0 is the null batch. -/
def At (buf : List (List (Bytes × ρ))) (idx : Idx) (x : Bytes × ρ) : Prop :=
  ∃ i, idx.1 = i + 1 ∧ at₂ buf (i, idx.2) = some x

/-- `c` has buffered the batches `buf`, and its rows from the current one on are `rem`. -/
structure Rep (hasNulls : Bytes → Bool) (nullRow : ρ) (c : StreamCursor ρ) (buf : List (List (Bytes × ρ)))
    (rem : List (Bytes × ρ)) : Prop where
  checker : c.keyNullChecker = hasNulls
  batches : c.batches = [nullRow] :: buf.map (·.map Prod.snd)
  keys : c.keys = [] :: buf.map (·.map Prod.fst)
  keyHasNulls : c.keyHasNulls = some [true] :: buf.map (StreamCursor.nullBuffer hasNulls)
  /-- The current batch is the last one; at the end of the stream the index is behind it. -/
  cur : (c.finished = true ∧ c.curIdx = (buf.length + 1, 0) ∧ c.stream = [] ∧ rem = []) ∨
    (c.finished = false ∧ ∃ pre batch j, buf = pre ++ [batch] ∧ c.curIdx = (pre.length + 1, j) ∧
      j < batch.length ∧ rem = batch.drop j ++ c.stream.flatten)

lemma At.mono {buf buf' : List (List (Bytes × ρ))} {idx : Idx} {x : Bytes × ρ} (h : At buf idx x)
    (hpre : buf <+: buf') : At buf' idx x := by
  obtain ⟨i, hi, hx⟩ := h
  refine ⟨i, hi, ?_⟩
  obtain ⟨_, rfl⟩ := hpre
  obtain ⟨_, hb, hx⟩ := Option.bind_eq_some_iff.1 hx
  have hlt : i < buf.length := lt_of_getElem? hb
  simp [at₂, getElem?_append_left hlt, hb, hx]

section Rep

variable {hasNulls : Bytes → Bool} {nullRow : ρ} {c : StreamCursor ρ} {buf : List (List (Bytes × ρ))}
  {rem : List (Bytes × ρ)} {x : Bytes × ρ} {idx : Idx}

/-! ### Reading -/

lemma Rep.finished_eq (h : Rep hasNulls nullRow c buf rem) : c.finished = rem.isEmpty := by
  rcases h.cur with ⟨hf, -, -, rfl⟩ | ⟨hf, pre, batch, j, -, -, hj, rfl⟩
  · simp [hf]
  · have : batch.drop j ≠ [] := by simp [hj]
    simp [hf, this]

lemma Rep.at_cur (h : Rep hasNulls nullRow c buf (x :: rem)) : At buf c.curIdx x := by
  rcases h.cur with ⟨-, -, -, hrem⟩ | ⟨-, pre, batch, j, rfl, hidx, hj, hrem⟩
  · cases hrem
  · refine ⟨pre.length, by rw [hidx], ?_⟩
    rw [drop_eq_getElem_cons hj, cons_append, cons.injEq] at hrem
    simp [at₂, hidx, hrem.1]

lemma Rep.key_at (h : Rep hasNulls nullRow c buf rem) (hx : At buf idx x) : c.key idx = some x.1 := by
  obtain ⟨i, hi, hx⟩ := hx
  obtain ⟨_, hb, hx⟩ := Option.bind_eq_some_iff.1 hx
  simp [StreamCursor.key, at₂, h.keys, hi, hb, hx]

lemma Rep.curKey_eq (h : Rep hasNulls nullRow c buf (x :: rem)) : c.curKey = some x.1 := h.key_at h.at_cur

section Reading

variable (h : Rep hasNulls nullRow c buf rem)

include h

lemma Rep.row_at (hx : At buf idx x) : at₂ c.batches idx = some x.2 := by
  obtain ⟨i, hi, hx⟩ := hx
  obtain ⟨_, hb, hx⟩ := Option.bind_eq_some_iff.1 hx
  simp [at₂, h.batches, hi, hb, hx]

lemma Rep.row_null : at₂ c.batches (0, 0) = some nullRow := by
  simp [at₂, h.batches]

lemma Rep.isNullKey_at (hx : At buf idx x) : c.isNullKey idx = some (hasNulls x.1) := by
  obtain ⟨i, hi, hx⟩ := hx
  obtain ⟨batch, hb, hx⟩ := Option.bind_eq_some_iff.1 hx
  have hget : c.keyHasNulls[idx.1]? = some (StreamCursor.nullBuffer hasNulls batch) := by
    simp [h.keyHasNulls, hi, hb]
  simp only [StreamCursor.isNullKey, hget, Option.bind_eq_bind]
  unfold StreamCursor.nullBuffer
  by_cases hany : (batch.map fun x => hasNulls x.1).any id = true
  · simp [hany, hx]
  · -- without a null in the batch the buffer is dropped
    have hnone : hasNulls x.1 = false := by
      simp only [any_map, any_eq_true, Function.comp, not_exists, not_and] at hany
      simpa using hany x (mem_of_getElem? hx)
    simp [hany, hnone]

lemma Rep.length_le : rem.length ≤ c.rowsBound := by
  rcases h.cur with ⟨-, -, -, rfl⟩ | ⟨-, pre, batch, j, rfl, -, hj, rfl⟩
  · simp
  · unfold StreamCursor.rowsBound
    rw [h.batches]
    simp only [length_append, length_drop, map_append, map_cons, map_nil, flatten_cons,
      flatten_append, length_map, flatten_nil, length_cons]
    omega

end Reading

/-! ### Moving -/

lemma poll_spec (c : StreamCursor ρ) (buf stream : List (List (Bytes × ρ))) (hchecker : c.keyNullChecker = hasNulls)
    (hbatches : c.batches = [nullRow] :: buf.map (·.map Prod.snd)) (hkeys : c.keys = [] :: buf.map (·.map Prod.fst))
    (hnulls : c.keyHasNulls = some [true] :: buf.map (StreamCursor.nullBuffer hasNulls))
    (hidx : c.curIdx = (buf.length + 1, 0)) (hf : c.finished = false) :
    ∃ buf', Rep hasNulls nullRow (c.poll stream) buf' stream.flatten ∧ buf <+: buf' := by
  induction stream with
  | nil => exact ⟨buf, ⟨hchecker, hbatches, hkeys, hnulls, .inl ⟨rfl, hidx, rfl, rfl⟩⟩, prefix_rfl⟩
  | cons batch stream ih =>
    unfold StreamCursor.poll
    by_cases hempty : batch.isEmpty
    · rw [isEmpty_iff.1 hempty]
      exact ih
    · rw [if_neg hempty]
      refine ⟨buf ++ [batch], ⟨hchecker, ?_, ?_, ?_, .inr ⟨hf, buf, batch, 0, rfl, hidx, ?_, ?_⟩⟩,
        prefix_append _ _⟩
      · simp [hbatches]
      · simp [hkeys]
      · simp [hnulls, hchecker]
      · exact length_pos_iff.2 fun h => hempty (by simp [h])
      · simp

lemma tryNew_next (stream : List (List (Bytes × ρ))) (hasNulls : Bytes → Bool) (nullRow : ρ) :
    ∃ c buf, (StreamCursor.tryNew stream hasNulls nullRow).next = some c ∧
      Rep hasNulls nullRow c buf stream.flatten := by
  obtain ⟨buf', hrep, -⟩ := poll_spec { StreamCursor.tryNew stream hasNulls nullRow with curIdx := (1, 0) } [] stream
    rfl rfl rfl rfl rfl rfl
  exact ⟨_, buf', rfl, hrep⟩

/-- **`next` moves to the row after the current one and keeps the buffered batches.** -/
theorem Rep.next (h : Rep hasNulls nullRow c buf (x :: rem)) :
    ∃ c' buf', c.next = some c' ∧ Rep hasNulls nullRow c' buf' rem ∧ buf <+: buf' := by
  rcases h.cur with ⟨-, -, -, hrem⟩ | ⟨hf, pre, batch, j, hbuf, hidx, hj, hrem⟩
  · cases hrem
  have hbatch : c.batches[pre.length + 1]? = some (batch.map Prod.snd) := by
    simp [h.batches, hbuf]
  have hrem' : rem = batch.drop (j + 1) ++ c.stream.flatten := by
    rw [drop_eq_getElem_cons hj, cons_append, cons.injEq] at hrem
    exact hrem.2
  have hlen : c.batches.length = pre.length + 2 := by simp [h.batches, hbuf]
  by_cases hlast : batch.length ≤ j + 1
  · -- the end of the last batch
    have hnext : c.next = some (({ c with curIdx := (pre.length + 2, 0) } : StreamCursor ρ).poll c.stream) := by
      simp only [StreamCursor.next, hidx, hbatch, Option.bind_eq_bind, Option.bind_some, StreamCursor.nextIdx,
        length_map, if_pos hlast, hlen, le_refl, if_true]
    obtain ⟨buf', hrep, hpre⟩ := poll_spec { c with curIdx := (pre.length + 2, 0) } buf c.stream
      h.checker h.batches h.keys h.keyHasNulls (by simp [hbuf]) hf
    rw [drop_eq_nil_of_le hlast] at hrem'
    exact ⟨_, buf', hnext, hrem' ▸ hrep, hpre⟩
  · have hnext : c.next = some { c with curIdx := (pre.length + 1, j + 1) } := by
      simp only [StreamCursor.next, hidx, hbatch, Option.bind_eq_bind, Option.bind_some, StreamCursor.nextIdx,
        length_map, if_neg hlast]
      rw [if_neg (by omega)]
    refine ⟨_, buf, hnext, ⟨h.checker, h.batches, h.keys, h.keyHasNulls, .inr ⟨hf, pre, batch, j + 1, hbuf, rfl, ?_,
      hrem'⟩⟩, prefix_rfl⟩
    omega

lemma spliceFront_cons_append {γ : Type} (x : γ) (pre post : List γ) :
    StreamCursor.spliceFront (pre.length + 1) (x :: (pre ++ post)) = x :: post := by
  simp [StreamCursor.spliceFront]

/-- **Dropping the batches before the current one changes no row from the current one on.** -/
theorem Rep.clean (h : Rep hasNulls nullRow c buf rem) :
    ∃ buf', Rep hasNulls nullRow c.cleanOutDatedBatches buf' rem := by
  unfold StreamCursor.cleanOutDatedBatches
  split
  · rcases h.cur with ⟨hf, hidx, hs, hrem⟩ | ⟨hf, pre, batch, j, rfl, hidx, hj, hrem⟩
    · refine ⟨[], ⟨h.checker, ?_, ?_, ?_, .inl ⟨hf, by simp [hidx], hs, hrem⟩⟩⟩
      · simpa [h.batches, hidx] using spliceFront_cons_append [nullRow] (buf.map (·.map Prod.snd)) []
      · simpa [h.keys, hidx] using spliceFront_cons_append [] (buf.map (·.map Prod.fst)) []
      · simpa [h.keyHasNulls, hidx] using
          spliceFront_cons_append (some [true]) (buf.map (StreamCursor.nullBuffer hasNulls)) []
    · refine ⟨[batch], ⟨h.checker, ?_, ?_, ?_, .inr ⟨hf, [], batch, j, rfl, by simp [hidx], hj, hrem⟩⟩⟩
      · simpa [h.batches, hidx] using
          spliceFront_cons_append [nullRow] (pre.map (·.map Prod.snd)) [batch.map Prod.snd]
      · simpa [h.keys, hidx] using
          spliceFront_cons_append [] (pre.map (·.map Prod.fst)) [batch.map Prod.fst]
      · simpa [h.keyHasNulls, hidx] using spliceFront_cons_append (some [true])
          (pre.map (StreamCursor.nullBuffer hasNulls)) [StreamCursor.nullBuffer hasNulls batch]
  · exact ⟨buf, h⟩

end Rep

end Auron.Joins
