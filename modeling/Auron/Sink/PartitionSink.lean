import Auron.Lib.Shares
import Mathlib.Algebra.GroupWithZero.Nat
import Mathlib.Data.Vector.Defs

/-!
# The parquet and ORC sinks with dynamic partitions

`execute_parquet_sink` and `execute_orc_sink` write a stream of batches into one file for each tuple of partition values.
The loop over a batch is the same in both: look at the partition values of the head row; if the open writer is of other
values, close it, announce the head row downstream, open a new one and look again; otherwise cut the batch behind the last
row of these values, searched from the back, and write the cut in sub-batches.  `PartSink` is what the loop needs of a
writer.  The parquet sink holds its `PartWriter` itself; the ORC sink sends commands to a worker thread that holds it.

The search from the back would swallow the rows of other partitions that stand between two rows of one partition.
On a stream that is clustered by its partition values there are none, and both sinks write each row once, into the file of
its partition (`executeSinks_spec`).

The writers of parquet and ORC files are parameters with the law that they store what they are given; the paths of the
output files come from the JVM, one for each call.
-/

namespace Auron.Sink

open Auron.Lib
open List hiding Vector

/-! ### The context of a sink -/

/-- `ParquetSinkContext` and `OrcSinkContext`, with what they get from outside. -/
structure SinkContext (V : Type) (n : ℕ) where
  /-- The partition columns are the last ones. -/
  numDynParts : ℕ
  numDynParts_le : numDynParts ≤ n
  /-- The casts of `adapt_schema`, one for each column of the schema of the file. -/
  casts : List (V → V)
  casts_length : casts.length = n - numDynParts
  /-- The answer to the given call of `getTaskOutputPath`. -/
  taskOutputPath : ℕ → String
  /-- `get_batch_mem_size` -/
  batchMemSize : List (Vector V n) → ℕ

inductive SinkError
  /-- `df_execution_err!` with a text of its own -/
  | execution (message : String)
  /-- `df_execution_err!` with a text in front of that of another error -/
  | caused (message : String)
  /-- a row index outside of the batch -/
  | rowIndex
  | outOfFuel
  deriving DecidableEq, Repr

/-- What a closed file holds, and what is reported for it. -/
structure PartFileStat (V : Type) where
  path : String
  numRows : ℕ
  stored : List (List V)

inductive Event (V : Type) (n : ℕ)
  /-- the batch sent downstream -/
  | announce (batch : List (Vector V n))
  /-- a file is created -/
  | opened (path : String) (partValues : List V)
  /-- `completeOutput` -/
  | completed (stat : PartFileStat V)

structure Outside (V : Type) (n : ℕ) where
  numPaths : ℕ := 0
  log : List (Event V n) := []

variable {V : Type} {n : ℕ}

/-- The JVM answers a call of `getTaskOutputPath`, and the file is created. -/
def Outside.create (ctx : SinkContext V n) (o : Outside V n) (partValues : List V) : String × Outside V n :=
  let path := ctx.taskOutputPath o.numPaths
  (path, ⟨o.numPaths + 1, o.log ++ [.opened path partValues]⟩)

def Outside.emit (o : Outside V n) (e : Event V n) : Outside V n := { o with log := o.log ++ [e] }

/-! ### The loop over the batches -/

def getDynPartValues (batch : List (Vector V n)) (numDynParts rowIdx : ℕ) : Except SinkError (List V) :=
  match batch[rowIdx]? with
  | some row => .ok (row.toList.drop (n - numDynParts))
  | none => .error .rowIndex

/-- The rows below the given index, searched from the back. -/
def rfindLoop [DecidableEq V] (batch : List (Vector V n)) (partValues : List V) : ℕ → Except SinkError ℕ
  | 0 => .ok 0
  | rowIdx + 1 => do
    if (← getDynPartValues batch partValues.length rowIdx) = partValues then
      return rowIdx + 1
    rfindLoop batch partValues rowIdx

def rfindPartValues [DecidableEq V] (batch : List (Vector V n)) (partValues : List V) : Except SinkError ℕ :=
  rfindLoop batch partValues batch.length

/-- `adapt_schema`: the columns of the schema of the file, casted. -/
def adaptSchema (ctx : SinkContext V n) (batch : List (Vector V n)) : List (List V) :=
  batch.map fun row => zipWith (fun cast v => cast v) ctx.casts row.toList

structure PartSink (V : Type) (n : ℕ) (σ : Type) where
  activePartValues : σ → Option (List V)
  /-- `part_writer_close!` -/
  close : σ → Except SinkError σ
  /-- `part_writer_init!` -/
  init : List (Vector V n) → List V → σ → Except SinkError σ
  write : List (List V) → σ → Except SinkError σ

variable {σ : Type}

/-- Writes the rows from `offset` on in sub-batches. -/
def writeLoop (sink : PartSink V n σ) (numSubBatchRows : ℕ) (curBatch : List (List V)) : ℕ → ℕ → σ → Except SinkError σ
  | fuel, offset, s =>
    if offset < curBatch.length then
      match fuel with
      | 0 => .error .outOfFuel
      | fuel + 1 => do
        let subBatchSize := min numSubBatchRows (curBatch.length - offset)
        let s ← sink.write ((curBatch.drop offset).take subBatchSize) s
        writeLoop sink numSubBatchRows curBatch fuel (offset + subBatchSize) s
    else .ok s

/-- The size of the sub-batches: about a megabyte, and 16 rows at least. -/
def subBatchRows (ctx : SinkContext V n) (batch : List (Vector V n)) : ℕ :=
  let numSubBatches := max (ctx.batchMemSize batch / 1048576) 1
  max (batch.length / numSubBatches) 16

/-- The inner loop, `while batch.num_rows() > 0`. -/
def batchLoop [DecidableEq V] (ctx : SinkContext V n) (sink : PartSink V n σ) :
    ℕ → List (Vector V n) → σ → Except SinkError σ
  | _, [], s => .ok s
  | 0, _ :: _, _ => .error .outOfFuel
  | fuel + 1, batch, s => do
    let partValues ← getDynPartValues batch ctx.numDynParts 0
    if sink.activePartValues s ≠ some partValues then
      let s ← sink.close s
      let s ← sink.init batch partValues s
      batchLoop ctx sink fuel batch s
    else
      let m ← rfindPartValues batch partValues
      let curBatch := adaptSchema ctx (batch.take m)
      let s ← writeLoop sink (subBatchRows ctx batch) curBatch curBatch.length 0 s
      batchLoop ctx sink fuel (batch.drop m) s

def streamLoop [DecidableEq V] (ctx : SinkContext V n) (sink : PartSink V n σ) :
    List (List (Vector V n)) → σ → Except SinkError σ
  | [], s => .ok s
  | batch :: batches, s => do
    if batch.length = 0 then
      streamLoop ctx sink batches s
    else
      let s ← batchLoop ctx sink (2 * batch.length) batch s
      streamLoop ctx sink batches s

/-! ### The parquet sink -/

/-- A file writer, by what it has stored. -/
structure FileWriter (R : Type) where
  State : Type
  new : State
  write : List R → State → State
  stored : State → List R
  stored_new : stored new = []
  stored_write : ∀ rows s, stored (write rows s) = stored s ++ rows

/-- The `ArrowWriter` of parquet: rows are buffered until a flush makes a row group of them. -/
structure ParquetFileWriter (R : Type) extends FileWriter R where
  flush : State → State
  inProgressSize : State → ℕ
  /-- The numbers of rows of the row groups. -/
  flushedRowGroups : State → List ℕ
  stored_flush : ∀ s, stored (flush s) = stored s
  sum_flushedRowGroups_flush : ∀ s, (flushedRowGroups (flush s)).sum = (stored s).length

namespace Parquet

structure PartWriter (V : Type) (W : ParquetFileWriter (List V)) where
  path : String
  parquetWriter : W.State
  partValues : List V

structure State (V : Type) (n : ℕ) (W : ParquetFileWriter (List V)) where
  partWriter : Option (PartWriter V W) := none
  outside : Outside V n := {}

variable {W : ParquetFileWriter (List V)}

def PartWriter.write (rowGroupBlockSize : ℕ) (batch : List (List V)) (w : PartWriter V W) : PartWriter V W :=
  let written := W.write batch w.parquetWriter
  { w with parquetWriter := if rowGroupBlockSize ≤ W.inProgressSize written then W.flush written else written }

def PartWriter.close (w : PartWriter V W) : PartFileStat V :=
  let flushed := W.flush w.parquetWriter
  { path := w.path, numRows := (W.flushedRowGroups flushed).sum, stored := W.stored flushed }

/-- `part_writer_close!` -/
def close (s : State V n W) : Except SinkError (State V n W) :=
  match s.partWriter with
  | none => .ok s
  | some w => .ok { partWriter := none, outside := s.outside.emit (.completed w.close) }

def init (ctx : SinkContext V n) (batch : List (Vector V n)) (partValues : List V) (s : State V n W) :
    Except SinkError (State V n W) :=
  let outside := s.outside.emit (.announce (batch.take 1))
  let (path, outside) := outside.create ctx partValues
  .ok { partWriter := some ⟨path, W.new, partValues⟩, outside := outside }

/-- The write of a sub-batch, in a blocking task; the panic of a missing writer ends the task. -/
def write (rowGroupBlockSize : ℕ) (subBatch : List (List V)) (s : State V n W) : Except SinkError (State V n W) :=
  match s.partWriter with
  | none => .error (.caused "writing parquet file error: ")
  | some w => .ok { s with partWriter := some (w.write rowGroupBlockSize subBatch) }

def sink (ctx : SinkContext V n) (W : ParquetFileWriter (List V)) (rowGroupBlockSize : ℕ) :
    PartSink V n (State V n W) where
  activePartValues s := s.partWriter.map (·.partValues)
  close := close
  init := init ctx
  write := write rowGroupBlockSize

end Parquet

def executeParquetSink [DecidableEq V] (ctx : SinkContext V n) (W : ParquetFileWriter (List V)) (rowGroupBlockSize : ℕ)
    (input : List (List (Vector V n))) : Except SinkError (List (Event V n)) := do
  let s ← streamLoop ctx (Parquet.sink ctx W rowGroupBlockSize) input {}
  let s ← Parquet.close s
  return s.outside.log

/-! ### The ORC sink -/

namespace Orc

structure PartWriter (V : Type) (W : FileWriter (List V)) where
  path : String
  orcWriter : W.State
  partValues : List V
  rowsWritten : ℕ

variable {W : FileWriter (List V)}

def PartWriter.write (batch : List (List V)) (w : PartWriter V W) : PartWriter V W :=
  { w with orcWriter := W.write batch w.orcWriter, rowsWritten := w.rowsWritten + batch.length }

def PartWriter.close (w : PartWriter V W) : PartFileStat V :=
  { path := w.path, numRows := w.rowsWritten, stored := W.stored w.orcWriter }

inductive PartWriterCommand (V : Type)
  | opening (partValues : List V)
  | write (batch : List (List V))
  | close
  | shutdown

/-- The worker thread: its writer while it runs, nothing when it has ended. -/
abbrev Worker (V : Type) (W : FileWriter (List V)) := Option (Option (PartWriter V W))

structure State (V : Type) (n : ℕ) (W : FileWriter (List V)) where
  activePartValues : Option (List V) := none
  worker : Worker V W := some none
  outside : Outside V n := {}

variable (ctx : SinkContext V n)

/-- One round of `part_writer_worker_loop`: the answer to a command, and the thread behind it. -/
def workerStep (partWriter : Option (PartWriter V W)) (outside : Outside V n) :
    PartWriterCommand V → Except SinkError (Option (PartFileStat V) × Worker V W × Outside V n)
  | .opening partValues =>
    match partWriter with
    | some _ => .error (.execution "opening orc file error: partition writer already open")
    | none =>
      let (path, outside) := outside.create ctx partValues
      .ok (none, some (some ⟨path, W.new, partValues, 0⟩), outside)
  | .write batch =>
    match partWriter with
    | some w => .ok (none, some (some (w.write batch)), outside)
    | none => .error (.execution "writing orc file error: missing partition writer")
  | .close => .ok (partWriter.map PartWriter.close, some none, outside)
  -- the answer does not hold the file, and the loop is left
  | .shutdown => .ok (none, none, outside)

/-- Sends a command to the worker and waits for the answer; `doing` is the first word of the errors. -/
def request (doing : String) (command : PartWriterCommand V) (s : State V n W) :
    Except SinkError (Option (PartFileStat V) × State V n W) :=
  match s.worker with
  | none => .error (.caused (doing ++ " orc writer command error: "))
  | some partWriter => do
    let (answer, worker, outside) ← workerStep ctx partWriter s.outside command
    return (answer, { s with worker := worker, outside := outside })

/-- `part_writer_close!` -/
def close (s : State V n W) : Except SinkError (State V n W) :=
  match s.activePartValues with
  | none => .ok s
  | some _ => do
    let (fileStat, s) ← request ctx "closing" .close { s with activePartValues := none }
    match fileStat with
    | some fileStat => return { s with outside := s.outside.emit (.completed fileStat) }
    | none => return s

def init (batch : List (Vector V n)) (partValues : List V) (s : State V n W) : Except SinkError (State V n W) := do
  let s := { s with outside := s.outside.emit (.announce (batch.take 1)) }
  let (_, s) ← request ctx "opening" (.opening partValues) s
  return { s with activePartValues := some partValues }

def write (subBatch : List (List V)) (s : State V n W) : Except SinkError (State V n W) := do
  let (_, s) ← request ctx "writing" (.write subBatch) s
  return s

def sink (W : FileWriter (List V)) : PartSink V n (State V n W) where
  activePartValues := State.activePartValues
  close := close ctx
  init := init ctx
  write := write ctx

end Orc

def executeOrcSink [DecidableEq V] (ctx : SinkContext V n) (W : FileWriter (List V)) (input : List (List (Vector V n))) :
    Except SinkError (List (Event V n)) := do
  let s ← streamLoop ctx (Orc.sink ctx W) input {}
  let s ← Orc.close ctx s
  let (_, s) ← Orc.request ctx "shutting down" .shutdown s
  return s.outside.log

/-! ### Files of a stream -/

/-- A file of the output: the row announced for it, its partition values and its rows. -/
structure Part (V : Type) (n : ℕ) where
  path : String
  announced : List (Vector V n)
  partValues : List V
  stored : List (List V)

def Part.openEvents (p : Part V n) : List (Event V n) := [.announce p.announced, .opened p.path p.partValues]

def Part.events (p : Part V n) : List (Event V n) :=
  p.openEvents ++ [.completed { path := p.path, numRows := p.stored.length, stored := p.stored }]

def partKey (ctx : SinkContext V n) (row : Vector V n) : List V := row.toList.drop (n - ctx.numDynParts)

/-- The file of the rows of one partition; its number is that of the call for its path. -/
def partOf (ctx : SinkContext V n) (share : (List V × List (Vector V n)) × ℕ) : Part V n where
  path := ctx.taskOutputPath share.2
  announced := share.1.2.take 1
  partValues := share.1.1
  stored := adaptSchema ctx share.1.2

/-- The files a stream of rows should be written to: one for each tuple of partition values in the order of appearance,
with the rows of this tuple. -/
def expectedParts [DecidableEq V] (ctx : SinkContext V n) (rows : List (Vector V n)) : List (Part V n) :=
  (shares (partKey ctx) rows).zipIdx.map (partOf ctx)

section Expected

variable [DecidableEq V] (ctx : SinkContext V n)

lemma expectedParts_append_same {rows cut : List (Vector V n)} {l : Vector V n}
    (h : Clustered (partKey ctx) (rows ++ [l])) (hcut : ∀ row ∈ cut, partKey ctx row = partKey ctx l) :
    ∃ done p, expectedParts ctx (rows ++ [l]) = done ++ [p] ∧
      expectedParts ctx (rows ++ [l] ++ cut) = done ++ [{ p with stored := p.stored ++ adaptSchema ctx cut }] := by
  obtain ⟨pre, g, hbefore, hafter⟩ := h.shares_append_same hcut
  have hg : g ≠ [] := by
    have hmem : (partKey ctx l, g) ∈ shares (partKey ctx) (rows ++ [l]) := by simp [hbefore]
    obtain ⟨k, -, hk⟩ := mem_map.1 hmem
    obtain ⟨rfl, rfl⟩ := Prod.mk.inj hk
    exact ne_nil_of_mem (mem_filter.2 ⟨mem_append_right _ mem_cons_self, by simp⟩)
  refine ⟨pre.zipIdx.map (partOf ctx), partOf ctx ((partKey ctx l, g), pre.length), ?_, ?_⟩
  · simp [expectedParts, hbefore, zipIdx_append]
  · -- the row that was announced stays, since the share is not empty
    have htake : (g ++ cut).take 1 = g.take 1 := by
      obtain ⟨r, g, rfl⟩ := exists_cons_of_ne_nil hg
      simp
    rw [expectedParts, hafter]
    simp [zipIdx_append, partOf, htake, adaptSchema]

end Expected

/-! ### The search from the back -/

lemma length_partKey (ctx : SinkContext V n) (row : Vector V n) : (partKey ctx row).length = ctx.numDynParts := by
  have hle := ctx.numDynParts_le
  simp only [partKey, length_drop, Vector.length_toList]
  omega

lemma getDynPartValues_of_getElem? (ctx : SinkContext V n) {batch : List (Vector V n)} {i : ℕ} {row : Vector V n}
    (h : batch[i]? = some row) :
    getDynPartValues batch ctx.numDynParts i = .ok (partKey ctx row) := by
  simp [getDynPartValues, h, partKey]

section Search

variable [DecidableEq V] {ctx : SinkContext V n}

lemma rfindLoop_spec (row : Vector V n) (rest : List (Vector V n)) (i : ℕ) (hi : i < (row :: rest).length) :
    ∃ m last, rfindLoop (row :: rest) (partKey ctx row) (i + 1) = .ok (m + 1) ∧ (row :: rest)[m]? = some last ∧
      partKey ctx row = partKey ctx last := by
  induction i with
  | zero =>
    refine ⟨0, row, ?_, rfl, rfl⟩
    have hhead : (row :: rest)[0]? = some row := rfl
    rw [rfindLoop, length_partKey]
    exact if_pos rfl
  | succ i ih =>
    obtain ⟨r, hr⟩ : ∃ r, (row :: rest)[i + 1]? = some r := ⟨_, getElem?_eq_getElem hi⟩
    have hstep : rfindLoop (row :: rest) (partKey ctx row) (i + 1 + 1) =
        if partKey ctx r = partKey ctx row then .ok (i + 1 + 1)
        else rfindLoop (row :: rest) (partKey ctx row) (i + 1) := by
      rw [rfindLoop, length_partKey, getDynPartValues_of_getElem? ctx hr]
      rfl
    rw [hstep]
    by_cases heq : partKey ctx r = partKey ctx row
    · exact ⟨i + 1, r, if_pos heq, hr, heq.symm⟩
    · rw [if_neg heq]
      exact ih (by omega)

end Search

/-! ### Sinks that keep their files -/

/-- A sink that does with its files what the loop means it to: a state stands for the files that are finished and the one
that is open. -/
structure PartSink.Keeps (ctx : SinkContext V n) (sink : PartSink V n σ)
    (Files : σ → List (Part V n) → Option (Part V n) → Prop) : Prop where
  active : ∀ {s done cur}, Files s done cur → sink.activePartValues s = cur.map (·.partValues)
  close : ∀ {s done cur}, Files s done cur → ∃ s', sink.close s = .ok s' ∧ Files s' (done ++ cur.toList) none
  init : ∀ {s done} batch partValues, Files s done none → ∃ s', sink.init batch partValues s = .ok s' ∧
    Files s' done (some ⟨ctx.taskOutputPath done.length, batch.take 1, partValues, []⟩)
  write : ∀ {s done p} rows, Files s done (some p) → ∃ s', sink.write rows s = .ok s' ∧
    Files s' done (some { p with stored := p.stored ++ rows })

section Runs

variable {ctx : SinkContext V n} {sink : PartSink V n σ} {Files : σ → List (Part V n) → Option (Part V n) → Prop}
  {done : List (Part V n)} {s : σ} {p : Part V n}

lemma writeLoop_spec (hsink : sink.Keeps ctx Files) {size : ℕ} (hsize : 0 < size) (curBatch : List (List V))
    (fuel offset : ℕ) (hfuel : curBatch.length ≤ fuel + offset) (h : Files s done (some p)) :
    ∃ s', writeLoop sink size curBatch fuel offset s = .ok s' ∧
      Files s' done (some { p with stored := p.stored ++ curBatch.drop offset }) := by
  induction fuel generalizing offset s p with
  | zero =>
    refine ⟨s, ?_, ?_⟩
    · rw [writeLoop, if_neg (by omega)]
    · rw [drop_eq_nil_of_le (by omega), append_nil]
      exact h
  | succ fuel ih =>
    by_cases hlt : offset < curBatch.length
    · obtain ⟨_, hwrite, h1⟩ := hsink.write ((curBatch.drop offset).take (min size (curBatch.length - offset))) h
      obtain ⟨s2, hrest, h2⟩ := ih (offset + min size (curBatch.length - offset)) (by omega) h1
      refine ⟨s2, ?_, ?_⟩
      · rw [writeLoop, if_pos hlt]
        simp only [hwrite]
        exact hrest
      · simpa only [append_assoc, ← drop_drop, take_append_drop] using h2
    · refine ⟨s, ?_, ?_⟩
      · rw [writeLoop, if_neg hlt]
      · rw [drop_eq_nil_of_le (by omega), append_nil]
        exact h

lemma subBatchRows_pos (ctx : SinkContext V n) (batch : List (Vector V n)) : 0 < subBatchRows ctx batch := by
  simp only [subBatchRows]
  omega

variable [DecidableEq V] {row : Vector V n}

lemma batchLoop_write (hsink : sink.Keeps ctx Files) {rest : List (Vector V n)}
    (hclustered : Clustered (partKey ctx) (row :: rest)) (h : Files s done (some p))
    (hp : p.partValues = partKey ctx row) (fuel : ℕ) :
    ∃ m s', batchLoop ctx sink (fuel + 1) (row :: rest) s = batchLoop ctx sink fuel ((row :: rest).drop (m + 1)) s' ∧
      (∀ r ∈ (row :: rest).take (m + 1), partKey ctx r = partKey ctx row) ∧
      Files s' done (some { p with stored := p.stored ++ adaptSchema ctx ((row :: rest).take (m + 1)) }) := by
  obtain ⟨m, _, hfind, hlast, hkey⟩ := rfindLoop_spec row rest rest.length (Nat.lt_succ_self _)
  obtain ⟨s', hwrite, h'⟩ := writeLoop_spec hsink (subBatchRows_pos ctx (row :: rest))
    (adaptSchema ctx ((row :: rest).take (m + 1))) (adaptSchema ctx ((row :: rest).take (m + 1))).length 0 le_rfl h
  refine ⟨m, s', ?_, hclustered.take_of_getElem? hlast hkey, h'⟩
  have hactive : ¬ sink.activePartValues s ≠ some (partKey ctx row) := by
    rw [hsink.active h, Option.map_some, hp]
    exact not_not_intro rfl
  have hhead : (row :: rest)[0]? = some row := rfl
  simp only [batchLoop, getDynPartValues_of_getElem? ctx hhead, if_neg hactive, rfindPartValues, length_cons, hfind,
    hwrite, bind, Except.bind]

lemma batchLoop_switch (hsink : sink.Keeps ctx Files) (rest : List (Vector V n)) {cur : Option (Part V n)}
    (h : Files s done cur) (hcur : cur.map (·.partValues) ≠ some (partKey ctx row)) (fuel : ℕ) :
    ∃ s', batchLoop ctx sink (fuel + 1) (row :: rest) s = batchLoop ctx sink fuel (row :: rest) s' ∧
      Files s' (done ++ cur.toList)
        (some ⟨ctx.taskOutputPath (done ++ cur.toList).length, [row], partKey ctx row, []⟩) := by
  obtain ⟨_, hclose, h1⟩ := hsink.close h
  obtain ⟨s2, hinit, h2⟩ := hsink.init (row :: rest) (partKey ctx row) h1
  refine ⟨s2, ?_, h2⟩
  have hactive : sink.activePartValues s ≠ some (partKey ctx row) := by rwa [hsink.active h]
  have hhead : (row :: rest)[0]? = some row := rfl
  simp only [batchLoop, getDynPartValues_of_getElem? ctx hhead, if_pos hactive, hclose, hinit, bind, Except.bind]

/-- The state behind the rows `rows`: their files, of which the last one is open. -/
def Behind (ctx : SinkContext V n) (Files : σ → List (Part V n) → Option (Part V n) → Prop) (rows : List (Vector V n))
    (s : σ) : Prop :=
  ∃ done cur, Files s done cur ∧ done ++ cur.toList = expectedParts ctx rows ∧
    cur.map (·.partValues) = rows.getLast?.map (partKey ctx)

variable {rows : List (Vector V n)}

lemma Behind.same {cut : List (Vector V n)} {l : Vector V n} (hclustered : Clustered (partKey ctx) (rows ++ [l]))
    (hcut : ∀ r ∈ cut, partKey ctx r = partKey ctx l) {s' : σ}
    (hparts : done ++ [p] = expectedParts ctx (rows ++ [l])) (hp : p.partValues = partKey ctx l)
    (h : Files s' done (some { p with stored := p.stored ++ adaptSchema ctx cut })) :
    Behind ctx Files (rows ++ [l] ++ cut) s' := by
  obtain ⟨_, _, hbefore, hafter⟩ := expectedParts_append_same ctx hclustered hcut
  obtain ⟨rfl, hpp'⟩ := append_inj' (hparts.trans hbefore) rfl
  obtain rfl := singleton_inj.1 hpp'
  refine ⟨done, _, h, hafter.symm, ?_⟩
  rcases eq_nil_or_concat cut with rfl | ⟨cut, c, rfl⟩
  · simp [hp]
  · have hc : partKey ctx c = partKey ctx l := hcut c (by simp)
    rw [concat_eq_append, ← append_assoc, getLast?_concat]
    simp [hp, hc]

lemma Behind.new {cut : List (Vector V n)} {k : List V} (hk : k ∉ rows.map (partKey ctx)) (hne : cut ≠ [])
    (hcut : ∀ r ∈ cut, partKey ctx r = k) {s' : σ}
    (h : Files s' (expectedParts ctx rows)
      (some ⟨ctx.taskOutputPath (expectedParts ctx rows).length, cut.take 1, k, adaptSchema ctx cut⟩)) :
    Behind ctx Files (rows ++ cut) s' := by
  refine ⟨_, _, h, by simp [expectedParts, shares_append_new hk hne hcut, zipIdx_append, partOf], ?_⟩
  obtain ⟨cut, c, rfl⟩ := (eq_nil_or_concat cut).resolve_left hne
  have hc : partKey ctx c = k := hcut c (by simp)
  simp [hc]

/-- The head row is written in two rounds at most, with all that the search cuts off behind it. -/
lemma batchLoop_rounds (hsink : sink.Keeps ctx Files) {rest : List (Vector V n)}
    (hclustered : Clustered (partKey ctx) (rows ++ row :: rest)) (h : Behind ctx Files rows s) (fuel : ℕ) :
    ∃ m fuel' s', batchLoop ctx sink (fuel + 2) (row :: rest) s =
        batchLoop ctx sink fuel' ((row :: rest).drop (m + 1)) s' ∧
      fuel ≤ fuel' ∧ Behind ctx Files (rows ++ (row :: rest).take (m + 1)) s' := by
  obtain ⟨_, cur, hfiles, hparts, hlast⟩ := h
  by_cases hcur : cur.map (·.partValues) = some (partKey ctx row)
  · -- the open writer is that of the last row, which is of the same partition
    obtain ⟨p, rfl, hp⟩ := Option.map_eq_some_iff.1 hcur
    obtain ⟨l, hl, hkey⟩ := Option.map_eq_some_iff.1 (hlast.symm.trans hcur)
    obtain ⟨rows, rfl⟩ := getLast?_eq_some_iff.1 hl
    obtain ⟨m, s', hloop, hcut, hfiles⟩ := batchLoop_write hsink hclustered.right hfiles hp (fuel + 1)
    rw [← hkey] at hcut
    exact ⟨m, fuel + 1, s', hloop, by omega, .same hclustered.left hcut hparts (hp.trans hkey.symm) hfiles⟩
  · have hnew : partKey ctx row ∉ rows.map (partKey ctx) := by
      rcases eq_nil_or_concat rows with rfl | ⟨rows, l, rfl⟩
      · simp
      · rw [concat_eq_append] at hclustered hlast ⊢
        have hne : partKey ctx row ≠ partKey ctx l := by
          intro heq
          rw [hlast, getLast?_concat, heq] at hcur
          exact hcur rfl
        rw [append_assoc] at hclustered
        exact hclustered.notMem_of_ne hne
    obtain ⟨_, hswitch, hfiles⟩ := batchLoop_switch hsink rest hfiles hcur (fuel + 1)
    obtain ⟨m, s', hloop, hcut, hfiles⟩ := batchLoop_write hsink hclustered.right hfiles rfl fuel
    rw [hparts] at hfiles
    exact ⟨m, fuel, s', hswitch.trans hloop, le_rfl, .new hnew (by simp) hcut hfiles⟩

/-- **The loop over a batch** adds the rows of the batch, by induction on the number of rows that are left. -/
theorem batchLoop_spec (hsink : sink.Keeps ctx Files) (fuel : ℕ) (batch : List (Vector V n))
    (hfuel : 2 * batch.length ≤ fuel) {rows : List (Vector V n)} (hclustered : Clustered (partKey ctx) (rows ++ batch))
    {s : σ} (h : Behind ctx Files rows s) :
    ∃ s', batchLoop ctx sink fuel batch s = .ok s' ∧ Behind ctx Files (rows ++ batch) s' := by
  match batch with
  | [] => exact ⟨s, by simp [batchLoop], by simpa using h⟩
  | row :: rest =>
    obtain ⟨fuel, rfl⟩ : ∃ f, fuel = f + 2 := ⟨fuel - 2, by simp at hfuel; omega⟩
    obtain ⟨m, fuel', _, hloop, _, h1⟩ := batchLoop_rounds hsink hclustered h fuel
    have hrows : rows ++ (row :: rest).take (m + 1) ++ (row :: rest).drop (m + 1) = rows ++ row :: rest := by
      rw [append_assoc, take_append_drop]
    have hfuel' : 2 * ((row :: rest).drop (m + 1)).length ≤ fuel' := by
      simp only [length_drop, length_cons] at hfuel ⊢
      omega
    obtain ⟨s2, hrest, h2⟩ := batchLoop_spec hsink fuel' ((row :: rest).drop (m + 1)) hfuel' (hrows ▸ hclustered) h1
    exact ⟨s2, hloop.trans hrest, hrows ▸ h2⟩
termination_by batch.length

lemma streamLoop_spec (hsink : sink.Keeps ctx Files) (batches : List (List (Vector V n)))
    (hclustered : Clustered (partKey ctx) (rows ++ batches.flatten)) (h : Behind ctx Files rows s) :
    ∃ s', streamLoop ctx sink batches s = .ok s' ∧ Behind ctx Files (rows ++ batches.flatten) s' := by
  induction batches generalizing rows s with
  | nil => exact ⟨s, rfl, by simpa using h⟩
  | cons batch batches ih =>
    rw [flatten_cons, ← append_assoc] at hclustered ⊢
    by_cases hempty : batch.length = 0
    · obtain rfl := length_eq_zero_iff.1 hempty
      rw [append_nil] at hclustered ⊢
      exact ih hclustered h
    · obtain ⟨_, hbatch, h1⟩ := batchLoop_spec hsink _ batch le_rfl hclustered.left h
      obtain ⟨s2, hrest, h2⟩ := ih hclustered h1
      refine ⟨s2, ?_, h2⟩
      simp only [streamLoop, if_neg hempty, hbatch, bind]
      exact hrest

lemma streamLoop_close (hsink : sink.Keeps ctx Files) (hinit : Files s [] none) {batches : List (List (Vector V n))}
    (hclustered : Clustered (partKey ctx) batches.flatten) :
    ∃ s1 s2, streamLoop ctx sink batches s = .ok s1 ∧ sink.close s1 = .ok s2 ∧
      Files s2 (expectedParts ctx batches.flatten) none := by
  have hstart : Behind ctx Files [] s := ⟨[], none, hinit, rfl, rfl⟩
  obtain ⟨s1, hrun, _, _, hfiles, hparts, -⟩ := streamLoop_spec hsink batches hclustered hstart
  obtain ⟨s2, hclose, hfiles⟩ := hsink.close hfiles
  rw [hparts] at hfiles
  exact ⟨s1, s2, hrun, hclose, hfiles⟩

end Runs

/-! ### The two sinks keep their files -/

/-- The outside has seen the finished files and the opening of the one that is open. -/
def Outside.Shows (o : Outside V n) (done : List (Part V n)) (cur : Option (Part V n)) : Prop :=
  o.numPaths = (done ++ cur.toList).length ∧
    o.log = done.flatMap Part.events ++ cur.toList.flatMap Part.openEvents

variable {o : Outside V n} {done : List (Part V n)}

lemma Outside.Shows.complete {p : Part V n} (h : o.Shows done (some p)) :
    (o.emit (.completed ⟨p.path, p.stored.length, p.stored⟩)).Shows (done ++ [p]) none := by
  obtain ⟨hpaths, hlog⟩ := h
  refine ⟨by simpa [Outside.emit] using hpaths, ?_⟩
  simp [Outside.emit, hlog, Part.events]

lemma Outside.Shows.write {p : Part V n} (h : o.Shows done (some p)) (rows : List (List V)) :
    o.Shows done (some { p with stored := p.stored ++ rows }) := by
  obtain ⟨hpaths, hlog⟩ := h
  exact ⟨by simpa using hpaths, hlog⟩

lemma Outside.Shows.create (h : o.Shows done none) (ctx : SinkContext V n) (batch : List (Vector V n))
    (partValues : List V) : ((o.emit (.announce batch)).create ctx partValues).1 = ctx.taskOutputPath done.length ∧
      ((o.emit (.announce batch)).create ctx partValues).2.Shows done
        (some ⟨ctx.taskOutputPath done.length, batch, partValues, []⟩) := by
  obtain ⟨hpaths, hlog⟩ := h
  have hnum : o.numPaths = done.length := by simpa using hpaths
  refine ⟨by simp [Outside.create, Outside.emit, hnum], ?_, ?_⟩
  · simp [Outside.create, Outside.emit, hnum]
  · simp [Outside.create, Outside.emit, hnum, hlog, Part.openEvents]

namespace Parquet

variable {W : ParquetFileWriter (List V)}

def Writes (w : PartWriter V W) (p : Part V n) : Prop :=
  w.path = p.path ∧ w.partValues = p.partValues ∧ W.stored w.parquetWriter = p.stored

def Files (s : State V n W) (done : List (Part V n)) (cur : Option (Part V n)) : Prop :=
  Option.Rel Writes s.partWriter cur ∧ s.outside.Shows done cur

lemma Writes.close {w : PartWriter V W} {p : Part V n} (h : Writes w p) :
    w.close = ⟨p.path, p.stored.length, p.stored⟩ := by
  obtain ⟨hpath, -, hstored⟩ := h
  simp [PartWriter.close, W.stored_flush, W.sum_flushedRowGroups_flush, hpath, hstored]

lemma Writes.write {w : PartWriter V W} {p : Part V n} (h : Writes w p) (size : ℕ) (rows : List (List V)) :
    Writes (w.write size rows) { p with stored := p.stored ++ rows } := by
  obtain ⟨hpath, hvalues, hstored⟩ := h
  refine ⟨hpath, hvalues, ?_⟩
  simp only [PartWriter.write]
  split
  · rw [W.stored_flush, W.stored_write, hstored]
  · rw [W.stored_write, hstored]

lemma sink_keeps (ctx : SinkContext V n) (W : ParquetFileWriter (List V)) (size : ℕ) :
    (sink ctx W size).Keeps ctx Files where
  active := by
    rintro ⟨_, _⟩ _ _ ⟨hwriter | _, -⟩
    · exact congrArg some hwriter.2.1
    · rfl
  close := by
    rintro ⟨_, o⟩ done _ ⟨hwriter | _, hshows⟩
    · refine ⟨_, rfl, .none, ?_⟩
      rw [hwriter.close]
      exact hshows.complete
    · exact ⟨_, rfl, .none, by simpa using hshows⟩
  init := by
    rintro ⟨_, o⟩ done batch partValues ⟨_, hshows⟩
    obtain ⟨hpath, hshows⟩ := hshows.create ctx (batch.take 1) partValues
    exact ⟨_, rfl, .some ⟨hpath, rfl, W.stored_new⟩, hshows⟩
  write := by
    rintro ⟨_, o⟩ _ p rows ⟨⟨hwriter⟩, hshows⟩
    exact ⟨_, rfl, .some (hwriter.write size rows), hshows.write rows⟩

end Parquet

namespace Orc

variable {W : FileWriter (List V)}

/-- The writer of the worker has the rows of the open file, and has counted them. -/
def Writes (w : PartWriter V W) (p : Part V n) : Prop :=
  w.path = p.path ∧ W.stored w.orcWriter = p.stored ∧ w.rowsWritten = p.stored.length

/-- The worker runs, and the sink and the worker agree on the open file. -/
def Files (s : State V n W) (done : List (Part V n)) (cur : Option (Part V n)) : Prop :=
  s.activePartValues = cur.map (·.partValues) ∧ (∃ w, s.worker = some w ∧ Option.Rel Writes w cur) ∧
    s.outside.Shows done cur

lemma Writes.close {w : PartWriter V W} {p : Part V n} (h : Writes w p) :
    w.close = ⟨p.path, p.stored.length, p.stored⟩ := by
  obtain ⟨hpath, hstored, hcount⟩ := h
  simp [PartWriter.close, hpath, hstored, hcount]

lemma Writes.write {w : PartWriter V W} {p : Part V n} (h : Writes w p) (rows : List (List V)) :
    Writes (w.write rows) { p with stored := p.stored ++ rows } := by
  obtain ⟨hpath, hstored, hcount⟩ := h
  refine ⟨hpath, ?_, ?_⟩
  · simp [PartWriter.write, W.stored_write, hstored]
  · simp [PartWriter.write, hcount]

lemma sink_keeps (ctx : SinkContext V n) (W : FileWriter (List V)) : (sink ctx W).Keeps ctx Files where
  active h := h.1
  close := by
    rintro ⟨_, _, o⟩ done _ ⟨rfl, ⟨_, rfl, hwriter | _⟩, hshows⟩
    · refine ⟨_, rfl, rfl, ⟨none, rfl, .none⟩, ?_⟩
      rw [hwriter.close]
      exact hshows.complete
    · exact ⟨_, rfl, rfl, ⟨none, rfl, .none⟩, by simpa using hshows⟩
  init := by
    rintro ⟨_, _, o⟩ done batch partValues ⟨rfl, ⟨_, rfl, ⟨⟩⟩, hshows⟩
    obtain ⟨hpath, hshows⟩ := hshows.create ctx (batch.take 1) partValues
    exact ⟨_, rfl, rfl, ⟨_, rfl, .some ⟨hpath, W.stored_new, rfl⟩⟩, hshows⟩
  write := by
    rintro ⟨_, _, o⟩ _ p rows ⟨rfl, ⟨_, rfl, ⟨hwriter⟩⟩, hshows⟩
    exact ⟨_, rfl, rfl, ⟨_, rfl, .some (hwriter.write rows)⟩, hshows.write rows⟩

end Orc

/-! ### Whole streams -/

/-- **Every row once, into the file of its partition.**  On a stream in which rows of equal partition values stand together,
however it is cut into batches, both sinks end, and what is seen of them is the expected files one after another: a row of
the partition sent downstream, the file opened, the rows of the partition stored, their number reported. -/
theorem executeSinks_spec [DecidableEq V] (ctx : SinkContext V n) (P : ParquetFileWriter (List V))
    (O : FileWriter (List V)) (rowGroupBlockSize : ℕ) (input : List (List (Vector V n)))
    (hclustered : Clustered (partKey ctx) input.flatten) :
    executeParquetSink ctx P rowGroupBlockSize input = .ok ((expectedParts ctx input.flatten).flatMap Part.events) ∧
      executeOrcSink ctx O input = .ok ((expectedParts ctx input.flatten).flatMap Part.events) := by
  constructor
  · have hinit : Parquet.Files ({} : Parquet.State V n P) [] none := ⟨.none, rfl, rfl⟩
    obtain ⟨s1, s2, hrun, hclose, -, -, hlog⟩ :=
      streamLoop_close (Parquet.sink_keeps ctx P rowGroupBlockSize) hinit hclustered
    have hclose : Parquet.close s1 = .ok s2 := hclose
    simp only [executeParquetSink, hrun, hclose, bind, Except.bind, pure, Except.pure, hlog, Option.toList_none,
      flatMap_nil, append_nil]
  · have hinit : Orc.Files ({} : Orc.State V n O) [] none := ⟨rfl, ⟨none, rfl, .none⟩, rfl, rfl⟩
    obtain ⟨s1, s2, hrun, hclose, -, ⟨w, hworker, -⟩, -, hlog⟩ :=
      streamLoop_close (Orc.sink_keeps ctx O) hinit hclustered
    have hclose : Orc.close ctx s1 = .ok s2 := hclose
    have hshutdown : Orc.request ctx "shutting down" .shutdown s2 = .ok (none, { s2 with worker := none }) := by
      simp only [Orc.request, hworker, Orc.workerStep, bind, Except.bind, pure, Except.pure]
    simp only [executeOrcSink, hrun, hclose, hshutdown, bind, Except.bind, pure, Except.pure, hlog, Option.toList_none,
      flatMap_nil, append_nil]

def FileWriter.list (R : Type) : FileWriter R where
  State := List R
  new := []
  write rows s := s ++ rows
  stored s := s
  stored_new := rfl
  stored_write _ _ := rfl

def ParquetFileWriter.list (R : Type) : ParquetFileWriter R where
  toFileWriter := FileWriter.list R
  flush s := s
  inProgressSize s := s.length
  flushedRowGroups s := [s.length]
  stored_flush _ := rfl
  sum_flushedRowGroups_flush s := Nat.add_zero (length s)

/-- Two columns, of which the second is a partition column. -/
def SinkContext.twoColumns : SinkContext ℕ 2 where
  numDynParts := 1
  numDynParts_le := by decide
  casts := [id]
  casts_length := rfl
  taskOutputPath i := "part-" ++ toString i
  batchMemSize batch := batch.length

/-- Two partitions in three batches; the first partition goes over the end of the first batch. -/
def threeBatches : List (List (Vector ℕ 2)) := [[#v[1, 7], #v[2, 7]], [], [#v[3, 7], #v[4, 8]]]

theorem executeSinks_spec_threeBatches :
    Clustered (partKey .twoColumns) threeBatches.flatten ∧
      (expectedParts .twoColumns threeBatches.flatten).map Part.stored = [[[1], [2], [3]], [[4]]] ∧
      executeParquetSink .twoColumns (.list _) 2 threeBatches =
        .ok ((expectedParts .twoColumns threeBatches.flatten).flatMap Part.events) ∧
      executeOrcSink .twoColumns (.list _) threeBatches =
        .ok ((expectedParts .twoColumns threeBatches.flatten).flatMap Part.events) := by
  have hclustered : Clustered (partKey .twoColumns) threeBatches.flatten := by decide
  exact ⟨hclustered, by decide, executeSinks_spec .twoColumns (.list _) (.list _) 2 threeBatches hclustered⟩

end Auron.Sink
