import Auron.Io.Bytes
import Auron.Lib.Counter
import Mathlib.Data.List.Sort

/-!
# On-heap spills (`SpillBuf.scala`, `OnHeapSpill.scala`, `SparkOnHeapSpillManager.scala`)

A spill keeps what is written in a deque of buffers, until it is moved to a file: on request, or because `acquireMemory`
did not grant the memory for a write.  `SpillBuf.data` is what is left to read, before and after the move, and the spill
is a queue of bytes (`run_fifo`).

The manager's memory is that of its spills.  `acquireMemory` may call back `spill` before it returns, and the lock of the
spill being written is reentrant, so that this very spill may be moved to a file in the middle of its `write`.  What was
acquired is then never freed, or, if less was granted, the spill is moved again and there is no case for it: the accounts
are right exactly as long as this does not happen (`sound_iff_clear`).
-/

namespace Auron.OnHeap

open Auron.Io (Bytes)
open Auron.Lib.Counter (total total_cons total_append total_set)
open List

/-- A `ByteBuffer` to be written: its bytes between position and limit. -/
structure ByteBuffer where
  isDirect : Bool
  remaining : Bytes
  limit : ℕ
  capacity : ℕ
  remaining_le : remaining.length ≤ limit
  limit_le : limit ≤ capacity

/-- A buffer of the deque: the bytes that were not read yet. -/
structure ByteBuf where
  readable : Bytes
  capacity : ℕ

inductive SpillBuf where
  | mem (bufs : List ByteBuf) (used : ℕ)
  | file (content : Bytes) (readPosition : ℕ)

/-- The loop of `MemBasedSpillBuf.read` into a buffer with some room: the bytes read, and what is left. -/
def readBufs : List ByteBuf → ℕ → ℕ → Bytes × List ByteBuf × ℕ
  | [], mem, _ => ([], [], mem)
  | b :: bufs, mem, room =>
    if room = 0 then ([], b :: bufs, mem)
    else
      let readLen := min room b.readable.length
      if b.readable.length = readLen then
        let (out, bufs, mem) := readBufs bufs (mem - b.capacity) (room - readLen)
        (b.readable.take readLen ++ out, bufs, mem)
      else (b.readable.take readLen, ⟨b.readable.drop readLen, b.capacity⟩ :: bufs, mem)

/-- The loop of `FileBasedSpillBuf.read`: a read of the channel gives at least one byte, and may give fewer than fit. -/
def readFile (short : ℕ → ℕ) (content : Bytes) : ℕ → ℕ → ℕ → Bytes × ℕ
  | 0, _, pos => ([], pos)
  | rounds + 1, room, pos =>
    if 0 < room ∧ pos < content.length then
      let n := min room (min (short pos + 1) (content.length - pos))
      let (out, pos') := readFile short content rounds (room - n) (pos + n)
      ((content.drop pos).take n ++ out, pos')
    else ([], pos)

namespace SpillBuf

def new : SpillBuf := .mem [] 0

def memUsed : SpillBuf → ℕ
  | .mem _ used => used
  | .file _ _ => 0

def isFile : SpillBuf → Bool
  | .mem _ _ => false
  | .file _ _ => true

/-- `write` of either buffer; a file takes all bytes at its end. -/
def write : SpillBuf → ByteBuffer → SpillBuf
  | .mem bufs used, buf =>
    .mem (bufs ++ [⟨buf.remaining, buf.remaining.length⟩]) (used + if buf.isDirect then buf.limit else buf.capacity)
  | .file content pos, buf => .file (content ++ buf.remaining) pos

def read (short : ℕ → ℕ) : SpillBuf → ℕ → Bytes × SpillBuf
  | .mem bufs used, room => let (out, bufs, used) := readBufs bufs used room; (out, .mem bufs used)
  | .file content pos, room => let (out, pos) := readFile short content room room pos; (out, .file content pos)

/-- `spillInternal`: the file and the memory that is freed.  There is no case for a buffer that is a file. -/
def spillInternal : SpillBuf → Option (SpillBuf × ℕ)
  | .mem bufs used => some (.file (bufs.flatMap ByteBuf.readable) 0, used)
  | .file _ _ => none

/-- `OnHeapSpill.write` from where `acquireMemory` has returned: the buffer, and the memory that is freed. -/
def afterAcquire (spill : SpillBuf) (granted : ℕ) (buf : ByteBuffer) : Option (SpillBuf × ℕ) := do
  if granted < buf.capacity then
    let (spill, freed) ← spill.spillInternal
    some (spill.write buf, granted + freed)
  else some (spill.write buf, 0)

/-! ### A queue of bytes -/

def data : SpillBuf → Bytes
  | .mem bufs _ => bufs.flatMap ByteBuf.readable
  | .file content pos => content.drop pos

/-- The memory covers the buffers, and the position is in the file. -/
def Wf : SpillBuf → Prop
  | .mem bufs used => total ByteBuf.capacity bufs ≤ used
  | .file content pos => pos ≤ content.length

end SpillBuf

lemma readBufs_spec (bufs : List ByteBuf) (mem room : ℕ) (hmem : total ByteBuf.capacity bufs ≤ mem) :
    ∃ bufs' mem', readBufs bufs mem room = ((bufs.flatMap ByteBuf.readable).take room, bufs', mem') ∧
      bufs'.flatMap ByteBuf.readable = (bufs.flatMap ByteBuf.readable).drop room ∧
      total ByteBuf.capacity bufs' ≤ mem' ∧ mem' ≤ mem := by
  induction bufs generalizing mem room with
  | nil => exact ⟨[], mem, by simp [readBufs], by simp, hmem, le_rfl⟩
  | cons b bufs ih =>
    rw [total_cons] at hmem
    by_cases hroom : room = 0
    · subst hroom
      exact ⟨b :: bufs, mem, by simp [readBufs], rfl, hmem, le_rfl⟩
    · by_cases hall : b.readable.length = min room b.readable.length
      · obtain ⟨bufs', mem', hread, hdata, hle, _⟩ := ih (mem - b.capacity) (room - b.readable.length) (by omega)
        refine ⟨bufs', mem', ?_, ?_, hle, by omega⟩
        · rw [readBufs, if_neg hroom, if_pos hall, ← hall, hread]
          simp [take_append, take_of_length_le (show b.readable.length ≤ room by omega)]
        · rw [hdata, flatMap_cons, drop_append, drop_of_length_le (show b.readable.length ≤ room by omega)]
          rfl
      · have hlt : room < b.readable.length := by omega
        refine ⟨⟨b.readable.drop room, b.capacity⟩ :: bufs, mem, ?_, ?_, hmem, le_rfl⟩
        · rw [readBufs, if_neg hroom, if_neg hall]
          simp [take_append_of_le_length hlt.le]
        · simp [drop_append_of_le_length hlt.le]

lemma readFile_spec (short : ℕ → ℕ) (content : Bytes) (rounds room pos : ℕ) (h : room ≤ rounds) :
    readFile short content rounds room pos = ((content.drop pos).take room, pos + min room (content.length - pos)) := by
  induction rounds generalizing room pos with
  | zero => simp [readFile, Nat.le_zero.1 h]
  | succ rounds ih =>
    rw [readFile]
    split
    · next hmore =>
      set n := min room (min (short pos + 1) (content.length - pos))
      have hn : 0 < n ∧ n ≤ room ∧ n ≤ content.length - pos := by omega
      show (match readFile short content rounds (room - n) (pos + n) with
        | (out, pos') => ((content.drop pos).take n ++ out, pos')) = _
      rw [ih _ _ (by omega), ← drop_drop]
      refine Prod.ext ?_ (by simp only; omega)
      show (content.drop pos).take n ++ ((content.drop pos).drop n).take (room - n) = _
      rw [← take_add, Nat.add_sub_cancel' hn.2.1]
    · next hdone =>
      rcases eq_zero_or_pos room with rfl | hroom
      · simp
      · rw [drop_of_length_le (by omega)]
        simp
        omega

namespace SpillBuf

/-- **A read** returns what fits of what is left; the rest stays, and no memory is added. -/
theorem read_spec (short : ℕ → ℕ) {spill : SpillBuf} (h : spill.Wf) (room : ℕ) :
    ∃ spill', spill.read short room = (spill.data.take room, spill') ∧ spill'.data = spill.data.drop room ∧ spill'.Wf ∧
      spill'.isFile = spill.isFile ∧ spill'.memUsed ≤ spill.memUsed := by
  cases spill with
  | mem bufs used =>
    obtain ⟨bufs', used', hread, hdata, hwf, hle⟩ := readBufs_spec bufs used room h
    exact ⟨.mem bufs' used', by simp [read, hread, data], hdata, hwf, rfl, hle⟩
  | file content pos =>
    simp only [Wf] at h
    refine ⟨.file content (pos + min room (content.length - pos)), by simp [read, readFile_spec, data], ?_, ?_, rfl, le_rfl⟩
    · rcases le_total room (content.length - pos) with hle | hle
      · simp [data, hle]
      · rw [data, data, min_eq_right hle, Nat.add_sub_cancel' h, drop_length, drop_drop,
          drop_of_length_le (by omega)]
    · simp only [Wf]
      omega

lemma write_spec {spill : SpillBuf} (h : spill.Wf) (buf : ByteBuffer) :
    (spill.write buf).data = spill.data ++ buf.remaining ∧ (spill.write buf).Wf ∧
      (spill.write buf).isFile = spill.isFile := by
  have hlimit := buf.remaining_le
  have hcapacity := buf.limit_le
  cases spill with
  | mem bufs used =>
    refine ⟨by simp [write, data], ?_, rfl⟩
    have hnil : total ByteBuf.capacity [] = 0 := rfl
    simp only [Wf, write, total_append, total_cons] at h ⊢
    split <;> omega
  | file content pos =>
    simp only [Wf] at h
    exact ⟨by simp [write, data, drop_append_of_le_length h], by simp [write, Wf]; omega, rfl⟩

lemma memUsed_file {spill : SpillBuf} (h : spill.isFile = true) : spill.memUsed = 0 := by
  cases spill with
  | mem bufs used => cases h
  | file content pos => rfl

lemma spillInternal_mem {spill : SpillBuf} (h : spill.isFile = false) :
    ∃ spill', spill.spillInternal = some (spill', spill.memUsed) ∧ spill'.data = spill.data ∧ spill'.Wf ∧
      spill'.isFile = true := by
  cases spill with
  | mem bufs used => exact ⟨_, rfl, rfl, Nat.zero_le _, rfl⟩
  | file content pos => cases h

end SpillBuf

/-- An operation on a spill, a write with what `acquireMemory` did: whether it called back and moved the spill to a file,
and how much it granted. -/
inductive Op where
  | write (buf : ByteBuffer) (calledBack : Bool) (granted : ℕ)
  | read (room : ℕ)
  | spill

def Op.written : Op → Bytes
  | .write buf _ _ => buf.remaining
  | _ => []

/-- An operation, with the bytes it returns.  A file asks for no memory. -/
def SpillBuf.step (short : ℕ → ℕ) (spill : SpillBuf) : Op → Option (SpillBuf × Bytes)
  | .write buf calledBack granted => do
    if spill.isFile then some (spill.write buf, [])
    else
      let (spill, _) ← if calledBack then spill.spillInternal else some (spill, 0)
      some ((← spill.afterAcquire granted buf).1, [])
  | .read room => let (out, spill) := spill.read short room; some (spill, out)
  | .spill => do some ((← spill.spillInternal).1, [])

/-- Operations in turn, with all bytes they return. -/
def run (short : ℕ → ℕ) : SpillBuf → List Op → Option (SpillBuf × Bytes)
  | spill, [] => some (spill, [])
  | spill, op :: ops => do
    let (spill, out) ← spill.step short op
    let (spill, outs) ← run short spill ops
    some (spill, out ++ outs)

/-- The spill is moved to a file at most once. -/
def Once : Bool → List Op → Prop
  | _, [] => True
  | isFile, .read _ :: ops => Once isFile ops
  | isFile, .spill :: ops => isFile = false ∧ Once true ops
  | true, .write _ _ _ :: ops => Once true ops
  | false, .write buf calledBack granted :: ops =>
    ¬(calledBack = true ∧ granted < buf.capacity) ∧ Once (calledBack || granted < buf.capacity) ops

lemma SpillBuf.step_spec (short : ℕ → ℕ) {spill : SpillBuf} (h : spill.Wf) {op : Op} {ops : List Op}
    (honce : Once spill.isFile (op :: ops)) :
    ∃ spill' out, spill.step short op = some (spill', out) ∧ out ++ spill'.data = spill.data ++ op.written ∧ spill'.Wf ∧
      Once spill'.isFile ops := by
  cases op with
  | read room =>
    obtain ⟨spill', hread, hdata, hwf, hfile, -⟩ := read_spec short h room
    exact ⟨spill', spill.data.take room, by simp [step, hread], by simp [hdata, Op.written], hwf, by rwa [hfile]⟩
  | spill =>
    obtain ⟨hmem, hrest⟩ := honce
    obtain ⟨spill', hspill, hdata, hwf, hfile⟩ := spillInternal_mem hmem
    exact ⟨spill', [], by simp [step, hspill], by simp [hdata, Op.written], hwf, by rwa [hfile]⟩
  | write buf calledBack granted =>
    cases hfile : spill.isFile with
    | true =>
      obtain ⟨hdata, hwf, hfile'⟩ := write_spec h buf
      rw [hfile] at honce hfile'
      exact ⟨_, [], by simp [step, hfile], by simp [hdata, Op.written], hwf, by rwa [hfile']⟩
    | false =>
      rw [hfile] at honce
      obtain ⟨htwice, hrest⟩ := honce
      obtain ⟨moved, hspill, hdata, hwf, hmoved⟩ := spillInternal_mem hfile
      by_cases hless : granted < buf.capacity
      · -- moved for this write
        have hback : calledBack = false := by simpa [hless] using htwice
        obtain ⟨hdata', hwf', hfile'⟩ := write_spec hwf buf
        exact ⟨_, [], by simp [step, hfile, hback, afterAcquire, hless, hspill], by simp [hdata', hdata, Op.written], hwf',
          by simpa [hfile', hmoved, hless] using hrest⟩
      · cases calledBack with
        | true =>
          obtain ⟨hdata', hwf', hfile'⟩ := write_spec hwf buf
          exact ⟨_, [], by simp [step, hfile, afterAcquire, hless, hspill], by simp [hdata', hdata, Op.written], hwf',
            by simpa [hfile', hmoved, hless] using hrest⟩
        | false =>
          obtain ⟨hdata', hwf', hfile'⟩ := write_spec h buf
          exact ⟨_, [], by simp [step, hfile, afterAcquire, hless], by simp [hdata', Op.written], hwf',
            by simpa [hfile', hfile, hless] using hrest⟩

lemma run_spec (short : ℕ → ℕ) (ops : List Op) {spill : SpillBuf} (h : spill.Wf) (honce : Once spill.isFile ops) :
    ∃ spill' outs, run short spill ops = some (spill', outs) ∧ outs ++ spill'.data = spill.data ++ ops.flatMap Op.written ∧
      spill'.Wf := by
  induction ops generalizing spill with
  | nil => exact ⟨spill, [], rfl, by simp, h⟩
  | cons op ops ih =>
    obtain ⟨_, out, hstep, hdata, hwf, hrest⟩ := SpillBuf.step_spec short h honce
    obtain ⟨spill2, outs, hrun, hdata', hwf'⟩ := ih hwf hrest
    refine ⟨spill2, out ++ outs, by simp [run, hstep, hrun], ?_, hwf'⟩
    rw [append_assoc, hdata', ← append_assoc, hdata, flatMap_cons, append_assoc]

/-- **A spill is a queue of bytes.**  What was read is a prefix of what was written; a read returns what fits of the rest,
and nothing, with room for it, only if everything was read. -/
theorem run_fifo (short : ℕ → ℕ) (ops : List Op) (honce : Once false ops) :
    ∃ spill outs, run short .new ops = some (spill, outs) ∧ outs <+: ops.flatMap Op.written ∧
      ∀ room, (spill.read short room).1.length = min room ((ops.flatMap Op.written).length - outs.length) ∧
        (outs ++ (spill.read short room).1 <+: ops.flatMap Op.written) ∧
        (0 < room → (spill.read short room).1 = [] → outs = ops.flatMap Op.written) := by
  have hnew : SpillBuf.new.Wf := Nat.zero_le _
  obtain ⟨spill, outs, hrun, hdata, hwf⟩ := run_spec short ops hnew honce
  rw [show SpillBuf.new.data = [] from rfl, nil_append] at hdata
  refine ⟨spill, outs, hrun, ⟨_, hdata⟩, fun room => ?_⟩
  obtain ⟨_, hread, _, -⟩ := SpillBuf.read_spec short hwf room
  rw [hread, ← hdata]
  refine ⟨by simp, ⟨spill.data.drop room, by simp⟩, fun hroom hnil => ?_⟩
  have hempty : spill.data = [] := by
    rcases take_eq_nil_iff.1 hnil with hzero | hempty
    · omega
    · exact hempty
  simp [hempty]

/-- A direct buffer of some bytes, from its start to its end. -/
def directBuffer (bytes : Bytes) : ByteBuffer := ⟨true, bytes, bytes.length, bytes.length, le_rfl, le_rfl⟩

/-- Three bytes written, one read, the rest moved to a file, a byte written there: the reads return them in order. -/
theorem run_fifo_moved : ∃ spill, run (fun _ => 0) .new
      [.write (directBuffer [1, 2, 3]) false 3, .read 1, .spill, .write (directBuffer [4]) false 0, .read 2] =
        some (spill, [1, 2, 3]) ∧ [1, 2, 3] <+: ([1, 2, 3, 4] : Bytes) := by
  obtain ⟨spill, outs, hrun, hpre, -⟩ := run_fifo (fun _ => 0)
    [.write (directBuffer [1, 2, 3]) false 3, .read 1, .spill, .write (directBuffer [4]) false 0, .read 2]
    (by simp [Once, directBuffer])
  have houts : outs = [1, 2, 3] := congrArg Prod.snd (Option.some.inj hrun).symm
  exact ⟨spill, houts ▸ hrun, houts ▸ hpre⟩

/-! ### The manager and its memory -/

/-- The slots of `SparkOnHeapSpillManager`, and the memory acquired less the memory freed. -/
structure Manager where
  spills : List (Option SpillBuf)
  used : ℤ

/-- `memUsed` of a slot. -/
def held (slot : Option SpillBuf) : ℕ := slot.elim 0 SpillBuf.memUsed

/-- A call of the manager, a write with what `acquireMemory` does: the sizes it calls `spill` back with, and what it grants.
A request to spill of another consumer may be ignored. -/
inductive Request where
  | newSpill
  | write (spillId : ℕ) (data : ByteBuffer) (callbacks : List ℕ) (granted : ℕ)
  | read (spillId room : ℕ)
  | releaseSpill (spillId : ℕ)
  | spill (ignored : Bool) (size : ℕ)

namespace Manager

def new : Manager := ⟨[], 0⟩

def slot? (m : Manager) (spillId : ℕ) : Option SpillBuf := m.spills[spillId]?.join

def spillLoop (size : ℕ) : List ℕ → ℕ → Manager → Option Manager
  | [], _, m => some m
  | i :: is, totalFreed, m =>
    if totalFreed < size then
      match m.slot? i with
      | some spill =>
        if 0 < spill.memUsed then do
          let (spill, freed) ← spill.spillInternal
          spillLoop size is (totalFreed + freed) ⟨m.spills.set i (some spill), m.used - freed⟩
        else spillLoop size is totalFreed m
      | none => spillLoop size is totalFreed m
    else some m

/-- `spill`, from the spill with the most memory on.  The lock of a spill is reentrant, so that `tryLock` gets it. -/
def spill (m : Manager) (size : ℕ) : Option Manager :=
  spillLoop size ((range m.spills.length).insertionSort fun i j =>
    held (m.slot? j) ≤ held (m.slot? i)) 0 m

def write (m : Manager) (spillId : ℕ) (data : ByteBuffer) (callbacks : List ℕ) (granted : ℕ) : Option Manager := do
  let spill ← m.slot? spillId
  if spill.isFile then some ⟨m.spills.set spillId (some (spill.write data)), m.used⟩
  else
    let m ← callbacks.foldlM Manager.spill m
    let (spill, freed) ← (← m.slot? spillId).afterAcquire granted data
    some ⟨m.spills.set spillId (some spill), m.used + granted - freed⟩

def step (short : ℕ → ℕ) (m : Manager) : Request → Option Manager
  | .newSpill => some ⟨m.spills ++ [some .new], m.used⟩
  | .write spillId data callbacks granted => m.write spillId data callbacks granted
  | .read spillId room => do
    let spill ← m.slot? spillId
    let (_, spill') := spill.read short room
    some ⟨m.spills.set spillId (some spill'), m.used - (spill.memUsed - spill'.memUsed : ℕ)⟩
  | .releaseSpill spillId =>
    if spillId < m.spills.length then some ⟨m.spills.set spillId none, m.used - held (m.slot? spillId)⟩ else none
  | .spill ignored size => if ignored then some m else m.spill size

def Accounts (m : Manager) : Prop := m.used = total held m.spills

def Wf (m : Manager) : Prop := ∀ spill, some spill ∈ m.spills → spill.Wf

/-- The requests of the callers: reads and writes of spills they hold, and writes of whole direct buffers. -/
def Accepts (m : Manager) : Request → Prop
  | .write spillId data _ granted =>
    (m.slot? spillId).isSome ∧ data.isDirect ∧ data.limit = data.capacity ∧ granted ≤ data.capacity
  | .read spillId _ => (m.slot? spillId).isSome
  | .releaseSpill spillId => spillId < m.spills.length
  | _ => True

/-- A write for which `acquireMemory` calls back and moves the very spill to a file. -/
def Undercut (m : Manager) : Request → Prop
  | .write spillId data callbacks _ => ∃ spill moved m', m.slot? spillId = some spill ∧ spill.isFile = false ∧
      callbacks.foldlM Manager.spill m = some m' ∧ m'.slot? spillId = some moved ∧ moved.isFile = true ∧ 0 < data.capacity
  | _ => False

variable {m m' : Manager} {i : ℕ} {spill : SpillBuf}

lemma slot?_eq_some (h : m.slot? i = some spill) : m.spills[i]? = some (some spill) := by
  simpa [slot?, Option.join_eq_some_iff] using h

lemma Wf.of_slot (h : m.Wf) (hi : m.slot? i = some spill) : spill.Wf :=
  h spill (mem_of_getElem? (slot?_eq_some hi))

lemma Wf.set (h : m.Wf) (slot : Option SpillBuf) (hslot : ∀ spill ∈ slot, spill.Wf) (used : ℤ) :
    Wf ⟨m.spills.set i slot, used⟩ := by
  intro spill hmem
  rcases mem_or_eq_of_mem_set hmem with hmem | rfl
  · exact h spill hmem
  · exact hslot spill rfl

lemma total_set_slot (hi : m.slot? i = some spill) (slot : Option SpillBuf) :
    total held (m.spills.set i slot) + spill.memUsed = total held m.spills + held slot := by
  obtain ⟨n, _, _⟩ := total_set held (slot?_eq_some hi) slot
  have hheld : held (some spill) = spill.memUsed := rfl
  omega

/-- Spills moved to files, with the memory they held freed. -/
structure Moves (m m' : Manager) : Prop where
  wf : m'.Wf
  used : m'.used + total held m.spills = m.used + total held m'.spills
  slots : ∀ i spill, m.slot? i = some spill → ∃ spill', m'.slot? i = some spill' ∧ (spill' = spill ∨ spill'.isFile = true)

lemma Moves.trans {m'' : Manager} (h : Moves m m') (h' : Moves m' m'') : Moves m m'' := by
  refine ⟨h'.wf, by have := h.used; have := h'.used; omega, fun i spill hi => ?_⟩
  obtain ⟨spill', hi', hor⟩ := h.slots i spill hi
  obtain ⟨spill'', hi'', hor'⟩ := h'.slots i spill' hi'
  rcases hor' with rfl | hfile
  · exact ⟨spill'', hi'', hor⟩
  · exact ⟨spill'', hi'', .inr hfile⟩

lemma Wf.moves_set (h : m.Wf) (hi : m.slot? i = some spill) {moved : SpillBuf} (hwf : moved.Wf)
    (hfile : moved.isFile = true) : Moves m ⟨m.spills.set i (some moved), m.used - spill.memUsed⟩ := by
  have htotal := total_set_slot hi (some moved)
  have hheld : held (some moved) = 0 := SpillBuf.memUsed_file hfile
  refine ⟨h.set _ (by simpa using hwf) _, by simp only; omega, fun j spill' hj => ?_⟩
  by_cases hij : i = j
  · subst hij
    exact ⟨moved, by simp [slot?, (List.getElem?_eq_some_iff.1 (slot?_eq_some hi)).1], .inr hfile⟩
  · exact ⟨spill', by rw [← hj]; simp [slot?, getElem?_set_ne hij], .inl rfl⟩

lemma spillLoop_moves (size : ℕ) (is : List ℕ) (totalFreed : ℕ) (h : m.Wf) :
    ∃ m', spillLoop size is totalFreed m = some m' ∧ Moves m m' := by
  have hrefl : ∀ {m : Manager}, m.Wf → Moves m m := fun h => ⟨h, rfl, fun i spill hi => ⟨spill, hi, .inl rfl⟩⟩
  induction is generalizing m totalFreed with
  | nil => exact ⟨m, rfl, hrefl h⟩
  | cons i is ih =>
    rw [spillLoop]
    split
    · split
      · next spill hi =>
        split
        · next hpos =>
          have hmem : spill.isFile = false := by
            cases spill with
            | mem bufs used => rfl
            | file content pos => exact absurd hpos (lt_irrefl 0)
          obtain ⟨_, hspill, -, hwf, hfile⟩ := spill.spillInternal_mem hmem
          have hmoves := h.moves_set hi hwf hfile
          obtain ⟨m', hloop, hrest⟩ := ih (totalFreed + spill.memUsed) hmoves.wf
          exact ⟨m', by simp [hspill, hloop], hmoves.trans hrest⟩
        · exact ih totalFreed h
      · exact ih totalFreed h
    · exact ⟨m, rfl, hrefl h⟩

lemma callbacks_moves (callbacks : List ℕ) (h : m.Wf) :
    ∃ m', callbacks.foldlM Manager.spill m = some m' ∧ Moves m m' := by
  induction callbacks generalizing m with
  | nil => exact ⟨m, rfl, h, rfl, fun i spill hi => ⟨spill, hi, .inl rfl⟩⟩
  | cons size callbacks ih =>
    obtain ⟨m1, hspill, hmoves⟩ := spillLoop_moves size _ 0 h
    obtain ⟨m2, hrest, hmoves'⟩ := ih hmoves.wf
    exact ⟨m2, by rw [foldlM_cons, show m.spill size = some m1 from hspill]; exact hrest, hmoves.trans hmoves'⟩

lemma Accounts.set (h : m.Accounts) (hi : m.slot? i = some spill) (spill' : SpillBuf) (used : ℤ) :
    Accounts ⟨m.spills.set i (some spill'), used⟩ ↔ used + spill.memUsed = m.used + spill'.memUsed := by
  have htotal := total_set_slot hi (some spill')
  have hheld : held (some spill') = spill'.memUsed := rfl
  simp only [Accounts] at h ⊢
  omega

lemma Moves.accounts (h : Moves m m') (ha : m.Accounts) : m'.Accounts := by
  have := h.used
  simp only [Accounts] at ha ⊢
  omega

lemma sound_of_eq_some {o : Option Manager} {undercut : Prop} (hm : o = some m) (h : m.Wf) (ha : m.Accounts)
    (hu : ¬undercut) : ((∃ m', o = some m' ∧ m'.Accounts) ↔ ¬undercut) ∧ ∀ m', o = some m' → m'.Wf := by
  subst hm
  exact ⟨iff_of_true ⟨m, rfl, ha⟩ hu, fun m' hm' => Option.some.inj hm' ▸ h⟩

/-- **A write** keeps the accounts right unless it is undercut. -/
theorem write_sound_iff (h : m.Wf) (ha : m.Accounts) {data : ByteBuffer} {callbacks : List ℕ} {granted : ℕ}
    (hr : m.Accepts (.write i data callbacks granted)) :
    ((∃ m', m.write i data callbacks granted = some m' ∧ m'.Accounts) ↔ ¬m.Undercut (.write i data callbacks granted)) ∧
      ∀ m', m.write i data callbacks granted = some m' → m'.Wf := by
  obtain ⟨hsome, hdirect, hlimit, _⟩ := hr
  obtain ⟨spill, hi⟩ := Option.isSome_iff_exists.1 hsome
  have hwrite : ∀ spill : SpillBuf,
      (spill.write data).memUsed = spill.memUsed + if spill.isFile then 0 else data.capacity := by
    intro spill
    cases spill <;> simp [SpillBuf.write, SpillBuf.memUsed, SpillBuf.isFile, hlimit]
  cases hfile : spill.isFile with
  | true =>
    have hm : m.write i data callbacks granted = some ⟨m.spills.set i (some (spill.write data)), m.used⟩ := by
      simp [write, hi, hfile]
    refine sound_of_eq_some hm (h.set _ (by simpa using (SpillBuf.write_spec (h.of_slot hi) data).2.1) _)
      ((ha.set hi _ _).2 (by simp [hwrite, hfile])) ?_
    rintro ⟨_, _, _, hi', hmem, -⟩
    rw [hi, Option.some_inj] at hi'
    exact Bool.false_ne_true (hmem.symm.trans (hi' ▸ hfile))
  | false =>
    obtain ⟨m1, hcall, hmoves⟩ := callbacks_moves callbacks h
    obtain ⟨spill1, hi1, _⟩ := hmoves.slots i spill hi
    have ha1 := hmoves.accounts ha
    have hm : m.write i data callbacks granted = (spill1.afterAcquire granted data).map fun r =>
        ⟨m1.spills.set i (some r.1), m1.used + granted - r.2⟩ := by
      simp [write, hi, hfile, hcall, hi1, Option.map_eq_bind]
    have hunder : m.Undercut (.write i data callbacks granted) ↔ spill1.isFile = true ∧ 0 < data.capacity := by
      constructor
      · rintro ⟨_, moved, _, -, -, hcall', hmoved, hrest⟩
        rw [hcall, Option.some_inj] at hcall'
        rw [← hcall', hi1, Option.some_inj] at hmoved
        exact hmoved ▸ hrest
      · exact fun hrest => ⟨spill, spill1, m1, hi, hfile, hcall, hi1, hrest⟩
    have hwf1 := hmoves.wf.of_slot hi1
    rw [hunder, hm]
    by_cases hless : granted < data.capacity
    · cases hfile1 : spill1.isFile with
      | true =>
        -- the spill is a file by now, and is to be moved again
        have hnone : spill1.afterAcquire granted data = none := by
          cases spill1 with
          | mem bufs used => cases hfile1
          | file content pos => simp [SpillBuf.afterAcquire, hless, SpillBuf.spillInternal]
        simp only [hnone]
        exact ⟨iff_of_false (by simp) (by simp; omega), by simp⟩
      | false =>
        obtain ⟨_, hspill, -, hwf, hmoved⟩ := SpillBuf.spillInternal_mem hfile1
        simp only [SpillBuf.afterAcquire, hless, if_true, hspill, Option.bind_eq_bind, Option.bind_some, Option.map_some,
          Option.some_inj, exists_eq_left', forall_eq']
        refine ⟨iff_of_true ((ha1.set hi1 _ _).2 ?_) (by simp),
          hmoves.wf.set _ (by simpa using (SpillBuf.write_spec hwf data).2.1) _⟩
        rw [hwrite, SpillBuf.memUsed_file hmoved, hmoved]
        simp
        omega
    · simp only [SpillBuf.afterAcquire, hless, if_false, Option.map_some, Option.some_inj, exists_eq_left', forall_eq']
      refine ⟨(ha1.set hi1 _ _).trans ?_, hmoves.wf.set _ (by simpa using (SpillBuf.write_spec hwf1 data).2.1) _⟩
      rw [hwrite]
      cases spill1.isFile with
      | true => simp; omega
      | false => simp; omega

/-- **A request** keeps the accounts right unless it is a write that is undercut. -/
theorem step_sound_iff (short : ℕ → ℕ) (h : m.Wf) (ha : m.Accounts) {request : Request} (hr : m.Accepts request) :
    ((∃ m', m.step short request = some m' ∧ m'.Accounts) ↔ ¬m.Undercut request) ∧
      ∀ m', m.step short request = some m' → m'.Wf := by
  cases request with
  | write i data callbacks granted => exact write_sound_iff h ha hr
  | newSpill =>
    refine sound_of_eq_some rfl ?_ ?_ id
    · intro spill hmem
      rcases mem_append.1 hmem with hmem | hmem
      · exact h spill hmem
      · obtain rfl : spill = .new := by simpa using hmem
        exact Nat.zero_le _
    · simp only [Accounts] at ha ⊢
      rw [total_append, ha]
      rfl
  | read i room =>
    obtain ⟨spill, hi⟩ := Option.isSome_iff_exists.1 hr
    obtain ⟨spill', hread, -, hwf, -, _⟩ := SpillBuf.read_spec short (h.of_slot hi) room
    have hm : m.step short (.read i room) =
        some ⟨m.spills.set i (some spill'), m.used - (spill.memUsed - spill'.memUsed : ℕ)⟩ := by
      simp [step, hi, hread]
    exact sound_of_eq_some hm (h.set _ (by simpa using hwf) _) ((ha.set hi _ _).2 (by omega)) id
  | releaseSpill i =>
    have hlt : i < m.spills.length := hr
    have hm : m.step short (.releaseSpill i) = some ⟨m.spills.set i none, m.used - held (m.slot? i)⟩ := if_pos hlt
    refine sound_of_eq_some hm (h.set _ (by simp) _) ?_ id
    obtain ⟨n, _, _⟩ := total_set held (getElem?_eq_getElem hlt) none
    have hslot : m.slot? i = m.spills[i] := by simp [slot?, hlt]
    have hnone : held none = 0 := rfl
    simp only [Accounts] at ha ⊢
    rw [hslot]
    omega
  | spill ignored size =>
    obtain ⟨_, hspill, hmoves⟩ := spillLoop_moves size _ 0 h
    cases ignored with
    | true => exact sound_of_eq_some rfl h ha id
    | false => exact sound_of_eq_some hspill hmoves.wf (hmoves.accounts ha) id

/-- No request throws, and between the requests the accounts are right. -/
def Sound (short : ℕ → ℕ) (m : Manager) : List Request → Prop
  | [] => m.Accounts
  | request :: requests => m.Accounts ∧ ∃ m', m.step short request = some m' ∧ Sound short m' requests

def Clear (short : ℕ → ℕ) (m : Manager) : List Request → Prop
  | [] => True
  | request :: requests => ¬m.Undercut request ∧ ∀ m', m.step short request = some m' → Clear short m' requests

def AcceptsAll (short : ℕ → ℕ) (m : Manager) : List Request → Prop
  | [] => True
  | request :: requests => m.Accepts request ∧ ∀ m', m.step short request = some m' → AcceptsAll short m' requests

lemma sound_iff (short : ℕ → ℕ) (requests : List Request) (h : m.Wf) (ha : m.Accounts)
    (hr : m.AcceptsAll short requests) : m.Sound short requests ↔ m.Clear short requests := by
  induction requests generalizing m with
  | nil => exact iff_of_true ha trivial
  | cons request requests ih =>
    obtain ⟨hiff, hwf⟩ := step_sound_iff short h ha hr.1
    constructor
    · rintro ⟨-, m', hm', hsound⟩
      have ha' : m'.Accounts := by
        cases requests with
        | nil => exact hsound
        | cons request' requests => exact hsound.1
      refine ⟨hiff.1 ⟨m', hm', ha'⟩, fun m'' hm'' => ?_⟩
      rw [hm', Option.some_inj] at hm''
      exact hm'' ▸ (ih (hwf m' hm') ha' (hr.2 m' hm')).1 hsound
    · rintro ⟨hunder, hclear⟩
      obtain ⟨m', hm', ha'⟩ := hiff.2 hunder
      exact ⟨ha, m', hm', (ih (hwf m' hm') ha' (hr.2 m' hm')).2 (hclear m' hm')⟩

/-- **The accounts of the manager** are right, and no request throws, exactly if no write is undercut. -/
theorem sound_iff_clear (short : ℕ → ℕ) (requests : List Request) (hr : new.AcceptsAll short requests) :
    new.Sound short requests ↔ new.Clear short requests :=
  sound_iff short requests (by simp [Wf, new]) rfl hr

/-- A byte written and read, with another consumer's request between them: the accounts are right throughout. -/
theorem sound_write_read : new.Sound (fun _ => 0)
    [.newSpill, .write 0 (directBuffer [1]) [] 1, .spill false 1, .read 0 1, .releaseSpill 0] := by
  refine (sound_iff_clear (fun _ => 0) _ ?_).2 ?_
  · refine ⟨trivial, fun m h => ?_⟩
    obtain rfl := Option.some.inj h
    refine ⟨⟨rfl, rfl, rfl, le_rfl⟩, fun m h => ?_⟩
    obtain rfl := Option.some.inj h
    refine ⟨trivial, fun m h => ?_⟩
    obtain rfl := Option.some.inj h
    refine ⟨rfl, fun m h => ?_⟩
    obtain rfl := Option.some.inj h
    exact ⟨one_pos, fun _ _ => trivial⟩
  · refine ⟨id, fun m h => ?_⟩
    obtain rfl := Option.some.inj h
    refine ⟨?_, fun m _ => ⟨id, fun m _ => ⟨id, fun m _ => ⟨id, fun _ _ => trivial⟩⟩⟩⟩
    rintro ⟨_, _, _, -, -, hcall, hmoved, hfile, -⟩
    obtain rfl := Option.some.inj hcall
    obtain rfl := Option.some.inj hmoved
    cases hfile

/-- The second write calls back and moves its own spill: the byte it was granted is never freed, and if it is not granted
the write throws. -/
theorem write_undercut :
    (∃ m, [Request.newSpill, .write 0 (directBuffer [1]) [] 1, .write 0 (directBuffer [2]) [1] 1].foldlM
        (step fun _ => 0) new = some m ∧ m.used = 1 ∧ total held m.spills = 0) ∧
    [Request.newSpill, .write 0 (directBuffer [1]) [] 1, .write 0 (directBuffer [2]) [1] 0].foldlM
      (step fun _ => 0) new = none :=
  ⟨⟨_, rfl, rfl, rfl⟩, rfl⟩

end Manager

end Auron.OnHeap
