import Mathlib.Data.Set.Basic
import Mathlib.Logic.Relation

/-!
# The processes of a native execution

A plan that runs is a number of processes.  Each operator that is built with `output_with_sender` is a task with a channel
of one place for its batches; the task that reads the channel polls it together with the join set of the sender
(`ReceiverStreamBuilder::build`).  The producer task of `NativeExecutionRuntime::start` polls the stream of the root and
puts its batches into a channel of one place, from which the consumer takes them with `next_batch`.

The code of an operator is a parameter: what it does is a graph of `Action`s.  It may fail at any of them.  An error that
it receives ends it (`transpose()?`), and so does a panic that is resumed in its poll.

A failure travels from a task to its reader on two ways: the task sends the error and then panics, and the reader takes
what it sees first, the item in the channel or the panic of the join set.  When the channel is closed without an error, the
join set tells a task that has returned from one that has panicked.
-/

namespace Auron.Runtime

/-! ### Operators and plans -/

/-- What the code of an operator does next; `σ` are the places in its code. -/
inductive Action (B : Type) (N : ℕ) (σ : Type)
  /-- goes on, in one of several ways -/
  | compute (next : Set σ) (nonempty : next.Nonempty)
  /-- `sender.send(batch).await`; of a stream without a task, the batch it yields -/
  | send (batch : B) (next : σ)
  /-- `input.next().await.transpose()?` -/
  | recv (input : Fin N) (onBatch : B → σ) (onEnd : σ)
  | dropInput (input : Fin N) (next : σ)
  /-- `Ok(())` -/
  | ok
  | err (message : String)
  | panic (message : String)

variable {B σ : Type} {N : ℕ}

def Action.Leads : Action B N σ → σ → Prop
  | .compute next _, y => y ∈ next
  | .send _ next, y => y = next
  | .recv _ _ onEnd, y => y = onEnd
  | .dropInput _ next, y => y = next
  | _, _ => False

def Action.input : Action B N σ → Option (Fin N)
  | .recv input _ _ => some input
  | .dropInput input _ => some input
  | _ => none

/-- The code of an operator.  It comes to an end unless it gets new batches. -/
structure Operator (B : Type) (N : ℕ) (σ : Type) where
  init : σ
  action : σ → Action B N σ
  ends : WellFounded fun y x => (action x).Leads y

/-- What `execute` gives for the plan. -/
inductive Execution
  | ok
  | err (message : String)
  | panic (message : String)

/-- A plan: the operators with a task, numbered such that an input stands before its reader, and the root.  Operators
without a task run in the task that polls them, and are part of its code. -/
structure Plan (B σ : Type) where
  numTasks : ℕ
  desc : Fin numTasks → String
  /-- The code of a task, and that of the stream that the producer polls. -/
  operator : Option (Fin numTasks) → Operator B numTasks σ
  /-- The task that reads a stream, or the producer. -/
  reader : Fin numTasks → Option (Fin numTasks)
  lt_reader : ∀ {j i}, reader j = some i → j < i
  reads : ∀ {p x j}, ((operator p).action x).input = some j → reader j = p
  execution : Execution
  /-- `RecordBatchWithPayload::is_empty` -/
  isEmpty : B → Bool

/-! ### Tasks and their streams -/

def executionError (message : String) : String := "Execution error: " ++ message

/-- A task of `output_with_sender_impl`. -/
inductive TaskState (σ : Type)
  | running (x : σ)
  /-- `output` has failed, the error is to be sent -/
  | failing (error : String)
  /-- the error is sent, the task is to panic -/
  | unwinding (error : String)
  | done
  | panicked (message : String)
  | aborted

structure Net (plan : Plan B σ) where
  task : Fin plan.numTasks → TaskState σ
  chan : Fin plan.numTasks → List (Except String B)
  /-- The reader holds the stream. -/
  opened : Fin plan.numTasks → Bool
  /-- The reader has seen the end of the stream. -/
  ended : Fin plan.numTasks → Bool

variable {plan : Plan B σ}

inductive Polled (B : Type)
  | batch (b : B)
  | error (message : String)
  | panic (message : String)
  | finish

/-- A poll of `select(rx_stream, check_stream)` that is ready. -/
inductive Poll (n : Net plan) (j : Fin plan.numTasks) : Polled B → Net plan → Prop
  | batch {b rest} (h : n.chan j = .ok b :: rest) : Poll n j (.batch b) { n with chan := Function.update n.chan j rest }
  | error {e rest} (h : n.chan j = .error e :: rest) :
    Poll n j (.error e) { n with chan := Function.update n.chan j rest }
  | panic {m} (h : n.task j = .panicked m) : Poll n j (.panic m) n
  | cancelled (joinError : String) (h : n.task j = .aborted) :
    Poll n j (.error (executionError ("Non Panic Task error: " ++ joinError))) n
  /-- both streams have ended -/
  | finish (hdone : n.task j = .done) (hempty : n.chan j = []) :
    Poll n j .finish { n with ended := Function.update n.ended j true }

inductive Progress (σ : Type)
  | goes (x : σ)
  | ok
  | err (message : String)
  | panics (message : String)

inductive Advance (n : Net plan) (p : Option (Fin plan.numTasks)) (x : σ) : Progress σ → Net plan → Prop
  | compute {next hne y} (h : (plan.operator p).action x = .compute next hne) (hy : y ∈ next) : Advance n p x (.goes y) n
  | batch {j onBatch onEnd b n'} (h : (plan.operator p).action x = .recv j onBatch onEnd) (hpoll : Poll n j (.batch b) n') :
    Advance n p x (.goes (onBatch b)) n'
  | finish {j onBatch onEnd n'} (h : (plan.operator p).action x = .recv j onBatch onEnd) (hpoll : Poll n j .finish n') :
    Advance n p x (.goes onEnd) n'
  | error {j onBatch onEnd e n'} (h : (plan.operator p).action x = .recv j onBatch onEnd)
    (hpoll : Poll n j (.error e) n') : Advance n p x (.err e) n'
  | resumed {j onBatch onEnd m n'} (h : (plan.operator p).action x = .recv j onBatch onEnd)
    (hpoll : Poll n j (.panic m) n') : Advance n p x (.panics m) n'
  | dropInput {j y} (h : (plan.operator p).action x = .dropInput j y) :
    Advance n p x (.goes y) { n with opened := Function.update n.opened j false }
  | ok (h : (plan.operator p).action x = .ok) : Advance n p x .ok n
  | err {m} (h : (plan.operator p).action x = .err m) : Advance n p x (.err m) n
  | panic {m} (h : (plan.operator p).action x = .panic m) : Advance n p x (.panics m) n

def Net.closeInputs (n : Net plan) (p : Option (Fin plan.numTasks)) : Net plan :=
  { n with opened := fun j => n.opened j && decide (plan.reader j ≠ p) }

def Net.setTask (n : Net plan) (i : Fin plan.numTasks) (t : TaskState σ) : Net plan :=
  { n with task := Function.update n.task i t }

/-- The task behind a step of its code: an error of `output` is turned into a panic, and a panic is caught. -/
def Net.advance (n : Net plan) (i : Fin plan.numTasks) : Progress σ → Net plan
  | .goes x => n.setTask i (.running x)
  | .ok => (n.setTask i .done).closeInputs (some i)
  | .err e =>
    let panicMessage := "output_with_sender[" ++ plan.desc i ++ "]: output() returns error: " ++ e
    (n.setTask i (.failing (executionError panicMessage))).closeInputs (some i)
  | .panics m => (n.setTask i (.failing (executionError m))).closeInputs (some i)

/-- The message of the panic that ends a task; it depends on `is_task_running`. -/
def panicText (desc : String) (taskRunning : Bool) (error : String) : String :=
  if taskRunning then "output_with_sender[" ++ desc ++ "] error: " ++ error
  else "output_with_sender[" ++ desc ++ "] canceled due to task finished/killed"

def TaskState.live : TaskState σ → Bool
  | .running _ => true
  | .failing _ => true
  | .unwinding _ => true
  | _ => false

inductive TaskStep (finalizing : Bool) (n : Net plan) : Net plan → Prop
  | advance {i x r n'} (h : n.task i = .running x) (hstep : Advance n (some i) x r n') :
    TaskStep finalizing n (n'.advance i r)
  /-- `WrappedSender::send` when there is room -/
  | send {i x b y} (h : n.task i = .running x) (hsend : (plan.operator (some i)).action x = .send b y)
    (hne : plan.isEmpty b = false) (hopen : n.opened i = true) (hroom : n.chan i = []) :
    TaskStep finalizing n { n.setTask i (.running y) with chan := Function.update n.chan i [.ok b] }
  /-- an empty batch, or a channel that is closed -/
  | sendSkipped {i x b y} (h : n.task i = .running x) (hsend : (plan.operator (some i)).action x = .send b y)
    (hskip : plan.isEmpty b = true ∨ n.opened i = false) : TaskStep finalizing n (n.setTask i (.running y))
  | sendError {i e} (h : n.task i = .failing e) (hopen : n.opened i = true) (hroom : n.chan i = []) :
    TaskStep finalizing n
      { n.setTask i (.unwinding e) with chan := Function.update n.chan i [.error (executionError e)] }
  | sendErrorSkipped {i e} (h : n.task i = .failing e) (hopen : n.opened i = false) :
    TaskStep finalizing n (n.setTask i (.unwinding e))
  | unwind {i e} (taskRunning : Bool) (h : n.task i = .unwinding e) :
    TaskStep finalizing n (n.setTask i (.panicked (panicText (plan.desc i) taskRunning e)))
  /-- the join set of a stream that is dropped aborts the task, and so does the shutdown of the runtime -/
  | abort {i} (h : (n.task i).live = true) (hdropped : n.opened i = false ∨ finalizing = true) :
    TaskStep finalizing n ((n.setTask i .aborted).closeInputs (some i))

/-! ### The producer and the consumer -/

inductive Outcome
  | completed
  /-- the runtime is being finalized -/
  | skipped
  | failed
  deriving DecidableEq

/-- The producer task of `NativeExecutionRuntime::start`. -/
inductive ProducerState (B σ : Type)
  | starting
  | polling (x : σ)
  | sending (batch : B) (x : σ)
  /-- the stream is exhausted, `Ok(None)` is to be sent -/
  | finishing
  /-- `consume_stream` has failed -/
  | handling (error : String)
  /-- the task is running: the error is to be sent -/
  | sendingError (text error : String)
  /-- the error is sent, and is to be set on the wrapper -/
  | reporting (error : String)
  | ended (outcome : Outcome)

def ProducerState.holdsStream : ProducerState B σ → Bool
  | .starting => true
  | .polling _ => true
  | .sending _ _ => true
  | .finishing => true
  | _ => false

inductive ConsumerState
  | idle
  | receiving
  | finalized
  deriving DecidableEq

/-- What `next_batch` has done: a batch imported and `true`, or `false` with the error it has set on the wrapper. -/
inductive NextBatch (B : Type)
  | imported (batch : B)
  | noBatch (error : Option String)

/-- The producer, the consumer and the channel between them, with what has been seen of them. -/
structure Front (B σ : Type) where
  producer : ProducerState B σ := .starting
  out : List (Except String (Option B)) := []
  /-- `batch_receiver` is not dropped. -/
  receiver : Bool := true
  consumer : ConsumerState := .idle
  finalizing : Bool := false
  /-- The batches of the stream of the root. -/
  produced : List B := []
  results : List (NextBatch B) := []
  wrapperErrors : List String := []

def sendFailed (finalizing : Bool) (sendError : String) : ProducerState B σ :=
  if finalizing then .ended .skipped else .handling (executionError ("unexpected send error: " ++ sendError))

/-- `next_batch` with a message of the channel. -/
def respond (finalizing : Bool) : Except String (Option B) → NextBatch B
  | .ok (some batch) => .imported batch
  | .ok none => .noBatch none
  | .error e => .noBatch (if finalizing then none else some ("poll record batch error: " ++ e))

def NextBatch.errors : NextBatch B → List String
  | .noBatch (some e) => [e]
  | _ => []

/-- `next_batch` returns. -/
def Front.give (f : Front B σ) (r : NextBatch B) : Front B σ :=
  { f with consumer := .idle, results := f.results ++ [r], wrapperErrors := f.wrapperErrors ++ r.errors }

/-- The error of `recv` on a channel without senders. -/
def receiveError : String := executionError "receive batch error: receiving on a closed channel"

/-- The producer behind `execute`. -/
def started (plan : Plan B σ) : ProducerState B σ :=
  match plan.execution with
  | .ok => .polling (plan.operator none).init
  | .err e => .handling e
  -- nobody catches it: the task is over, and its senders are dropped
  | .panic _ => .ended .failed

/-- The producer behind a step of the stream of the root: a panic is caught around `stream.next()`. -/
def polled : Progress σ → ProducerState B σ
  | .goes x => .polling x
  | .ok => .finishing
  | .err e => .handling (executionError e)
  | .panics m => .handling (executionError (executionError m))

inductive FrontStep (plan : Plan B σ) (f : Front B σ) : Front B σ → Prop
  | start (h : f.producer = .starting) : FrontStep plan f { f with producer := started plan }
  | yield {x b y} (h : f.producer = .polling x) (hsend : (plan.operator none).action x = .send b y) :
    FrontStep plan f { f with producer := .sending b y, produced := f.produced ++ [b] }
  | put {b x} (h : f.producer = .sending b x) (hopen : f.receiver = true) (hroom : f.out = []) :
    FrontStep plan f { f with producer := .polling x, out := [.ok (some b)] }
  | putFailed {b x} (sendError : String) (h : f.producer = .sending b x) (hopen : f.receiver = false) :
    FrontStep plan f { f with producer := sendFailed f.finalizing sendError }
  | finish (h : f.producer = .finishing) (hopen : f.receiver = true) (hroom : f.out = []) :
    FrontStep plan f { f with producer := .ended .completed, out := [.ok none] }
  | finishFailed (sendError : String) (h : f.producer = .finishing) (hopen : f.receiver = false) :
    FrontStep plan f { f with producer := sendFailed f.finalizing sendError }
  /-- the task is not running, the runtime is being finalized, or the JVM does not answer -/
  | handleQuietly {e} (h : f.producer = .handling e) : FrontStep plan f { f with producer := .ended .failed }
  | handle {e} (exception : Bool) (h : f.producer = .handling e) (hfinalizing : f.finalizing = false) :
    FrontStep plan f { f with
      producer := .sendingError
        ((if exception then "native execution panics with exception: " else "native execution panics: ") ++ e) e }
  | putError {text e} (h : f.producer = .sendingError text e) (hopen : f.receiver = true) (hroom : f.out = []) :
    FrontStep plan f { f with producer := .reporting e, out := [.error (executionError text)] }
  | putErrorFailed {text e} (h : f.producer = .sendingError text e) (hopen : f.receiver = false) :
    FrontStep plan f { f with producer := .ended .failed }
  | report {e} (h : f.producer = .reporting e) :
    FrontStep plan f { f with producer := .ended .failed, wrapperErrors := f.wrapperErrors ++ ["task panics: " ++ e] }
  /-- `join_handle.abort()` -/
  | abort (h : f.finalizing = true) : FrontStep plan f { f with producer := .ended .skipped }
  | call (h : f.consumer = .idle) : FrontStep plan f { f with consumer := .receiving }
  | receive {m rest} (h : f.consumer = .receiving) (hout : f.out = m :: rest) :
    FrontStep plan f ({ f with out := rest }.give (respond f.finalizing m))
  | disconnected {o} (h : f.consumer = .receiving) (hout : f.out = []) (hended : f.producer = .ended o) :
    FrontStep plan f (f.give (respond f.finalizing (.error receiveError)))

/-! ### The whole -/

structure State (plan : Plan B σ) where
  net : Net plan
  front : Front B σ

/-- The stream of the root is dropped with `consume_stream`. -/
def Net.closeRoot (n : Net plan) (p : ProducerState B σ) : Net plan :=
  if p.holdsStream then n else n.closeInputs none

inductive Step (s : State plan) : State plan → Prop
  | task {n} (h : TaskStep s.front.finalizing s.net n) : Step s ⟨n, s.front⟩
  | poll {x r n} (h : s.front.producer = .polling x) (hstep : Advance s.net none x r n) :
    Step s ⟨n.closeRoot (polled r : ProducerState B σ), { s.front with producer := polled r }⟩
  | front {f} (h : FrontStep plan s.front f) : Step s ⟨s.net.closeRoot f.producer, f⟩

/-- `cancel_all_tasks`: `try_send` to every sender that is still there. -/
def Net.cancelAll (n : Net plan) : Net plan :=
  { n with chan := fun j =>
      match n.task j with
      | .running _ =>
        if n.opened j = true ∧ n.chan j = [] then [.error (executionError "task completed/cancelled")] else n.chan j
      | _ => n.chan j }

/-- `finalize`: the flag is set before the receiver is dropped. -/
inductive Finalize (s : State plan) : State plan → Prop
  | flag (h : s.front.consumer = .idle) :
    Finalize s { s with front := { s.front with consumer := .finalized, finalizing := true } }
  | cancel (h : s.front.consumer = .finalized) :
    Finalize s ⟨s.net.cancelAll, { s.front with receiver := false }⟩

def State.init (plan : Plan B σ) : State plan where
  net :=
    { task := fun i => .running (plan.operator (some i)).init
      chan := fun _ => []
      opened := fun _ => true
      ended := fun _ => false }
  front := {}

def Reachable (plan : Plan B σ) : State plan → Prop :=
  Relation.ReflTransGen (fun s t => Step s t ∨ Finalize s t) (State.init plan)

end Auron.Runtime
