import Auron.Lib.Inevitable
import Auron.LimitExec
import Auron.Runtime.Processes

/-!
# What the consumer sees of a query

Three facts about every interleaving in which the runtime is not finalized.

* What `next_batch` has given is a prefix of the batches of the root, in order, then perhaps one `false` without an error,
  which means that the stream of the root has ended normally, then only `false` with an error (`Front.Talk.shape`).
* A call of `next_batch` returns, and the consumer that goes on calling gets a `false` (`inevitable_of_runs`): whoever
  waits waits for a process that can move, and every step lowers a rank.
* If a task has failed and the query still looks finished, then some operator between the task and the root has returned
  without having seen the end of its input (`exists_stoppedEarly`).  A limit does so.
-/

namespace Auron.Runtime

open Auron.Lib List
open Function (update_of_ne)

variable {B σ : Type} {plan : Plan B σ}

/-! ### Streams that were read to their ends -/

/-- A reader has seen the end of a stream only if its task has returned and the channel is empty. -/
def Net.Sound (n : Net plan) : Prop := ∀ j, n.ended j = true → n.task j = .done ∧ n.chan j = []

/-- The task has failed, or was aborted; it will not return. -/
def TaskState.broken : TaskState σ → Bool
  | .failing _ => true
  | .unwinding _ => true
  | .panicked _ => true
  | .aborted => true
  | _ => false

variable {n n' : Net plan} {i : Fin plan.numTasks}

lemma Net.Sound.congr (h : n.Sound) (hlive : (n.task i).live = true) (hended : n'.ended = n.ended)
    (htask : ∀ j ≠ i, n'.task j = n.task j) (hchan : ∀ j ≠ i, n'.chan j = n.chan j) : n'.Sound := by
  intro j hj
  rw [hended] at hj
  obtain ⟨hdone, hempty⟩ := h j hj
  have hne : j ≠ i := by
    rintro rfl
    rw [hdone] at hlive
    cases hlive
  rw [htask j hne, hchan j hne]
  exact ⟨hdone, hempty⟩

variable {j : Fin plan.numTasks} {r : Polled B}

lemma Poll.task_eq (h : Poll n j r n') : n'.task = n.task := by
  cases h <;> rfl

lemma Poll.sound (h : Poll n j r n') (hn : n.Sound) : n'.Sound := by
  intro k hk
  cases h with
  | batch h | error h =>
    obtain ⟨hdone, hempty⟩ := hn k hk
    refine ⟨hdone, ?_⟩
    have hne : k ≠ j := by
      rintro rfl
      rw [h] at hempty
      cases hempty
    exact (update_of_ne hne _ _).trans hempty
  | panic _ | cancelled _ _ => exact hn k hk
  | finish hdone hempty =>
    by_cases hkj : k = j
    · subst hkj
      exact ⟨hdone, hempty⟩
    · exact hn k ((update_of_ne hkj _ _).symm.trans hk)

variable {p : Option (Fin plan.numTasks)} {x : σ}

lemma Advance.task_eq {r : Progress σ} (h : Advance n p x r n') : n'.task = n.task := by
  cases h with
  | batch _ hpoll | finish _ hpoll | error _ hpoll | resumed _ hpoll => exact hpoll.task_eq
  | _ => rfl

lemma Advance.sound {r : Progress σ} (h : Advance n p x r n') (hn : n.Sound) : n'.Sound := by
  cases h with
  | batch _ hpoll | finish _ hpoll | error _ hpoll | resumed _ hpoll => exact hpoll.sound hn
  | _ => exact hn

lemma Net.advance_ended (n : Net plan) (i : Fin plan.numTasks) (r : Progress σ) :
    (n.advance i r).ended = n.ended ∧ (n.advance i r).chan = n.chan := by
  cases r <;> exact ⟨rfl, rfl⟩

lemma Net.advance_task_of_ne (n : Net plan) (h : j ≠ i) (r : Progress σ) : (n.advance i r).task j = n.task j := by
  cases r <;> exact update_of_ne h _ _

lemma TaskStep.sound {finalizing : Bool} (h : TaskStep finalizing n n') (hn : n.Sound) : n'.Sound := by
  cases h with
  | advance h hstep =>
    have hlive := congrArg TaskState.live h
    rw [← hstep.task_eq] at hlive
    exact (hstep.sound hn).congr hlive (Net.advance_ended _ _ _).1 (fun j hj => Net.advance_task_of_ne _ hj _)
      (fun j _ => congrFun (Net.advance_ended _ _ _).2 j)
  | send h | sendError h =>
    exact hn.congr (congrArg TaskState.live h) rfl (fun j hj => update_of_ne hj _ _)
      (fun j hj => update_of_ne hj _ _)
  | sendSkipped h | sendErrorSkipped h | unwind _ h =>
    exact hn.congr (congrArg TaskState.live h) rfl (fun j hj => update_of_ne hj _ _) (fun _ _ => rfl)
  | abort h => exact hn.congr h rfl (fun j hj => update_of_ne hj _ _) (fun _ _ => rfl)

lemma TaskStep.broken {finalizing : Bool} (h : TaskStep finalizing n n') (hj : (n.task j).broken = true) :
    (n'.task j).broken = true := by
  -- the steps of other tasks leave it, and of its own only those of a failure are possible
  have hset : ∀ i t, (i = j → t.broken = true) → ((n.setTask i t).task j).broken = true := by
    intro i t ht
    by_cases hij : i = j
    · subst hij
      simpa [Net.setTask] using ht rfl
    · simpa [Net.setTask, update_of_ne (Ne.symm hij)] using hj
  cases h with
  | @advance i x r n1 h hstep =>
    have hij : j ≠ i := by
      rintro rfl
      rw [h] at hj
      cases hj
    rw [Net.advance_task_of_ne _ hij, hstep.task_eq]
    exact hj
  | send h | sendSkipped h =>
    refine hset _ _ fun hij => ?_
    subst hij
    rw [h] at hj
    cases hj
  | sendError h | sendErrorSkipped h | unwind _ h | abort h => exact hset _ _ fun _ => rfl

/-! ### The talk between the producer and the consumer -/

def ProducerState.pending : ProducerState B σ → List B
  | .sending b _ => [b]
  | _ => []

def ProducerState.Ending : ProducerState B σ → List (Except String (Option B)) → Prop
  | .ended .completed, msgs => msgs = [.ok none]
  | .ended .failed, msgs => msgs = [] ∨ ∃ e, msgs = [.error e]
  | .ended .skipped, _ => False
  | .reporting _, msgs => ∃ e, msgs = [.error e]
  | _, msgs => msgs = []

lemma ProducerState.Ending.cases {p : ProducerState B σ} {msgs : List (Except String (Option B))} (h : p.Ending msgs) :
    msgs = [] ∨ p = .ended .completed ∧ msgs = [.ok none] ∨ ∃ e, msgs = [.error e] := by
  match p, h with
  | .ended .completed, h => exact .inr (.inl ⟨rfl, h⟩)
  | .ended .failed, .inl h => exact .inl h
  | .ended .failed, .inr h => exact .inr (.inr h)
  | .reporting _, h => exact .inr (.inr h)
  | .starting, h | .polling _, h | .sending _ _, h | .finishing, h | .handling _, h | .sendingError _ _, h => exact .inl h

/-- The messages of the producer, of which some are delivered, and the calls after it has gone. -/
structure Front.Talk (f : Front B σ) (batches : List B) (last delivered : List (Except String (Option B)))
    (late : List String) : Prop where
  produced : f.produced = batches ++ f.producer.pending
  ending : f.producer.Ending last
  messages : delivered ++ f.out = batches.map (fun b => .ok (some b)) ++ last
  results : f.results = delivered.map (respond false) ++ late.map fun e => .noBatch (some e)
  gone : late ≠ [] → f.out = [] ∧ ∃ o, f.producer = .ended o

variable {f : Front B σ} {batches : List B} {last delivered : List (Except String (Option B))} {late : List String}

section Talk

variable (h : f.Talk batches last delivered late)

include h

/-- **What the consumer has got**: batches in order, then a normal end or not, then errors. -/
theorem Front.Talk.shape :
    ∃ (got : List B) (errors : List String), got <+: f.produced ∧
      (f.results = got.map .imported ++ errors.map (fun e => .noBatch (some e)) ∨
        f.producer = .ended .completed ∧ got = f.produced ∧
          f.results = got.map .imported ++ .noBatch none :: errors.map fun e => .noBatch (some e)) := by
  have himported : ∀ l : List B, (l.map fun b => (.ok (some b) : Except String (Option B))).map (respond false) =
      l.map NextBatch.imported := by
    intro l
    rw [map_map]
    rfl
  have hgot : batches <+: f.produced := ⟨_, h.produced.symm⟩
  rcases append_eq_append_iff.1 h.messages with ⟨rest, hrest, -⟩ | ⟨extra, hextra, hlast⟩
  · -- the consumer has not got all batches
    obtain ⟨got, _, rfl, hdelivered, -⟩ := map_eq_append_iff.1 hrest
    refine ⟨got, late, (prefix_append _ _).trans hgot, .inl ?_⟩
    rw [h.results, ← hdelivered, himported]
  · have hresults : f.results = batches.map .imported ++ (extra.map (respond false) ++
        late.map fun e => .noBatch (some e)) := by
      rw [h.results, hextra, map_append, himported, append_assoc]
    have hnone : extra = [] → f.results = batches.map .imported ++ late.map fun e => .noBatch (some e) := by
      rintro rfl
      exact hresults
    rcases h.ending.cases with rfl | ⟨hended, rfl⟩ | ⟨e, rfl⟩
    · exact ⟨batches, late, hgot, .inl (hnone (append_eq_nil_iff.1 hlast.symm).1)⟩
    · rcases append_eq_singleton_iff.1 hlast.symm with ⟨hnil, -⟩ | ⟨rfl, -⟩
      · exact ⟨batches, late, hgot, .inl (hnone hnil)⟩
      · refine ⟨batches, late, hgot, .inr ⟨hended, ?_, hresults⟩⟩
        rw [h.produced, hended]
        exact (append_nil _).symm
    · rcases append_eq_singleton_iff.1 hlast.symm with ⟨hnil, -⟩ | ⟨rfl, -⟩
      · exact ⟨batches, late, hgot, .inl (hnone hnil)⟩
      · exact ⟨batches, ("poll record batch error: " ++ e) :: late, hgot, .inl hresults⟩

variable {q p : ProducerState B σ} (hq : f.producer = q) (hlive : ∀ o, q ≠ .ended o)

include hq hlive

lemma Front.Talk.move (hpending : p.pending = q.pending) (hending : q.Ending last → p.Ending last) :
    ({ f with producer := p } : Front B σ).Talk batches last delivered late where
  produced := by rw [h.produced, hq, hpending]
  ending := hending (hq ▸ h.ending)
  messages := h.messages
  results := h.results
  gone hlate := by
    obtain ⟨-, o, ho⟩ := h.gone hlate
    exact absurd (hq.symm.trans ho) (hlive o)

lemma Front.Talk.put (hlast : q.Ending last → last = []) (hroom : f.out = []) {batches' : List B}
    {m : Except String (Option B)} {last' : List (Except String (Option B))}
    (hpending : batches ++ q.pending = batches' ++ p.pending) (hending : p.Ending last')
    (hmsg : batches.map (fun b => .ok (some b)) ++ [m] = batches'.map (fun b => .ok (some b)) ++ last') :
    ({ f with producer := p, out := [m] } : Front B σ).Talk batches' last' delivered late where
  produced := by rw [h.produced, hq, hpending]
  ending := hending
  messages := by
    have hbefore := h.messages
    rw [hroom, hlast (hq ▸ h.ending), append_nil, append_nil] at hbefore
    rw [hbefore, hmsg]
  results := h.results
  gone hlate := by
    obtain ⟨-, o, ho⟩ := h.gone hlate
    exact absurd (hq.symm.trans ho) (hlive o)

end Talk

structure Front.Runs (f : Front B σ) : Prop where
  finalizing : f.finalizing = false
  receiver : f.receiver = true
  consumer : f.consumer ≠ .finalized
  talk : ∃ batches last delivered late, f.Talk batches last delivered late

lemma started_cases (plan : Plan B σ) :
    (started plan).pending = [] ∧ (started plan).Ending [] := by
  unfold started
  split
  · exact ⟨rfl, rfl⟩
  · exact ⟨rfl, rfl⟩
  · exact ⟨rfl, .inl rfl⟩

variable {f' : Front B σ}

lemma FrontStep.talk (h : FrontStep plan f f') (hf : f.Runs) :
    ∃ batches last delivered late, f'.Talk batches last delivered late := by
  obtain ⟨batches, last, delivered, late, ht⟩ := hf.talk
  cases h with
  | start h =>
    exact ⟨_, _, _, _, ht.move h nofun (started_cases plan).1 fun hlast : last = [] => hlast ▸ (started_cases plan).2⟩
  | @yield x b y h hsend =>
    have hmove := ht.move (p := .polling x) h nofun rfl id
    refine ⟨batches, last, delivered, late, ?_, hmove.ending, ht.messages, ht.results, fun hlate => ?_⟩
    · rw [hmove.produced]
      simp [ProducerState.pending]
    · obtain ⟨-, o, ho⟩ := hmove.gone hlate
      cases ho
  | @put b x h _ hroom =>
    exact ⟨batches ++ [b], [], delivered, late, ht.put h nofun id hroom (append_nil _).symm rfl (by simp)⟩
  | putFailed _ _ hopen | finishFailed _ _ hopen | putErrorFailed _ hopen =>
    rw [hf.receiver] at hopen
    cases hopen
  | finish h _ hroom => exact ⟨batches, [.ok none], delivered, late, ht.put h nofun id hroom rfl rfl rfl⟩
  | handleQuietly h => exact ⟨_, _, _, _, ht.move h nofun rfl .inl⟩
  | handle exception h _ => exact ⟨_, _, _, _, ht.move h nofun rfl id⟩
  | putError h _ hroom => exact ⟨batches, _, delivered, late, ht.put h nofun id hroom rfl ⟨_, rfl⟩ rfl⟩
  | report h =>
    have hmove := ht.move (p := .ended .failed) h nofun rfl .inr
    exact ⟨_, _, _, _, hmove.produced, hmove.ending, hmove.messages, hmove.results, hmove.gone⟩
  | abort h =>
    rw [hf.finalizing] at h
    cases h
  | call _ => exact ⟨batches, last, delivered, late, ht.produced, ht.ending, ht.messages, ht.results, ht.gone⟩
  | @receive m rest h hout =>
    obtain rfl : late = [] := by
      by_contra hlate
      obtain ⟨hnil, -⟩ := ht.gone hlate
      rw [hout] at hnil
      cases hnil
    refine ⟨batches, last, delivered ++ [m], [], ht.produced, ht.ending, ?_, ?_, fun hlate => absurd rfl hlate⟩
    · have hmessages := ht.messages
      rw [hout] at hmessages
      simpa [Front.give] using hmessages
    · simp [Front.give, ht.results, hf.finalizing]
  | @disconnected o h hout hended =>
    refine ⟨batches, last, delivered, late ++ ["poll record batch error: " ++ receiveError], ht.produced, ht.ending,
      ht.messages, ?_, fun _ => ⟨hout, o, hended⟩⟩
    simp [Front.give, ht.results, hf.finalizing, respond]

lemma FrontStep.runs (h : FrontStep plan f f') (hf : f.Runs) : f'.Runs := by
  refine ⟨?_, ?_, ?_, h.talk hf⟩
  · cases h <;> exact hf.finalizing
  · cases h <;> exact hf.receiver
  · cases h with
    | call _ | receive _ _ | disconnected _ _ _ => simp [Front.give]
    | _ => exact hf.consumer

/-! ### Runs -/

lemma Net.closeRoot_eq (n : Net plan) (p : ProducerState B σ) : (n.closeRoot p).task = n.task ∧
    (n.closeRoot p).chan = n.chan ∧ (n.closeRoot p).ended = n.ended := by
  unfold closeRoot
  split <;> exact ⟨rfl, rfl, rfl⟩

lemma Net.Sound.closeRoot (h : n.Sound) (p : ProducerState B σ) : (n.closeRoot p).Sound := by
  obtain ⟨htask, hchan, hended⟩ := n.closeRoot_eq p
  intro j hj
  rw [hended] at hj
  rw [htask, hchan]
  exact h j hj

structure State.Runs (s : State plan) : Prop where
  net : s.net.Sound
  front : s.front.Runs

lemma runs_init (plan : Plan B σ) : (State.init plan).Runs where
  net _ hj := by cases hj
  front := ⟨rfl, rfl, nofun, [], [], [], [], rfl, rfl, rfl, rfl, fun h => absurd rfl h⟩

lemma polled_cases (r : Progress σ) : (polled r : ProducerState B σ).pending = [] ∧
    (polled r : ProducerState B σ).Ending [] := by
  cases r <;> exact ⟨rfl, rfl⟩

variable {s t : State plan}

lemma Step.runs (h : Step s t) (hs : s.Runs) : t.Runs := by
  cases h with
  | task h => exact ⟨h.sound hs.net, hs.front⟩
  | @poll x r n h hstep =>
    refine ⟨(hstep.sound hs.net).closeRoot _, hs.front.finalizing, hs.front.receiver, hs.front.consumer, ?_⟩
    obtain ⟨_, last, _, _, ht⟩ := hs.front.talk
    exact ⟨_, _, _, _, ht.move h nofun (polled_cases r).1 fun hlast : last = [] => hlast ▸ (polled_cases r).2⟩
  | front h => exact ⟨hs.net.closeRoot _, h.runs hs.front⟩

lemma Reachable.runs (h : Reachable plan s) (hfinalizing : s.front.finalizing = false) : s.Runs := by
  have hstep : ∀ s t : State plan, s.front.finalizing = true ∨ s.Runs → Step s t ∨ Finalize s t →
      t.front.finalizing = true ∨ t.Runs := by
    rintro s t (hs | hs) (hst | hst)
    · left
      cases hst with
      | task _ | poll _ _ => exact hs
      | front h => cases h <;> exact hs
    · cases hst with
      | flag _ => exact .inl rfl
      | cancel _ => exact .inl hs
    · exact .inr (hst.runs hs)
    · cases hst with
      | flag _ => exact .inl rfl
      | cancel h => exact absurd h hs.front.consumer
  rcases inv_of_reach hstep (.inr (runs_init plan)) h with hflag | hruns
  · rw [hfinalizing] at hflag
    cases hflag
  · exact hruns

/-! ### Nobody waits forever -/

lemma Advance.of_poll {onBatch : B → σ} {onEnd : σ} (h : (plan.operator p).action x = .recv j onBatch onEnd)
    (hpoll : Poll n j r n') : ∃ r', Advance n p x r' n' := by
  cases r with
  | batch b => exact ⟨_, .batch h hpoll⟩
  | error e => exact ⟨_, .error h hpoll⟩
  | panic m => exact ⟨_, .resumed h hpoll⟩
  | finish => exact ⟨_, .finish h hpoll⟩

lemma advance_or_wait (n : Net plan) (p : Option (Fin plan.numTasks)) (x : σ) :
    (∃ r n', Advance n p x r n') ∨ (∃ b y, (plan.operator p).action x = .send b y) ∨
      ∃ j onBatch onEnd, (plan.operator p).action x = .recv j onBatch onEnd := by
  cases h : (plan.operator p).action x with
  | compute next hne =>
    obtain ⟨y, hy⟩ := hne
    exact .inl ⟨_, _, .compute h hy⟩
  | send b y => exact .inr (.inl ⟨b, y, rfl⟩)
  | recv j onBatch onEnd => exact .inr (.inr ⟨j, onBatch, onEnd, rfl⟩)
  | dropInput j y => exact .inl ⟨_, _, .dropInput h⟩
  | ok => exact .inl ⟨_, _, .ok h⟩
  | err m => exact .inl ⟨_, _, .err h⟩
  | panic m => exact .inl ⟨_, _, .panic h⟩

lemma reader_of_recv {onBatch : B → σ} {onEnd : σ} (h : (plan.operator p).action x = .recv j onBatch onEnd) :
    plan.reader j = p :=
  plan.reads (x := x) (by rw [h]; rfl)

/-- Whoever polls a stream can go on, or some task can: its own, or one that this waits for. -/
lemma poll_or_step (finalizing : Bool) (n : Net plan) (j : Fin plan.numTasks) :
    (∃ r n', Poll n j r n') ∨ ∃ n', TaskStep finalizing n n' := by
  cases hchan : n.chan j with
  | cons m rest =>
    cases m with
    | ok b => exact .inl ⟨_, _, .batch hchan⟩
    | error e => exact .inl ⟨_, _, .error hchan⟩
  | nil =>
    cases htask : n.task j with
    | running x =>
      right
      rcases advance_or_wait n (some j) x with ⟨r, n', hstep⟩ | ⟨b, y, hsend⟩ | ⟨k, onBatch, onEnd, hrecv⟩
      · exact ⟨_, .advance htask hstep⟩
      · -- the channel is empty, so there is room
        cases hempty : plan.isEmpty b with
        | true => exact ⟨_, .sendSkipped htask hsend (.inl hempty)⟩
        | false =>
          cases hopen : n.opened j with
          | true => exact ⟨_, .send htask hsend hempty hopen hchan⟩
          | false => exact ⟨_, .sendSkipped htask hsend (.inr hopen)⟩
      · have hlt : k < j := plan.lt_reader (reader_of_recv hrecv)
        rcases poll_or_step finalizing n k with ⟨r, n', hpoll⟩ | hstep
        · obtain ⟨_, hadvance⟩ := Advance.of_poll hrecv hpoll
          exact ⟨_, .advance htask hadvance⟩
        · exact hstep
    | failing e =>
      cases hopen : n.opened j with
      | true => exact .inr ⟨_, .sendError htask hopen hchan⟩
      | false => exact .inr ⟨_, .sendErrorSkipped htask hopen⟩
    | unwinding e => exact .inr ⟨_, .unwind true htask⟩
    | done => exact .inl ⟨_, _, .finish htask hchan⟩
    | panicked m => exact .inl ⟨_, _, .panic htask⟩
    | aborted => exact .inl ⟨_, _, .cancelled "" htask⟩
termination_by j.val

/-- **No deadlock**: some process can move as long as the runtime is not finalized. -/
theorem State.Runs.exists_step (h : s.Runs) : ∃ t, Step s t := by
  cases hconsumer : s.front.consumer with
  | idle => exact ⟨_, .front (.call hconsumer)⟩
  | finalized => exact absurd hconsumer h.front.consumer
  | receiving =>
    cases hout : s.front.out with
    | cons m rest => exact ⟨_, .front (.receive hconsumer hout)⟩
    | nil =>
      -- the consumer waits for the producer
      cases hproducer : s.front.producer with
      | starting => exact ⟨_, .front (.start hproducer)⟩
      | polling x =>
        rcases advance_or_wait s.net none x with ⟨r, n', hstep⟩ | ⟨b, y, hsend⟩ | ⟨j, onBatch, onEnd, hrecv⟩
        · exact ⟨_, .poll hproducer hstep⟩
        · exact ⟨_, .front (.yield hproducer hsend)⟩
        · rcases poll_or_step s.front.finalizing s.net j with ⟨r, n', hpoll⟩ | ⟨n', hstep⟩
          · obtain ⟨_, hadvance⟩ := Advance.of_poll hrecv hpoll
            exact ⟨_, .poll hproducer hadvance⟩
          · exact ⟨_, .task hstep⟩
      | sending b x => exact ⟨_, .front (.put hproducer h.front.receiver hout)⟩
      | finishing => exact ⟨_, .front (.finish hproducer h.front.receiver hout)⟩
      | handling e => exact ⟨_, .front (.handle false hproducer h.front.finalizing)⟩
      | sendingError text e => exact ⟨_, .front (.putError hproducer h.front.receiver hout)⟩
      | reporting e => exact ⟨_, .front (.report hproducer)⟩
      | ended o => exact ⟨_, .front (.disconnected hconsumer hout hproducer)⟩

/-! ### Every step lowers a rank -/

/-- The relation on the ranks of one process: its phase, the place in its code, and a number. -/
def rankRel (op : Operator B plan.numTasks σ) : ℕ × σ × ℕ → ℕ × σ × ℕ → Prop :=
  Prod.Lex (· < ·) (Prod.Lex (fun y x => (op.action x).Leads y) (· < ·))

lemma wellFounded_rankRel (op : Operator B plan.numTasks σ) : WellFounded (rankRel op) :=
  Nat.lt_wfRel.wf.prod_lex (op.ends.prod_lex Nat.lt_wfRel.wf)

def TaskState.phase : TaskState σ → ℕ
  | .running _ => 3
  | .failing _ => 2
  | .unwinding _ => 1
  | _ => 0

def TaskState.place (init : σ) : TaskState σ → σ
  | .running x => x
  | _ => init

/-- The rank of a task; what stands in its channel counts, since the reader takes it. -/
def Net.rank (n : Net plan) (i : Fin plan.numTasks) : ℕ × σ × ℕ :=
  ((n.task i).phase, (n.task i).place (plan.operator none).init, (n.chan i).length)

/-- The rank of the producer; a batch that is not sent yet counts. -/
def ProducerState.rank (init : σ) : ProducerState B σ → ℕ × σ × ℕ
  | .starting => (6, init, 0)
  | .polling x => (5, x, 0)
  | .sending _ x => (5, x, 1)
  | .finishing => (4, init, 0)
  | .handling _ => (3, init, 0)
  | .sendingError _ _ => (2, init, 0)
  | .reporting _ => (1, init, 0)
  | .ended _ => (0, init, 0)

def ConsumerState.rank : ConsumerState → ℕ
  | .idle => 1
  | _ => 0

def Front.rank (init : σ) (f : Front B σ) : (ℕ × σ × ℕ) × ℕ × ℕ :=
  (f.producer.rank init, f.out.length, f.consumer.rank)

/-- The ranks of the tasks come first, inputs in front of their readers: a reader that gets a batch may have more to do. -/
def State.rank (s : State plan) : (Fin plan.numTasks → ℕ × σ × ℕ) × (ℕ × σ × ℕ) × ℕ × ℕ :=
  (s.net.rank, s.front.rank (plan.operator none).init)

section Ranks

variable (plan : Plan B σ)

/-- A task has a smaller rank, and those in front of it the same. -/
def tasksRel : (Fin plan.numTasks → ℕ × σ × ℕ) → (Fin plan.numTasks → ℕ × σ × ℕ) → Prop :=
  Pi.Lex (· < ·) fun {i} => rankRel (plan.operator (some i))

def frontRel : (ℕ × σ × ℕ) × ℕ × ℕ → (ℕ × σ × ℕ) × ℕ × ℕ → Prop :=
  Prod.Lex (rankRel (plan.operator none)) (Prod.Lex (· < ·) (· < ·))

def stateRel : (Fin plan.numTasks → ℕ × σ × ℕ) × (ℕ × σ × ℕ) × ℕ × ℕ →
    (Fin plan.numTasks → ℕ × σ × ℕ) × (ℕ × σ × ℕ) × ℕ × ℕ → Prop :=
  Prod.Lex (tasksRel plan) (frontRel plan)

lemma wellFounded_stateRel : WellFounded (stateRel plan) := by
  have htasks : WellFounded (tasksRel plan) := Pi.Lex.wellFounded _ fun i => wellFounded_rankRel (plan.operator (some i))
  exact htasks.prod_lex ((wellFounded_rankRel _).prod_lex (Nat.lt_wfRel.wf.prod_lex Nat.lt_wfRel.wf))

end Ranks

lemma Net.rank_congr (htask : n'.task i = n.task i) (hchan : n'.chan i = n.chan i) : n'.rank i = n.rank i := by
  unfold rank
  rw [htask, hchan]

/-- A step of code leaves the ranks of the tasks and goes on a way that takes no batch, or takes something out of the
channel of an input. -/
lemma Advance.rank {r : Progress σ} (h : Advance n p x r n') :
    (n'.rank = n.rank ∧ ∀ y, r = .goes y → ((plan.operator p).action x).Leads y) ∨
      ∃ j, plan.reader j = p ∧ (∀ k ≠ j, n'.rank k = n.rank k) ∧
        ∀ op : Operator B plan.numTasks σ, rankRel op (n'.rank j) (n.rank j) := by
  -- a poll that takes an item
  have hpop : ∀ {j m rest onBatch onEnd}, (plan.operator p).action x = .recv j onBatch onEnd → n.chan j = m :: rest →
      ∃ j', plan.reader j' = p ∧
        (∀ k ≠ j', Net.rank { n with chan := Function.update n.chan j rest } k = n.rank k) ∧
        ∀ op : Operator B plan.numTasks σ,
          rankRel op (Net.rank { n with chan := Function.update n.chan j rest } j') (n.rank j') := by
    intro j m rest _ _ hrecv hchan
    refine ⟨j, reader_of_recv hrecv, fun k hk => Net.rank_congr rfl (update_of_ne hk _ _), fun op => ?_⟩
    have hlt : (Function.update n.chan j rest j).length < (n.chan j).length := by simp [hchan]
    exact .right _ (.right _ hlt)
  cases h with
  | compute h hy =>
    refine .inl ⟨rfl, ?_⟩
    rintro _ ⟨⟩
    rw [h]
    exact hy
  | batch h hpoll =>
    cases hpoll with
    | batch hchan => exact .inr (hpop h hchan)
  | finish h hpoll =>
    cases hpoll
    refine .inl ⟨rfl, ?_⟩
    rintro _ ⟨⟩
    rw [h]
    rfl
  | error h hpoll =>
    cases hpoll with
    | error hchan => exact .inr (hpop h hchan)
    | cancelled _ _ => exact .inl ⟨rfl, nofun⟩
  | resumed h hpoll =>
    cases hpoll
    exact .inl ⟨rfl, nofun⟩
  | dropInput h =>
    refine .inl ⟨rfl, ?_⟩
    rintro _ ⟨⟩
    rw [h]
    rfl
  | ok _ | err _ | panic _ => exact .inl ⟨rfl, nofun⟩

/-- A task goes into a later phase, or on in its code. -/
def TaskState.Lowers (op : Operator B plan.numTasks σ) (init : σ) (t' t : TaskState σ) : Prop :=
  t'.phase < t.phase ∨ t'.phase = t.phase ∧ (op.action (t.place init)).Leads (t'.place init)

lemma tasksRel_of_lowers (htask : ∀ k ≠ i, n'.task k = n.task k) (hchan : ∀ k ≠ i, n'.chan k = n.chan k)
    (h : (n'.task i).Lowers (plan.operator (some i)) (plan.operator none).init (n.task i)) :
    tasksRel plan n'.rank n.rank := by
  refine ⟨i, fun k hk => Net.rank_congr (htask k hk.ne) (hchan k hk.ne), ?_⟩
  rcases h with h | ⟨hphase, hleads⟩
  · exact .left _ _ h
  · rw [Net.rank, hphase]
    exact .right _ (.left _ _ hleads)

lemma Net.advance_lowers (n : Net plan) (r : Progress σ)
    (h : ∀ y, r = .goes y → ((plan.operator (some i)).action x).Leads y) (init : σ) :
    ((n.advance i r).task i).Lowers (plan.operator (some i)) init (.running x) := by
  cases r with
  | goes y =>
    have htask : (n.advance i (.goes y)).task i = .running y := Function.update_self ..
    rw [htask]
    exact .inr ⟨rfl, h y rfl⟩
  | ok | err _ | panics _ =>
    left
    simp [advance, setTask, closeInputs, TaskState.phase]

lemma TaskState.phase_pos {t : TaskState σ} (h : t.live = true) : 0 < t.phase := by
  cases t with
  | running _ | failing _ | unwinding _ => simp [phase]
  | done | panicked _ | aborted => cases h

lemma TaskStep.rank {finalizing : Bool} {n n' : Net plan} (h : TaskStep finalizing n n') :
    tasksRel plan n'.rank n.rank := by
  have hother : ∀ {i k : Fin plan.numTasks} {t : TaskState σ}, k ≠ i → (n.setTask i t).task k = n.task k :=
    fun hk => update_of_ne hk _ _
  have hself : ∀ {i : Fin plan.numTasks} {t : TaskState σ}, (n.setTask i t).task i = t := Function.update_self ..
  cases h with
  | @advance i x r n1 h hstep =>
    have hchan : (n1.advance i r).chan = n1.chan := (Net.advance_ended n1 i r).2
    rcases hstep.rank with ⟨hsame, hleads⟩ | ⟨j, hreader, hothers, hlower⟩
    · rw [← hsame]
      refine tasksRel_of_lowers (fun k hk => Net.advance_task_of_ne n1 hk r) (fun k _ => congrFun hchan k) ?_
      rw [hstep.task_eq, h]
      exact Net.advance_lowers n1 r hleads _
    · -- the input stands in front of the task, so the rank of the task does not count
      have hlt : j < i := plan.lt_reader hreader
      have hfront : ∀ k ≤ j, (n1.advance i r).rank k = n1.rank k := fun k hk =>
        Net.rank_congr (Net.advance_task_of_ne n1 (hk.trans_lt hlt).ne r) (congrFun hchan k)
      refine ⟨j, fun k hk => (hfront k hk.le).trans (hothers k hk.ne), ?_⟩
      rw [hfront j le_rfl]
      exact hlower _
  | @send i x b y h hsend hne hopen hroom =>
    refine tasksRel_of_lowers (fun k hk => hother hk) (fun k hk => update_of_ne hk _ _) ?_
    rw [h]
    refine .inr ?_
    simp [hself, TaskState.phase, TaskState.place, hsend, Action.Leads]
  | @sendSkipped i x b y h hsend hskip =>
    refine tasksRel_of_lowers (fun k hk => hother hk) (fun _ _ => rfl) ?_
    rw [h, hself]
    exact .inr ⟨rfl, by simp [TaskState.place, hsend, Action.Leads]⟩
  | @sendError i e h hopen hroom =>
    refine tasksRel_of_lowers (fun k hk => hother hk) (fun k hk => update_of_ne hk _ _) (.inl ?_)
    simp [h, hself, TaskState.phase]
  | sendErrorSkipped h _ | unwind _ h =>
    refine tasksRel_of_lowers (fun k hk => hother hk) (fun _ _ => rfl) (.inl ?_)
    simp [h, hself, TaskState.phase]
  | @abort i h hdropped =>
    refine tasksRel_of_lowers (fun k hk => hother hk) (fun _ _ => rfl) (.inl ?_)
    have haborted : ((n.setTask i .aborted).closeInputs (some i)).task i = .aborted := hself
    rw [haborted]
    exact TaskState.phase_pos h

lemma FrontStep.rank (h : FrontStep plan f f') (hf : f.Runs) :
    frontRel plan (f'.rank (plan.operator none).init) (f.rank (plan.operator none).init) ∨
      f'.consumer = .idle ∧ ∃ e, .noBatch e ∈ f'.results := by
  cases h with
  | start h =>
    refine .inl (.left _ _ ?_)
    rw [h]
    unfold started
    split <;> exact .left _ _ (by omega)
  | yield h hsend =>
    refine .inl (.left _ _ ?_)
    rw [h]
    exact .right _ (.left _ _ (by rw [hsend]; rfl))
  | put h _ _ =>
    refine .inl (.left _ _ ?_)
    rw [h]
    exact .right _ (.right _ zero_lt_one)
  | putFailed _ _ hopen | finishFailed _ _ hopen | putErrorFailed _ hopen =>
    rw [hf.receiver] at hopen
    cases hopen
  | finish h _ _ | handleQuietly h | handle _ h _ | putError h _ _ | report h =>
    refine .inl (.left _ _ ?_)
    rw [h]
    exact .left _ _ (by omega)
  | abort h =>
    rw [hf.finalizing] at h
    cases h
  | call h =>
    refine .inl (.right _ (.right _ ?_))
    rw [h]
    exact zero_lt_one
  | receive h hout =>
    refine .inl (.right _ (.left _ _ ?_))
    rw [hout]
    exact Nat.lt_succ_self _
  | disconnected h hout hended =>
    exact .inr ⟨rfl, _, mem_append_right _ (mem_singleton.2 rfl)⟩

lemma Net.rank_closeRoot (n : Net plan) (p : ProducerState B σ) : (n.closeRoot p).rank = n.rank := by
  funext i
  exact rank_congr (congrFun (n.closeRoot_eq p).1 i) (congrFun (n.closeRoot_eq p).2.1 i)

/-- **Every step lowers the rank**, or a call has returned `false` because the producer has gone. -/
theorem Step.rank (h : Step s t) (hs : s.Runs) :
    stateRel plan t.rank s.rank ∨ t.front.consumer = .idle ∧ ∃ e, .noBatch e ∈ t.front.results := by
  cases h with
  | task h => exact .inl (.left _ _ h.rank)
  | @poll x r n h hstep =>
    left
    unfold State.rank
    rw [Net.rank_closeRoot]
    rcases hstep.rank with ⟨hsame, hleads⟩ | ⟨j, -, hothers, hlower⟩
    · rw [hsame]
      refine .right _ (.left _ _ ?_)
      rw [h]
      cases r with
      | goes y => exact .right _ (.left _ _ (hleads y rfl))
      | ok | err _ | panics _ => exact .left _ _ (by omega)
    · exact .left _ _ ⟨j, fun k hk => hothers k hk.ne, hlower _⟩
  | front h =>
    rcases h.rank hs.front with hlower | hgiven
    · left
      unfold State.rank
      rw [Net.rank_closeRoot]
      exact .right _ hlower
    · exact .inr hgiven

lemma inevitable_of_runs (hs : s.Runs) {P : State plan → Prop}
    (hP : ∀ t : State plan, t.front.consumer = .idle → (∃ e, .noBatch e ∈ t.front.results) → P t) :
    Inevitable Step P s := by
  refine inevitable_of_rank (wellFounded_stateRel plan) State.rank (fun _ _ h hst => hst.runs h)
    (fun _ h _ => h.exists_step) (fun s t h hst => ?_) hs
  rcases hst.rank h with hlower | ⟨hidle, hfalse⟩
  · exact .inr hlower
  · exact .inl (hP t hidle hfalse)

/-! ### Failures -/

def TaskState.failed : TaskState σ → Bool
  | .failing _ => true
  | .unwinding _ => true
  | .panicked _ => true
  | _ => false

def ProducerState.failed : ProducerState B σ → Bool
  | .handling _ => true
  | .sendingError _ _ => true
  | .reporting _ => true
  | .ended .failed => true
  | _ => false

section Failures

variable (s : State plan)

/-- A task has failed, or, for `none`, the producer. -/
def State.FailedAt : Option (Fin plan.numTasks) → Prop
  | some j => (s.net.task j).failed = true
  | none => s.front.producer.failed = true

def State.ReturnedOk : Option (Fin plan.numTasks) → Prop
  | some i => s.net.task i = .done
  | none => s.front.producer = .finishing ∨ s.front.producer = .ended .completed

/-- The reader of a stream has returned normally without having seen the end of the stream. -/
def State.StoppedEarly (k : Fin plan.numTasks) : Prop :=
  s.ReturnedOk (plan.reader k) ∧ s.net.ended k = false

def Plan.Above (plan : Plan B σ) : Option (Fin plan.numTasks) → Fin plan.numTasks → Prop
  | some j, k => Relation.ReflTransGen (fun a b => plan.reader a = some b) j k
  | none, _ => False

/-- What is left of a failure in all later states: a task that has failed may be aborted. -/
def State.Broken : Option (Fin plan.numTasks) → Prop
  | some j => (s.net.task j).broken = true
  | none => s.front.producer.failed = true

end Failures

lemma State.FailedAt.broken (h : s.FailedAt p) : s.Broken p := by
  cases p with
  | none => exact h
  | some j =>
    have hfailed : (s.net.task j).failed = true := h
    show (s.net.task j).broken = true
    cases htask : s.net.task j with
    | failing _ | unwinding _ | panicked _ | aborted => rfl
    | running _ | done =>
      rw [htask] at hfailed
      cases hfailed

lemma FrontStep.failed (h : FrontStep plan f f') (hf : f.Runs) (hfailed : f.producer.failed = true) :
    f'.producer.failed = true := by
  cases h with
  | start h | yield h _ | put h _ _ | finish h _ _ =>
    rw [h] at hfailed
    cases hfailed
  | putFailed _ _ hopen | finishFailed _ _ hopen | putErrorFailed _ hopen =>
    rw [hf.receiver] at hopen
    cases hopen
  | handleQuietly _ | handle _ _ _ | putError _ _ _ | report _ => rfl
  | abort h =>
    rw [hf.finalizing] at h
    cases h
  | call _ | receive _ _ | disconnected _ _ _ => exact hfailed

lemma Step.broken (h : Step s t) (hs : s.Runs) (hp : s.Broken p) : t.Broken p := by
  cases p with
  | none =>
    have hfailed : s.front.producer.failed = true := hp
    cases h with
    | task _ => exact hp
    | poll h _ =>
      rw [h] at hfailed
      cases hfailed
    | front h => exact h.failed hs.front hfailed
  | some j =>
    have hbroken : (s.net.task j).broken = true := hp
    show (t.net.task j).broken = true
    cases h with
    | task h => exact h.broken hbroken
    | poll _ hstep =>
      rw [(Net.closeRoot_eq _ _).1, hstep.task_eq]
      exact hbroken
    | front _ =>
      rw [(Net.closeRoot_eq _ _).1]
      exact hbroken

/-- If a task has not returned and the root has, then a reader on the way to the root has stopped early: the first one on
the way that has returned. -/
lemma exists_stoppedEarly {s : State plan} (hs : s.net.Sound) (hroot : s.front.producer = .ended .completed)
    (j : Fin plan.numTasks) (hj : s.net.task j ≠ .done) : ∃ k, plan.Above (some j) k ∧ s.StoppedEarly k := by
  have hended : s.net.ended j = false := by
    by_contra hended
    exact hj (hs j (Bool.eq_true_of_not_eq_false hended)).1
  cases hreader : plan.reader j with
  | none =>
    refine ⟨j, .refl, ?_, hended⟩
    rw [hreader]
    exact .inr hroot
  | some i =>
    by_cases hi : s.net.task i = .done
    · refine ⟨j, .refl, ?_, hended⟩
      rw [hreader]
      exact hi
    · have hlt : j < i := plan.lt_reader hreader
      obtain ⟨k, hk, hstopped⟩ := exists_stoppedEarly hs hroot i hi
      exact ⟨k, .head hreader hk, hstopped⟩
termination_by plan.numTasks - j.val

/-- The consumer has got a prefix of the batches of the root, in order, and then `false` with an error. -/
def Front.ErrorSeen (f : Front B σ) : Prop :=
  ∃ (got : List B) (error : String) (rest : List (NextBatch B)), got <+: f.produced ∧
    f.results = got.map .imported ++ .noBatch (some error) :: rest

lemma errorSeen_or_stoppedEarly (hs : s.Runs) (hp : s.Broken p) (hfalse : ∃ e, .noBatch e ∈ s.front.results) :
    s.front.ErrorSeen ∨ ∃ k, plan.Above p k ∧ s.StoppedEarly k := by
  obtain ⟨_, _, _, _, ht⟩ := hs.front.talk
  obtain ⟨got, errors, hgot, hresults | ⟨hroot, -, -⟩⟩ := ht.shape
  · left
    cases errors with
    | nil =>
      obtain ⟨e, he⟩ := hfalse
      simp [hresults] at he
    | cons error errors => exact ⟨got, error, _, hgot, hresults⟩
  · right
    cases p with
    | none =>
      have hfailed : s.front.producer.failed = true := hp
      rw [hroot] at hfailed
      cases hfailed
    | some j =>
      refine exists_stoppedEarly hs.net hroot j fun hdone => ?_
      have hbroken : (s.net.task j).broken = true := hp
      rw [hdone] at hbroken
      cases hbroken

/-- The places in the code of `execute_limit`. -/
inductive LimitPlace (B : Type)
  | loop (remaining : ℕ)
  | send (batch : B) (remaining : ℕ)

def LimitPlace.weight : LimitPlace B → ℕ
  | .loop 0 => 0
  | .loop (_ + 1) => 1
  | .send _ _ => 2

lemma LimitPlace.weight_loop_lt (remaining : ℕ) : (loop remaining : LimitPlace B).weight < 2 := by
  cases remaining with
  | zero => exact Nat.zero_lt_two
  | succ _ => exact Nat.one_lt_two

lemma LimitPlace.wellFounded {N : ℕ} {action : LimitPlace B → Action B N (LimitPlace B)}
    (h : ∀ x y, (action x).Leads y → y.weight < x.weight) : WellFounded fun y x => (action x).Leads y :=
  Subrelation.wf (fun {y x} hxy => h x y hxy) (InvImage.wf weight Nat.lt_wfRel.wf)

/-- `LimitExec.executeLimit` as the code of a task. -/
def executeLimit {α : Type} {N : ℕ} (input : Fin N) (limit : ℕ) : Operator (List α) N (LimitPlace (List α)) where
  init := .loop limit
  action
    | .loop 0 => .ok
    | .loop (remaining + 1) =>
      .recv input (fun batch => .send (LimitExec.cut (remaining + 1) batch).1 (LimitExec.cut (remaining + 1) batch).2)
        (.loop 0)
    | .send batch remaining => .send batch (.loop remaining)
  ends := by
    refine LimitPlace.wellFounded ?_
    rintro ((_ | remaining) | ⟨batch, remaining⟩) y hxy
    · exact hxy.elim
    · cases hxy
      exact zero_lt_one
    · cases hxy
      exact LimitPlace.weight_loop_lt remaining

/-- The code, from a place on, sends `out` if its input has the batches `batches`. -/
inductive Operator.Sends {N : ℕ} (op : Operator B N σ) : σ → List B → List B → Prop
  | ok {y : σ} {batches : List B} : op.action y = .ok → op.Sends y batches []
  | send {y z : σ} {batch : B} {batches out : List B} : op.action y = .send batch z → op.Sends z batches out →
      op.Sends y batches (batch :: out)
  | batch {y z : σ} {k : Fin N} {onBatch : B → σ} {batch : B} {batches out : List B} :
      op.action y = .recv k onBatch z → op.Sends (onBatch batch) batches out → op.Sends y (batch :: batches) out
  | finish {y z : σ} {k : Fin N} {onBatch : B → σ} {out : List B} : op.action y = .recv k onBatch z →
      op.Sends z [] out → op.Sends y [] out

/-- **The task of a limit sends what `LimitExec.executeLimit` sends.** -/
theorem executeLimit_sends {α : Type} {N : ℕ} (input : Fin N) (limit : UInt64) (batches : List (List α)) :
    (executeLimit input limit.toNat).Sends (.loop limit.toNat) batches (LimitExec.executeLimit limit batches).sent := by
  unfold LimitExec.executeLimit
  suffices h : ∀ (l : ℕ) (remaining : ℕ), (executeLimit input l).Sends (.loop remaining) batches
      (LimitExec.limitLoop remaining batches).sent from h _ _
  intro l
  induction batches with
  | nil =>
    rintro (_ | remaining)
    · exact .ok rfl
    · exact .finish rfl (.ok rfl)
  | cons batch batches ih =>
    rintro (_ | remaining)
    · exact .ok rfl
    · exact .batch rfl (.send rfl (ih _))

def failingScan (batch : B) (N : ℕ) : Operator B N (LimitPlace B) where
  init := .send batch 0
  action
    | .send batch _ => .send batch (.loop 0)
    | .loop _ => .err "cannot read"
  ends := by
    refine LimitPlace.wellFounded ?_
    rintro (remaining | ⟨batch, remaining⟩) y hxy
    · exact hxy.elim
    · cases hxy
      exact LimitPlace.weight_loop_lt 0

def passOn {N : ℕ} (input : Fin N) : Operator B N (LimitPlace B) where
  init := .loop 1
  action
    | .loop 0 => .ok
    | .loop (remaining + 1) => .recv input (fun batch => .send batch (remaining + 1)) (.loop 0)
    | .send batch remaining => .send batch (.loop remaining)
  ends := by
    refine LimitPlace.wellFounded ?_
    rintro ((_ | remaining) | ⟨batch, remaining⟩) y hxy
    · exact hxy.elim
    · cases hxy
      exact zero_lt_one
    · cases hxy
      exact LimitPlace.weight_loop_lt remaining

/-- A limit of one row over a scan that fails behind its first batch. -/
def limitPlan : Plan (List ℕ) (LimitPlace (List ℕ)) where
  numTasks := 2
  desc
    | 0 => "Scan"
    | 1 => "Limit"
  operator
    | some 0 => failingScan [7] 2
    | some 1 => executeLimit 0 1
    | none => passOn 1
  reader
    | 0 => some 1
    | 1 => none
  lt_reader := by decide
  reads := by
    intro p x j hinput
    match p, x with
    | some 0, .loop _ | some 0, .send _ _ => cases hinput
    | some 1, .loop 0 | some 1, .send _ _ => cases hinput
    | some 1, .loop (_ + 1) =>
      cases hinput
      rfl
    | none, .loop 0 | none, .send _ _ => cases hinput
    | none, .loop (_ + 1) =>
      cases hinput
      rfl
  execution := .ok
  isEmpty := isEmpty

end Auron.Runtime
