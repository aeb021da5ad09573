import Auron.MemManager
import Mathlib.Data.Set.Basic

/-!
# The locks of the memory manager of `auron-memmgr`

The manager has a lock for its list of consumers and one for its status, and each consumer has one.  An operation is the
sequence of its acquisitions and releases, and a run is any interleaving of the operations of any number of threads.

All locks are taken in the order consumers, status, consumer, with one exception: `set_spillable`, when it changes the
flag, takes the status while it holds the consumer.  An update or the deregistration of this consumer that holds the status
then waits for the consumer, and neither goes on (`deadlock_of_calls`).  As long as these operations are kept apart there is
no deadlock (`no_deadlock_of_apart`).
-/

namespace Auron.MemLocks

open List Function Relation

variable {κ τ : Type} [DecidableEq κ]

inductive Lock (κ : Type) where
  | consumers
  | status
  | consumer (c : κ)
  deriving DecidableEq

def Lock.rank : Lock κ → ℕ
  | consumers => 0
  | status => 1
  | consumer _ => 2

/-- What an operation does with locks, and with the data that decide which locks it takes. -/
inductive Instr (κ : Type) where
  | lock (l : Lock κ)
  | unlock (l : Lock κ)
  | push (c : κ)
  | swapRemove (c : κ)
  | dumpConsumers
  | updateStatus (c : κ) (spillable : Bool)
  | setSpillable (c : κ) (spillable : Bool)

/-- The list of the consumers, and the flags of all consumers there will ever be: the flag of one that is not registered yet
is the one it will be created with. -/
structure Data (κ : Type) where
  consumers : List κ
  spillable : κ → Bool

/-- The lock an instruction takes: `set_spillable` takes the status only if the flag changes. -/
def Instr.wants (d : Data κ) : Instr κ → Option (Lock κ)
  | lock l => some l
  | updateStatus c spillable => if d.spillable c = spillable then none else some .status
  | _ => none

/-- What is left of an instruction when it has its lock. -/
def Instr.locked : Instr κ → List (Instr κ)
  | updateStatus _ _ => [unlock .status]
  | _ => []

/-- What an instruction that takes no lock does to the data, and the instructions it stands for: `dump_status` locks one
consumer after the other. -/
def Instr.exec : Instr κ → Data κ → Option (Data κ × List (Instr κ))
  | lock _, _ | unlock _, _ => none
  | push c, d => some ({ d with consumers := d.consumers ++ [c] }, [])
  | swapRemove c, d => some ({ d with consumers := MemManager.swapRemove d.consumers (d.consumers.idxOf c) }, [])
  | dumpConsumers, d => some (d, d.consumers.flatMap fun c => [lock (.consumer c), unlock (.consumer c)])
  | updateStatus c spillable, d => if d.spillable c = spillable then some (d, []) else none
  | setSpillable c spillable, d => some ({ d with spillable := update d.spillable c spillable }, [])

/-- The operations; an update that waits is woken some times, each time with the status locked again. -/
inductive Op (κ : Type) where
  | registerConsumer (c : κ)
  | deregisterConsumer (c : κ)
  | updateMemUsed (c : κ) (waits : Option ℕ)
  | setSpillable (c : κ) (spillable : Bool)
  | memUsedPercent (c : κ)
  | dumpStatus

def Op.code : Op κ → List (Instr κ)
  | registerConsumer c => [.lock .consumers, .lock .status, .push c, .unlock .status, .unlock .consumers]
  | deregisterConsumer c =>
    [.lock .consumers, .lock .status, .lock (.consumer c), .swapRemove c, .unlock .status, .unlock .consumers,
      .unlock (.consumer c)]
  | updateMemUsed c waits =>
    [.lock .status, .lock (.consumer c), .unlock (.consumer c), .unlock .status] ++
      waits.elim [] fun n => (replicate (n + 1) [.lock .status, .unlock .status]).flatten
  | setSpillable c spillable =>
    [.lock (.consumer c), .updateStatus c spillable, .setSpillable c spillable, .unlock (.consumer c)]
  | memUsedPercent c => [.lock .status, .unlock .status, .lock (.consumer c), .unlock (.consumer c)]
  | dumpStatus => [.lock .status, .unlock .status, .lock .consumers, .dumpConsumers, .unlock .consumers]

/-- The operations that lock a consumer while they hold the status. -/
def Op.Updates (c : κ) : Op κ → Prop
  | updateMemUsed c' _ | deregisterConsumer c' => c' = c
  | _ => False

/-- A thread: the locks it holds, the operation it has called last, what is left of it, and the operations after it. -/
structure Thread (κ : Type) where
  held : List (Lock κ)
  op : Option (Op κ)
  code : List (Instr κ)
  ops : List (Op κ)

structure State (κ τ : Type) where
  threads : τ → Thread κ
  data : Data κ

def State.init (ops : τ → List (Op κ)) (data : Data κ) : State κ τ := ⟨fun t => ⟨[], none, [], ops t⟩, data⟩

/-- A step of one thread; a lock is taken when no thread holds it. -/
inductive Step [DecidableEq τ] (s : State κ τ) : State κ τ → Prop
  | call {t held last op ops} (h : s.threads t = ⟨held, last, [], op :: ops⟩) :
      Step s ⟨update s.threads t ⟨held, some op, op.code, ops⟩, s.data⟩
  | lock {t held op i l code ops} (h : s.threads t = ⟨held, op, i :: code, ops⟩) (hwants : i.wants s.data = some l)
      (hfree : ∀ u, l ∉ (s.threads u).held) :
      Step s ⟨update s.threads t ⟨l :: held, op, i.locked ++ code, ops⟩, s.data⟩
  | unlock {t held op l code ops} (h : s.threads t = ⟨held, op, .unlock l :: code, ops⟩) :
      Step s ⟨update s.threads t ⟨held.erase l, op, code, ops⟩, s.data⟩
  | exec {t held op i code ops d new} (h : s.threads t = ⟨held, op, i :: code, ops⟩)
      (hexec : i.exec s.data = some (d, new)) : Step s ⟨update s.threads t ⟨held, op, new ++ code, ops⟩, d⟩

section States

variable (s : State κ τ)

def State.Waits (t : τ) (l : Lock κ) (u : τ) : Prop :=
  (∃ i code, (s.threads t).code = i :: code ∧ i.wants s.data = some l) ∧ l ∈ (s.threads u).held ∧ u ≠ t

def State.Deadlock : Prop :=
  ∃ ts : Set τ, ts.Nonempty ∧ ∀ t ∈ ts, ∃ l, ∃ u ∈ ts, s.Waits t l u

def State.Underway (t : τ) (op : Op κ) : Prop := (s.threads t).op = some op ∧ (s.threads t).code ≠ []

/-- A `set_spillable` that changes the flag of a consumer is underway while another thread updates the consumer, spills it
or deregisters it. -/
def State.Meets : Prop :=
  ∃ t u c spillable op, u ≠ t ∧ s.Underway t (.setSpillable c spillable) ∧ s.data.spillable c ≠ spillable ∧
    s.Underway u op ∧ op.Updates c

end States

/-! ### The order of the locks -/

/-- Every lock is taken behind those that are held, a consumer behind the status only by an operation that updates it; the
exception is the status in `set_spillable`, behind its consumer.  In the end no lock is held. -/
def Ordered (op : Option (Op κ)) : List (Lock κ) → List (Instr κ) → Prop
  | held, [] => held = []
  | held, .lock l :: code =>
    (∀ l' ∈ held, l'.rank < l.rank) ∧ (∀ c, l = .consumer c → .status ∈ held → ∃ o, op = some o ∧ o.Updates c) ∧
      Ordered op (l :: held) code
  | held, .unlock l :: code => Ordered op (held.erase l) code
  | held, .dumpConsumers :: code => held = [.consumers] ∧ Ordered op held code
  | held, .updateStatus c spillable :: code =>
    held = [.consumer c] ∧ op = some (.setSpillable c spillable) ∧ Ordered op held code
  | held, _ :: code => Ordered op held code

lemma Op.ordered (op : Op κ) : Ordered (some op) [] op.code := by
  cases op with
  | updateMemUsed c waits =>
    have hwaits : ∀ n, Ordered (some (.updateMemUsed c waits)) []
        (replicate n [.lock .status, .unlock (.status : Lock κ)]).flatten := by
      intro n
      induction n with
      | zero => rfl
      | succ n ih => simpa [replicate_succ, Ordered] using ih
    cases waits with
    | none => simp [code, Ordered, Lock.rank, Updates]
    | some n => simpa [code, Ordered, Lock.rank, Updates] using hwaits (n + 1)
  | _ => simp [code, Ordered, Lock.rank, Updates]

section Instructions

variable {op : Option (Op κ)} {held : List (Lock κ)} {i : Instr κ} {code new : List (Instr κ)} {d d' : Data κ}

lemma Ordered.exec (h : Ordered op held (i :: code)) (hexec : i.exec d = some (d', new)) :
    Ordered op held (new ++ code) := by
  cases i with
  | lock | unlock => cases hexec
  | push | swapRemove | setSpillable =>
    cases hexec
    exact h
  | dumpConsumers =>
    cases hexec
    obtain ⟨rfl, h⟩ := h
    induction d.consumers with
    | nil => exact h
    | cons c cs ih => simpa [Ordered, Lock.rank] using ih
  | updateStatus c spillable =>
    rw [Instr.exec] at hexec
    split at hexec
    · cases hexec
      exact h.2.2
    · cases hexec

/-- A lock is taken behind lower ones, or by a `set_spillable` that changes the flag. -/
lemma Ordered.wants {l : Lock κ} (h : Ordered op held (i :: code)) (hwants : i.wants d = some l) :
    ((∀ l' ∈ held, l'.rank < l.rank) ∧ ∀ c, l = .consumer c → .status ∈ held → ∃ o, op = some o ∧ o.Updates c) ∨
      l = .status ∧ ∃ c spillable, held = [.consumer c] ∧ op = some (.setSpillable c spillable) ∧
        d.spillable c ≠ spillable := by
  cases i with
  | lock l =>
    cases hwants
    exact .inl ⟨h.1, h.2.1⟩
  | updateStatus c spillable =>
    rw [Instr.wants] at hwants
    split at hwants
    · cases hwants
    · rename_i hflag
      cases hwants
      exact .inr ⟨rfl, c, spillable, h.1, h.2.1, hflag⟩
  | _ => cases hwants

lemma Ordered.locked {l : Lock κ} (h : Ordered op held (i :: code)) (hwants : i.wants d = some l) :
    Ordered op (l :: held) (i.locked ++ code) := by
  cases i with
  | lock l =>
    cases hwants
    exact h.2.2
  | updateStatus c spillable =>
    rw [Instr.wants] at hwants
    split at hwants
    · cases hwants
    · cases hwants
      simpa [Instr.locked, Ordered] using h.2.2
  | _ => cases hwants

end Instructions

/-- Every thread keeps to the order, and no lock is held twice. -/
structure State.Inv (s : State κ τ) : Prop where
  ordered : ∀ t, Ordered (s.threads t).op (s.threads t).held (s.threads t).code
  exclusive : ∀ {t u l}, l ∈ (s.threads t).held → l ∈ (s.threads u).held → t = u

variable {s s' : State κ τ}

lemma State.Inv.of_eq (h : s.Inv) {t : τ} {held op code ops} (ht : s.threads t = ⟨held, op, code, ops⟩) :
    Ordered op held code := by
  simpa [ht] using h.ordered t

/-- A thread that waits holds lower locks, or it is in a `set_spillable` that changes the flag. -/
lemma State.Inv.waits (h : s.Inv) {t u : τ} {l : Lock κ} (ht : s.Waits t l u) :
    ((∀ l' ∈ (s.threads t).held, l'.rank < l.rank) ∧
      ∀ c, l = .consumer c → .status ∈ (s.threads t).held → ∃ o, s.Underway t o ∧ o.Updates c) ∨
    l = .status ∧ ∃ c spillable, (s.threads t).held = [.consumer c] ∧ s.Underway t (.setSpillable c spillable) ∧
      s.data.spillable c ≠ spillable := by
  obtain ⟨⟨_, _, hcode, hwants⟩, -⟩ := ht
  have hne : (s.threads t).code ≠ [] := by simp [hcode]
  have hordered := h.ordered t
  rw [hcode] at hordered
  refine (hordered.wants hwants).imp (And.imp_right fun hupdates c hl hstatus => ?_) (And.imp_right ?_)
  · obtain ⟨o, ho, hc⟩ := hupdates c hl hstatus
    exact ⟨o, ⟨ho, hne⟩, hc⟩
  · rintro ⟨c, spillable, hheld, hop, hflag⟩
    exact ⟨c, spillable, hheld, ⟨hop, hne⟩, hflag⟩

variable [DecidableEq τ]

lemma State.Inv.update (h : s.Inv) {t : τ} {held : List (Lock κ)} {op code ops} (hordered : Ordered op held code)
    (hheld : ∀ l ∈ held, ∀ u, l ∈ (s.threads u).held → u = t) (d : Data κ) :
    State.Inv ⟨update s.threads t ⟨held, op, code, ops⟩, d⟩ := by
  refine ⟨fun u => ?_, fun {u v l} hu hv => ?_⟩
  · by_cases hut : u = t
    · simpa [hut] using hordered
    · simpa [hut] using h.ordered u
  · by_cases hut : u = t <;> by_cases hvt : v = t <;> simp only [update_apply, hut, hvt] at hu hv
    · rw [hut, hvt]
    · exact hut.trans (hheld l hu v hv).symm
    · exact (hheld l hv u hu).trans hvt.symm
    · exact h.exclusive hu hv

lemma Step.inv (hstep : Step s s') (h : s.Inv) : s'.Inv := by
  cases hstep with
  | @call _ _ _ op _ ht =>
    obtain rfl := h.of_eq ht
    exact h.update op.ordered (by simp) _
  | @lock t _ _ _ _ _ _ ht hwants hfree =>
    refine h.update ((h.of_eq ht).locked hwants) (fun l hl u hu => ?_) _
    rcases mem_cons.1 hl with rfl | hl
    · exact absurd hu (hfree u)
    · exact h.exclusive hu (by rwa [ht])
  | @unlock t held op l code _ ht =>
    have hordered := h.of_eq ht
    exact h.update (show Ordered op (held.erase l) code from hordered)
      (fun l hl u hu => h.exclusive hu (ht ▸ mem_of_mem_erase hl)) _
  | exec ht hexec => exact h.update ((h.of_eq ht).exec hexec) (fun l hl u hu => h.exclusive hu (by rwa [ht])) _

lemma inv_of_reachable {ops : τ → List (Op κ)} {data : Data κ} (h : ReflTransGen Step (State.init ops data) s) : s.Inv := by
  induction h with
  | refl => exact ⟨fun _ => rfl, fun hl => by cases hl⟩
  | tail _ hstep ih => exact hstep.inv ih

/-! ### Deadlocks -/

/-- **No deadlock while the operations are kept apart**: in any run of any number of threads, a state in which no
`set_spillable` that changes a flag is underway together with another thread's update, spill or deregistration of the same
consumer is not deadlocked.  Along the waits the locks rise, up to a consumer that is held in `set_spillable`; who holds
the status waits for a consumer again. -/
theorem no_deadlock_of_apart (ops : τ → List (Op κ)) (data : Data κ) {s : State κ τ}
    (h : ReflTransGen Step (State.init ops data) s) (hapart : ¬ s.Meets) : ¬ s.Deadlock := by
  have hinv := inv_of_reachable h
  rintro ⟨ts, ⟨t, ht⟩, hwaits⟩
  -- who holds a consumer and waits, waits for the status, in `set_spillable`
  have hconsumer : ∀ u ∈ ts, ∀ c, .consumer c ∈ (s.threads u).held → ∃ v ∈ ts, s.Waits u .status v ∧
      ∃ spillable, s.Underway u (.setSpillable c spillable) ∧ s.data.spillable c ≠ spillable := by
    intro u hu c hc
    obtain ⟨l, v, hv, huv⟩ := hwaits u hu
    rcases hinv.waits huv with ⟨hlow, -⟩ | ⟨rfl, c', spillable, hheld, hop, hflag⟩
    · have hlt := hlow _ hc
      cases l <;> simp [Lock.rank] at hlt
    · obtain rfl : c = c' := by simpa [hheld] using hc
      exact ⟨v, hv, huv, spillable, hop, hflag⟩
  have hstatus : ∀ u ∈ ts, .status ∉ (s.threads u).held := by
    intro u hu hheld
    obtain ⟨l, v, hv, huv⟩ := hwaits u hu
    rcases hinv.waits huv with ⟨hlow, hupdates⟩ | ⟨rfl, c, _, hc, -⟩
    · have hlt := hlow _ hheld
      cases l with
      | consumer c =>
        obtain ⟨w, _, hvw, spillable, hset, hflag⟩ := hconsumer v hv c huv.2.1
        obtain rfl := hinv.exclusive hvw.2.1 hheld
        obtain ⟨op, hop, hc⟩ := hupdates c rfl hheld
        exact hapart ⟨v, w, c, spillable, op, hvw.2.2, hset, hflag, hop, hc⟩
      | _ => simp [Lock.rank] at hlt
    · simp [hc] at hheld
  have hhigh : ∀ u ∈ ts, ∀ l ∈ (s.threads u).held, l = .consumers := by
    intro u hu l hl
    cases l with
    | consumers => rfl
    | status => exact absurd hl (hstatus u hu)
    | consumer c =>
      obtain ⟨v, hv, huv, -⟩ := hconsumer u hu c hl
      exact absurd huv.2.1 (hstatus v hv)
  obtain ⟨l, u, hu, htu⟩ := hwaits t ht
  obtain ⟨l', v, hv, huv⟩ := hwaits u hu
  obtain rfl := hhigh u hu l htu.2.1
  obtain rfl := hhigh v hv l' huv.2.1
  rcases hinv.waits huv with ⟨hlow, -⟩ | ⟨hl, -⟩
  · exact absurd (hlow _ htu.2.1) (lt_irrefl _)
  · cases hl

/-- Two threads that register and dump at the same time do not wait for each other. -/
theorem registering_not_deadlocked :
    let ops : Bool → List (Op ℕ) := fun t => if t then [.dumpStatus] else [.registerConsumer 0]
    ∃ s, ReflTransGen Step (State.init ops ⟨[], fun _ => false⟩) s ∧ (s.threads false).held ≠ [] ∧ ¬ s.Deadlock := by
  intro ops
  have h : ReflTransGen Step (State.init ops ⟨[], fun _ => false⟩) _ :=
    (ReflTransGen.single (.call (t := false) rfl)).tail (.lock (t := false) rfl rfl (by decide))
  refine ⟨_, h, by simp, no_deadlock_of_apart ops _ h ?_⟩
  rintro ⟨_ | _, _, _, _, _, -, ⟨hop, hcode⟩, -⟩
  · cases hop
  · exact hcode rfl

/-! ### Reaching a deadlock -/

lemma Step.lock_self {threads : τ → Thread κ} {data : Data κ} {t : τ} {held : List (Lock κ)} {op l code ops}
    (hfree : ∀ v, l ∉ (update threads t ⟨held, op, .lock l :: code, ops⟩ v).held) :
    Step (⟨update threads t ⟨held, op, .lock l :: code, ops⟩, data⟩ : State κ τ)
      ⟨update threads t ⟨l :: held, op, code, ops⟩, data⟩ := by
  have h := Step.lock (s := ⟨update threads t ⟨held, op, .lock l :: code, ops⟩, data⟩) (update_self t _ _) rfl hfree
  rwa [update_idem] at h

/-- **Where two such operations can be called at the same time, a deadlock can be reached**: one thread takes the consumer,
the other the status. -/
theorem deadlock_of_calls {t u : τ} (hut : u ≠ t) {c : κ} {spillable : Bool} {op : Op κ} {last last' ops ops'}
    (ht : s.threads t = ⟨[], last, [], .setSpillable c spillable :: ops⟩) (hflag : s.data.spillable c ≠ spillable)
    (hu : s.threads u = ⟨[], last', [], op :: ops'⟩) (hop : op.Updates c) (hfree : ∀ v, (s.threads v).held = []) :
    ∃ s', ReflTransGen Step s s' ∧ s'.Deadlock := by
  obtain ⟨x, hx, hset⟩ : ∃ x : Thread κ, (x.held = [.consumer c] ∧ ∃ code, x.code = .updateStatus c spillable :: code) ∧
      ReflTransGen Step s ⟨update s.threads t x, s.data⟩ := by
    refine ⟨_, ⟨rfl, _, rfl⟩, (ReflTransGen.single (.call ht)).tail (.lock_self fun v => ?_)⟩
    by_cases hv : v = t <;> simp [hv, hfree]
  have hother : ∀ l : Lock κ, l ≠ .consumer c → ∀ held : List (Lock κ), l ∉ held → ∀ o code ops v,
      l ∉ (update (update s.threads t x) u ⟨held, o, code, ops⟩ v).held := by
    intro l hl held hnot o code ops v
    by_cases hvu : v = u
    · simpa [hvu] using hnot
    · by_cases hvt : v = t
      · simpa [hvt, Ne.symm hut, hx.1] using hl
      · simp [hvu, hvt, hfree]
  have hu₁ : update s.threads t x u = ⟨[], last', [], op :: ops'⟩ := by rw [update_of_ne hut, hu]
  obtain ⟨y, ⟨hstatus, code, hcode⟩, hupdate⟩ : ∃ y : Thread κ,
      (.status ∈ y.held ∧ ∃ code, y.code = .lock (.consumer c) :: code) ∧
        ReflTransGen Step s ⟨update (update s.threads t x) u y, s.data⟩ := by
    have hcall := hset.tail (.call hu₁)
    cases op with
    | updateMemUsed c' waits =>
      obtain rfl : c' = c := hop
      exact ⟨_, ⟨by simp, _, rfl⟩, hcall.tail (.lock_self (hother _ (by simp) _ (by simp) _ _ _))⟩
    | deregisterConsumer c' =>
      obtain rfl : c' = c := hop
      refine ⟨_, ⟨by simp, _, rfl⟩, (hcall.tail (.lock_self (hother _ (by simp) _ (by simp) _ _ _))).tail
        (.lock_self (hother _ (by simp) _ (by simp) _ _ _))⟩
    | _ => exact hop.elim
  have htx : update (update s.threads t x) u y t = x := by rw [update_of_ne hut.symm, update_self]
  refine ⟨_, hupdate, {t, u}, ⟨t, .inl rfl⟩, ?_⟩
  rintro v (rfl | rfl)
  · obtain ⟨_, _, hxcode⟩ := hx
    refine ⟨.status, u, .inr rfl, ⟨_, _, (congrArg Thread.code htx).trans hxcode, if_neg hflag⟩, ?_, hut⟩
    simpa using hstatus
  · refine ⟨.consumer c, t, .inl rfl, ⟨_, code, by simpa using hcode, rfl⟩, ?_, hut.symm⟩
    show _ ∈ (update (update s.threads t x) v y t).held
    rw [htx, hx.1]
    exact mem_singleton_self _

/-- `set_spillable` holds the consumer and waits for the status; an update holds the status and waits for the consumer. -/
theorem setSpillable_meets_update :
    let ops : Bool → List (Op ℕ) := fun t => if t then [.updateMemUsed 0 none] else [.setSpillable 0 true]
    ∃ s, ReflTransGen Step (State.init ops ⟨[0], fun _ => false⟩) s ∧ s.Deadlock :=
  deadlock_of_calls (t := false) (u := true) (by decide) rfl (by decide) rfl rfl fun _ => rfl

end Auron.MemLocks
