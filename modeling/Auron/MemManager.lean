import Mathlib.Algebra.BigOperators.Group.List.Basic
import Mathlib.Algebra.GroupWithZero.Nat

/-!
# The memory manager of `auron-memmgr`

The manager keeps four numbers beside its list of consumers: how many there are, how much they use, and both again for
those that can spill.  Every operation holds the lock while it changes a consumer and these numbers; an update may then
wait for others to free memory, and may make its consumer spill, which ends in an update to zero.  A step of the model is
one section under the lock, and the operations in progress are part of the state, so that a run is any interleaving of
the operations of all consumers, updates inside a spill included.

`force_spill` announces one byte more than its consumer uses and does not write it to the consumer; the update to zero
that ends the spill takes back only what the consumer has.  The byte stays in the totals for ever: they are exact as long
as `force_spill` was never called, and after it never again (`exact_iff_no_force_spill`).
-/

namespace Auron.MemManager

open List
open Option (bind_eq_bind bind_some isSome_iff_exists)

/-! ### Machine numbers -/

/-- `as isize` of a `usize`, and the wrapping of `isize` arithmetic. -/
def toIsize (z : ℤ) : ℤ := Int.bmod z (2 ^ 64)

/-- `as usize` of an `isize`. -/
def toUsize (z : ℤ) : ℕ := (z % 2 ^ 64).toNat

def usizeMax : ℕ := 2 ^ 64 - 1

lemma toIsize_eq {z : ℤ} (hlow : -2 ^ 63 < z) (hhigh : z < 2 ^ 63) : toIsize z = z := by
  apply Int.bmod_eq_of_le <;> omega

lemma toIsize_natCast {n : ℕ} (h : n < 2 ^ 63) : toIsize n = n := toIsize_eq (by omega) (by omega)

lemma toIsize_neg {n : ℕ} (h : n < 2 ^ 63) : toIsize (-toIsize n) = -(n : ℤ) := by
  rw [toIsize_natCast h]
  exact toIsize_eq (by omega) (by omega)

lemma toIsize_sub {a b : ℕ} (ha : a < 2 ^ 63) (hb : b < 2 ^ 63) : toIsize (toIsize a - toIsize b) = (a : ℤ) - b := by
  rw [toIsize_natCast ha, toIsize_natCast hb]
  exact toIsize_eq (by omega) (by omega)

lemma toIsize_add {n n' : ℕ} {diff : ℤ} (hn : n < 2 ^ 63) (hdiff : (n : ℤ) + diff = n') (hn' : n' < 2 ^ 63) :
    toIsize (toIsize n + diff) = n' := by
  rw [toIsize_natCast hn, hdiff, toIsize_natCast hn']

lemma toUsize_natCast {n : ℕ} (h : n < 2 ^ 63) : toUsize n = n := by
  unfold toUsize
  omega

/-! ### Consumers -/

/-- `MemConsumerInfo`, the `id` being its address. -/
structure Consumer where
  id : ℕ
  memUsed : ℕ
  spillable : Bool
  deriving DecidableEq, Repr

def swapRemove {α : Type} (xs : List α) (i : ℕ) : List α :=
  match xs.getLast? with
  | none => xs
  | some last => (xs.set i last).dropLast

lemma perm_swapRemove {α : Type} {xs : List α} {i : ℕ} (hi : i < xs.length) : xs.Perm (xs[i] :: swapRemove xs i) := by
  obtain rfl | ⟨xs, last, rfl⟩ := eq_nil_or_concat' xs
  · cases hi
  have hlast : swapRemove (xs ++ [last]) i ++ [last] = (xs ++ [last]).set i last := by
    rw [swapRemove, getLast?_concat]
    dsimp only
    rw [set_append]
    split
    · rw [dropLast_concat]
    · have hzero : i - xs.length = 0 := by simp at hi; omega
      rw [hzero, set_cons_zero, dropLast_concat]
  have hset : (last :: swapRemove (xs ++ [last]) i).Perm (last :: (xs ++ [last]).eraseIdx i) := by
    refine (perm_append_singleton last _).symm.trans ?_
    rw [hlast]
    exact set_perm_cons_eraseIdx hi last
  exact (getElem_cons_eraseIdx_perm hi).symm.trans (hset.cons_inv.symm.cons _)

def sumOf (w : Consumer → ℕ) (cs : List Consumer) : ℕ := (cs.map w).sum

lemma sumOf_set {w : Consumer → ℕ} {cs : List Consumer} {i : ℕ} (hi : i < cs.length) (c : Consumer) :
    sumOf w (cs.set i c) + w cs[i] = sumOf w cs + w c := by
  have hset := ((set_perm_cons_eraseIdx hi c).map w).sum_eq
  have hget := ((getElem_cons_eraseIdx_perm hi).map w).sum_eq
  simp only [map_cons, sum_cons] at hset hget
  unfold sumOf
  omega

lemma sumOf_swapRemove {w : Consumer → ℕ} {cs : List Consumer} {i : ℕ} (hi : i < cs.length) :
    sumOf w (swapRemove cs i) + w cs[i] = sumOf w cs := by
  have h := ((perm_swapRemove hi).map w).sum_eq
  simp only [map_cons, sum_cons] at h
  unfold sumOf
  omega

lemma le_sumOf {w : Consumer → ℕ} {cs : List Consumer} {i : ℕ} (hi : i < cs.length) : w cs[i] ≤ sumOf w cs := by
  have := sumOf_swapRemove (w := w) hi
  omega

/-! ### The manager -/

structure MemManagerStatus where
  numConsumers : ℕ
  totalUsed : ℕ
  numSpillables : ℕ
  memSpillables : ℕ
  deriving DecidableEq, Repr

/-- `update_total_used_with_diff`; `none` where the assertion fails. -/
def MemManagerStatus.updateTotalUsedWithDiff (s : MemManagerStatus) (diffUsed : ℤ) : Option MemManagerStatus :=
  let newUsed := toIsize (toIsize s.totalUsed + diffUsed)
  if 0 ≤ newUsed then some { s with totalUsed := toUsize newUsed } else none

inductive Operation where
  | spill
  | wait
  | nothing
  deriving DecidableEq, Repr

/-- The manager, with the number of the next consumer and the updates that are not over yet: those that wait and those
whose consumer spills. -/
structure State where
  total : ℕ
  consumers : List Consumer
  status : MemManagerStatus
  nextId : ℕ
  operations : List (ℕ × Operation)
  deriving DecidableEq, Repr

def State.init (total : ℕ) : State := ⟨total, [], ⟨0, 0, 0, 0⟩, 0, []⟩

def State.find (m : State) (id : ℕ) : Option ℕ := m.consumers.findIdx? (·.id == id)

/-- The consumer at an address, as `consumer_info` upgrades it. -/
def State.consumer (m : State) (id : ℕ) : Option Consumer := (m.find id).bind (m.consumers[·]?)

def State.registerConsumer (m : State) (spillable : Bool) : State :=
  { m with
    consumers := m.consumers ++ [⟨m.nextId, 0, spillable⟩]
    nextId := m.nextId + 1
    status := { m.status with
      numConsumers := m.status.numConsumers + 1
      numSpillables := if spillable then m.status.numSpillables + 1 else m.status.numSpillables } }

def State.deregisterConsumer (m : State) (id : ℕ) : Option State := do
  let i ← m.find id
  let c ← m.consumers[i]?
  if c.memUsed ≤ m.status.totalUsed then
    let status ← { m.status with numConsumers := m.status.numConsumers - 1 }.updateTotalUsedWithDiff
      (toIsize (-toIsize c.memUsed))
    if c.spillable then
      if c.memUsed ≤ status.memSpillables then
        some { m with
          consumers := swapRemove m.consumers i
          status := { status with
            numSpillables := status.numSpillables - 1
            memSpillables := status.memSpillables - c.memUsed } }
      else none
    else some { m with consumers := swapRemove m.consumers i, status }
  else none

def State.setSpillable (m : State) (id : ℕ) (spillable : Bool) : Option State := do
  let i ← m.find id
  let c ← m.consumers[i]?
  let consumers := m.consumers.set i { c with spillable }
  if c.spillable ≠ spillable then
    if spillable then
      some { m with
        consumers
        status := { m.status with
          numSpillables := m.status.numSpillables + 1
          memSpillables := m.status.memSpillables + c.memUsed } }
    else if c.memUsed ≤ m.status.memSpillables then
      some { m with
        consumers
        status := { m.status with
          numSpillables := m.status.numSpillables - 1
          memSpillables := m.status.memSpillables - c.memUsed } }
    else none
  else some { m with consumers }

/-- The updaters of `update_mem_used`, `update_mem_used_with_diff` and `force_spill`. -/
inductive Updater where
  | set (newUsed : ℕ)
  | diff (diffUsed : ℤ)
  | force
  deriving DecidableEq, Repr

/-- The consumer after the updater, and the old and the new number it returns.  That of `force_spill` leaves the consumer
as it is. -/
def Updater.apply (c : Consumer) : Updater → Consumer × ℕ × ℕ
  | .set newUsed => ({ c with memUsed := newUsed }, c.memUsed, newUsed)
  | .diff diffUsed =>
    let newUsed := if 0 < diffUsed then min (c.memUsed + diffUsed.toNat) usizeMax else c.memUsed - (-diffUsed).toNat
    ({ c with memUsed := newUsed }, c.memUsed, newUsed)
  | .force => (c, c.memUsed, c.memUsed + 1)

/-- What an update reads from outside: the direct memory of the JVM and the memory of the process, used and allowed. -/
structure Readings where
  jvmDirectUsed : ℕ
  procTotalUsed : ℕ
  procMax : ℕ
  deriving DecidableEq, Repr

def minTriggerSize : ℕ := 1 <<< 24

def chooseOperation (total : ℕ) (status : MemManagerStatus) (env : Readings) (spillable forced : Bool)
    (oldUsed newUsed : ℕ) : Operation :=
  let memUnspillable := status.totalUsed - status.memSpillables
  let totalManaged := total - env.jvmDirectUsed - memUnspillable
  let consumerMemMax := totalManaged / status.numSpillables
  let consumerMemMin := consumerMemMax / 8
  let overflowed := status.totalUsed > totalManaged || newUsed > consumerMemMax || env.procTotalUsed > env.procMax
  if forced || (overflowed && newUsed > minTriggerSize && newUsed > oldUsed) then
    if forced || (spillable && newUsed > consumerMemMin) then .spill else .wait
  else .nothing

/-- The section of `update_consumer_mem_used_with_custom_updater` under the lock, and what it decides to do. -/
def State.updateConsumer (m : State) (id : ℕ) (updater : Updater) (env : Readings) : Option (State × Operation) := do
  let i ← m.find id
  let c ← m.consumers[i]?
  let forced := updater == .force
  let (c', oldUsed, newUsed) := updater.apply c
  let diffUsed := toIsize (toIsize newUsed - toIsize oldUsed)
  if forced && !c'.spillable then none
  else
    let status ← m.status.updateTotalUsedWithDiff diffUsed
    let memSpillables := toIsize (toIsize status.memSpillables + diffUsed)
    if c'.spillable && memSpillables < 0 then none
    else
      let status := if c'.spillable then { status with memSpillables := toUsize memSpillables } else status
      let m := { m with consumers := m.consumers.set i c', status }
      if !forced && (oldUsed == 0 || newUsed == 0 || !c'.spillable) then some (m, .nothing)
      -- the share of a consumer is a quotient by the number of those that spill
      else if status.numSpillables = 0 then none
      else some (m, chooseOperation m.total status env c'.spillable forced oldUsed newUsed)

/-! ### Runs -/

/-- A section under the lock, or the end of a wait or of a spill. -/
inductive Action where
  | register (spillable : Bool)
  | deregister (id : ℕ)
  | setSpillable (id : ℕ) (spillable : Bool)
  | update (id : ℕ) (updater : Updater) (env : Readings)
  | wake (id : ℕ) (timedOut : Bool)
  | spilled (id : ℕ)
  deriving DecidableEq, Repr

/-- The state after an action; `none` where an assertion fails. -/
def State.step (m : State) : Action → Option State
  | .register spillable => some (m.registerConsumer spillable)
  | .deregister id => m.deregisterConsumer id
  | .setSpillable id spillable => m.setSpillable id spillable
  | .update id updater env =>
    (m.updateConsumer id updater env).map fun (m, operation) =>
      match operation with
      | .nothing => m
      | operation => { m with operations := (id, operation) :: m.operations }
  -- a wait that timed out makes the consumer spill
  | .wake id timedOut =>
    let operations := m.operations.erase (id, .wait)
    some { m with operations := if timedOut then (id, .spill) :: operations else operations }
  | .spilled id =>
    (m.updateConsumer id (.set 0) ⟨0, 0, 0⟩).map fun (m, _) =>
      { m with operations := m.operations.erase (id, .spill) }

def State.run (m : State) : List Action → Option State
  | [] => some m
  | a :: actions => (m.step a).bind fun m => m.run actions

/-- Whether an action can happen: it is about a registered consumer, one that is deregistered has nothing in progress,
`force_spill` is for consumers that can spill, and the memory counted stays within an `isize`. -/
def State.Allowed (m : State) : Action → Prop
  | .register _ => True
  | .deregister id => (m.consumer id).isSome ∧ ∀ x ∈ m.operations, x.1 ≠ id
  | .setSpillable id _ => (m.consumer id).isSome
  | .update id updater _ => ∃ c ∈ m.consumer id, (updater = .force → c.spillable = true) ∧
      m.status.totalUsed + (updater.apply c).2.2 < 2 ^ 63 + c.memUsed
  | .wake id _ => (id, .wait) ∈ m.operations
  | .spilled id => (id, .spill) ∈ m.operations

instance (m : State) (a : Action) : Decidable (m.Allowed a) :=
  match a with
  | .register _ => inferInstanceAs (Decidable True)
  | .deregister id => inferInstanceAs (Decidable ((m.consumer id).isSome ∧ ∀ x ∈ m.operations, x.1 ≠ id))
  | .setSpillable id _ => inferInstanceAs (Decidable (m.consumer id).isSome)
  | .update id updater _ => inferInstanceAs (Decidable (∃ c ∈ m.consumer id,
      (updater = .force → c.spillable = true) ∧ m.status.totalUsed + (updater.apply c).2.2 < 2 ^ 63 + c.memUsed))
  | .wake id _ => inferInstanceAs (Decidable ((id, Operation.wait) ∈ m.operations))
  | .spilled id => inferInstanceAs (Decidable ((id, Operation.spill) ∈ m.operations))

def State.Admissible (m : State) : List Action → Prop
  | [] => True
  | a :: actions => m.Allowed a ∧ ∀ m' ∈ m.step a, m'.Admissible actions

instance decidableAdmissible (m : State) (actions : List Action) : Decidable (m.Admissible actions) :=
  match actions with
  | [] => inferInstanceAs (Decidable True)
  | a :: actions =>
    have := fun m' : State => decidableAdmissible m' actions
    inferInstanceAs (Decidable (m.Allowed a ∧ ∀ m' ∈ m.step a, m'.Admissible actions))

def Action.isForceSpill : Action → Bool
  | .update _ .force _ => true
  | _ => false

structure State.Exact (m : State) : Prop where
  totalUsed : m.status.totalUsed = sumOf (·.memUsed) m.consumers
  memSpillables : m.status.memSpillables = sumOf (fun c => if c.spillable then c.memUsed else 0) m.consumers
  numConsumers : m.status.numConsumers = m.consumers.length
  numSpillables : m.status.numSpillables = m.consumers.countP (·.spillable)

/-! ### What holds at every moment -/

def Consumer.memSpillable (c : Consumer) : ℕ := if c.spillable then c.memUsed else 0

def Consumer.countSpillable (c : Consumer) : ℕ := if c.spillable then 1 else 0

/-- The numbers of the manager are those of its consumers but for `leaked` bytes in both totals, they fit in an `isize`,
and what is in progress is about registered consumers. -/
structure State.Accounts (leaked : ℕ) (m : State) : Prop where
  totalUsed : m.status.totalUsed = sumOf (·.memUsed) m.consumers + leaked
  memSpillables : m.status.memSpillables = sumOf (·.memSpillable) m.consumers + leaked
  numConsumers : m.status.numConsumers = sumOf (fun _ => 1) m.consumers
  numSpillables : m.status.numSpillables = sumOf (·.countSpillable) m.consumers
  bounded : m.status.totalUsed < 2 ^ 63
  live : ∀ x ∈ m.operations, x.1 ∈ m.consumers.map (·.id)

lemma State.Accounts.init (total : ℕ) : (State.init total).Accounts 0 := by
  constructor <;> simp [State.init, sumOf]

lemma State.Accounts.exact_iff {leaked : ℕ} {m : State} (h : m.Accounts leaked) : m.Exact ↔ leaked = 0 := by
  have hlength : sumOf (fun _ => 1) m.consumers = m.consumers.length := by simp [sumOf]
  have hcount : sumOf (·.countSpillable) m.consumers = m.consumers.countP (·.spillable) := by
    induction m.consumers with
    | nil => rfl
    | cons c cs ih =>
      rw [countP_cons, ← ih, sumOf, map_cons, add_comm]
      rfl
  constructor
  · intro hexact
    have := h.totalUsed.symm.trans hexact.totalUsed
    omega
  · rintro rfl
    exact ⟨h.totalUsed, h.memSpillables, h.numConsumers.trans hlength, h.numSpillables.trans hcount⟩

lemma State.exists_of_consumer {m : State} {id : ℕ} {c : Consumer} (h : m.consumer id = some c) :
    ∃ i hi, m.find id = some i ∧ m.consumers[i] = c ∧ c.id = id := by
  obtain ⟨i, hi, hc⟩ := Option.bind_eq_some_iff.1 h
  obtain ⟨hlt, rfl⟩ := List.getElem?_eq_some_iff.1 hc
  have hfind := findIdx?_eq_some_iff_getElem.1 hi
  exact ⟨i, hlt, hi, rfl, by simpa using hfind.2.1⟩

lemma State.consumer_isSome_iff {m : State} {id : ℕ} : (m.consumer id).isSome ↔ id ∈ m.consumers.map (·.id) := by
  constructor
  · intro h
    obtain ⟨c, hc⟩ := isSome_iff_exists.1 h
    obtain ⟨i, hi, -, rfl, rfl⟩ := exists_of_consumer hc
    exact mem_map_of_mem (getElem_mem hi)
  · intro h
    obtain ⟨c, hc, hid⟩ := mem_map.1 h
    obtain ⟨i, hi⟩ := isSome_iff_exists.1
      (findIdx?_isSome.trans (any_eq_true.2 ⟨c, hc, beq_iff_eq.2 hid⟩) :
        (m.consumers.findIdx? (·.id == id)).isSome = true)
    have hlt := (findIdx?_eq_some_iff_getElem.1 hi).1
    rw [consumer, find, hi, bind_some, getElem?_eq_getElem hlt]
    rfl

lemma map_id_set {cs : List Consumer} {i : ℕ} (hi : i < cs.length) {c : Consumer} (hid : c.id = cs[i].id) :
    (cs.set i c).map (·.id) = cs.map (·.id) := by
  have hset := @set_getElem_self _ (cs.map (·.id)) i (by simpa using hi)
  rwa [getElem_map, ← hid, ← map_set] at hset

lemma updateTotalUsedWithDiff_eq {s : MemManagerStatus} {diff : ℤ} {n : ℕ} (hs : s.totalUsed < 2 ^ 63)
    (hn : (s.totalUsed : ℤ) + diff = n) (hmax : n < 2 ^ 63) :
    s.updateTotalUsedWithDiff diff = some { s with totalUsed := n } := by
  rw [MemManagerStatus.updateTotalUsedWithDiff, toIsize_add hs hn hmax, if_pos (by omega), toUsize_natCast hmax]

/-- Consumers come and go, and the numbers of the manager change with them. -/
lemma State.Accounts.exchange {leaked extra : ℕ} {m m' : State} (h : m.Accounts leaked) (old new : List Consumer)
    (hsum : ∀ w, sumOf w m'.consumers + sumOf w old = sumOf w m.consumers + sumOf w new)
    (htotal : m'.status.totalUsed + sumOf (·.memUsed) old = m.status.totalUsed + sumOf (·.memUsed) new + extra)
    (hmem : m'.status.memSpillables + sumOf (·.memSpillable) old =
      m.status.memSpillables + sumOf (·.memSpillable) new + extra)
    (hnum : m'.status.numConsumers + old.length = m.status.numConsumers + new.length)
    (hcount : m'.status.numSpillables + sumOf (·.countSpillable) old =
      m.status.numSpillables + sumOf (·.countSpillable) new)
    (hbounded : m'.status.totalUsed < 2 ^ 63) (hlive : ∀ x ∈ m'.operations, x.1 ∈ m'.consumers.map (·.id)) :
    m'.Accounts (leaked + extra) := by
  obtain ⟨_, _, _, _, -, -⟩ := h
  have h1 := hsum (·.memUsed)
  have h2 := hsum (·.memSpillable)
  have h3 := hsum fun _ => 1
  have h4 := hsum (·.countSpillable)
  have hlength : ∀ cs, sumOf (fun _ => 1) cs = cs.length := by simp [sumOf]
  rw [hlength old, hlength new] at h3
  refine ⟨?_, ?_, ?_, ?_, hbounded, hlive⟩
  iterate 4 clear hbounded; omega

section Accounts

variable {leaked : ℕ}

lemma State.Accounts.register {m : State} (h : m.Accounts leaked) (spillable : Bool) :
    (m.registerConsumer spillable).Accounts leaked := by
  refine @exchange leaked 0 m (m.registerConsumer spillable) h [] [⟨m.nextId, 0, spillable⟩]
    (fun w => by simp [sumOf, registerConsumer]) rfl ?_ rfl ?_ h.bounded fun x hx => ?_
  · cases spillable <;> rfl
  · cases spillable <;> rfl
  · rw [registerConsumer, map_append]
    exact mem_append_left _ (h.live x hx)

lemma State.Accounts.memSpillables_le {m : State} (h : m.Accounts leaked) :
    m.status.memSpillables ≤ m.status.totalUsed := by
  have hpart : ∀ c : Consumer, c.memSpillable ≤ c.memUsed := by
    intro c
    unfold Consumer.memSpillable
    split <;> omega
  rw [h.totalUsed, h.memSpillables]
  apply Nat.add_le_add_right
  induction m.consumers with
  | nil => exact Nat.le_refl _
  | cons c cs ih => exact Nat.add_le_add (hpart c) ih

lemma State.Accounts.part_le {m : State} (h : m.Accounts leaked) {i : ℕ} (hi : i < m.consumers.length) :
    m.consumers[i].memUsed ≤ m.status.totalUsed ∧ m.consumers[i].memSpillable ≤ m.status.memSpillables ∧
      1 ≤ m.status.numConsumers ∧ m.consumers[i].countSpillable ≤ m.status.numSpillables := by
  have h1 := le_sumOf (w := (·.memUsed)) hi
  have h2 := le_sumOf (w := (·.memSpillable)) hi
  have h3 := le_sumOf (w := fun _ => 1) hi
  have h4 := le_sumOf (w := (·.countSpillable)) hi
  rw [h.totalUsed, h.memSpillables, h.numConsumers, h.numSpillables]
  exact ⟨Nat.le_add_right_of_le h1, Nat.le_add_right_of_le h2, h3, h4⟩

lemma State.Accounts.deregister {m : State} (h : m.Accounts leaked) {id : ℕ}
    (hid : (m.consumer id).isSome) (hidle : ∀ x ∈ m.operations, x.1 ≠ id) :
    ∃ m', m.deregisterConsumer id = some m' ∧ m'.Accounts leaked := by
  obtain ⟨c, hc⟩ := isSome_iff_exists.1 hid
  obtain ⟨i, hi, hfind, rfl, rfl⟩ := exists_of_consumer hc
  obtain ⟨hused, hmem, hone, hcount⟩ := h.part_le hi
  have hmax : m.status.totalUsed - m.consumers[i].memUsed < 2 ^ 63 := Nat.lt_of_le_of_lt (Nat.sub_le _ _) h.bounded
  have htotal : { m.status with numConsumers := m.status.numConsumers - 1 }.updateTotalUsedWithDiff
      (toIsize (-toIsize m.consumers[i].memUsed)) = some { m.status with
        numConsumers := m.status.numConsumers - 1
        totalUsed := m.status.totalUsed - m.consumers[i].memUsed } := by
    rw [toIsize_neg (Nat.lt_of_le_of_lt hused h.bounded)]
    exact updateTotalUsedWithDiff_eq h.bounded (by dsimp only; omega) hmax
  have hlive : ∀ x ∈ m.operations, x.1 ∈ (swapRemove m.consumers i).map (·.id) := fun x hx =>
    (mem_cons.1 (((perm_swapRemove hi).map (·.id)).mem_iff.1 (h.live x hx))).resolve_left (hidle x hx)
  have hremove := fun status =>
    @exchange leaked 0 m { m with consumers := swapRemove m.consumers i, status } h
    [m.consumers[i]] [] fun w => sumOf_swapRemove hi
  simp only [deregisterConsumer, hfind, getElem?_eq_getElem hi, bind_eq_bind, bind_some,
    if_pos hused, htotal]
  generalize m.consumers[i] = c at *
  obtain ⟨_, _, spillable⟩ := c
  cases spillable with
  | true =>
    rw [Consumer.memSpillable, if_pos rfl] at hmem
    rw [if_pos rfl, if_pos hmem]
    refine ⟨_, rfl, hremove _ ?_ ?_ ?_ ?_ hmax hlive⟩
    exacts [Nat.sub_add_cancel hused, Nat.sub_add_cancel hmem, Nat.sub_add_cancel hone, Nat.sub_add_cancel hcount]
  | false => exact ⟨_, rfl, hremove _ (Nat.sub_add_cancel hused) rfl (Nat.sub_add_cancel hone) rfl hmax hlive⟩

lemma State.Accounts.setSpillable {m : State} (h : m.Accounts leaked) {id : ℕ}
    (hid : (m.consumer id).isSome) (spillable : Bool) :
    ∃ m', m.setSpillable id spillable = some m' ∧ m'.Accounts leaked := by
  obtain ⟨c, hc⟩ := isSome_iff_exists.1 hid
  obtain ⟨i, hi, hfind, rfl, -⟩ := exists_of_consumer hc
  obtain ⟨_, hmem, -, hcount⟩ := h.part_le hi
  have hlive := map_id_set hi (c := { m.consumers[i] with spillable }) rfl ▸ h.live
  have hwrite := fun status => @exchange leaked 0 m { m with consumers := m.consumers.set i _, status } h
    [m.consumers[i]] [{ m.consumers[i] with spillable }] fun w => sumOf_set hi _
  simp only [State.setSpillable, hfind, getElem?_eq_getElem hi, bind_eq_bind, bind_some]
  generalize m.consumers[i] = c at *
  obtain ⟨_, _, before⟩ := c
  cases before <;> cases spillable
  · exact ⟨_, rfl, hwrite _ rfl rfl rfl rfl h.bounded hlive⟩
  · exact ⟨_, rfl, hwrite _ rfl rfl rfl rfl h.bounded hlive⟩
  · rw [if_pos (Bool.noConfusion ·), if_neg (by decide)]
    rw [Consumer.memSpillable, if_pos rfl] at hmem
    rw [if_pos hmem]
    exact ⟨_, rfl, hwrite _ rfl (Nat.sub_add_cancel hmem) rfl (Nat.sub_add_cancel hcount) h.bounded hlive⟩
  · exact ⟨_, rfl, hwrite _ rfl rfl rfl rfl h.bounded hlive⟩

def Updater.leak : Updater → ℕ
  | .force => 1
  | _ => 0

lemma Updater.apply_eq (c : Consumer) (u : Updater) :
    ∃ used, u.apply c = ({ c with memUsed := used }, c.memUsed, used + u.leak) := by
  cases u <;> exact ⟨_, rfl⟩

lemma exists_replaced {n old : ℕ} (hold : old ≤ n) (new : ℕ) :
    ∃ n', n' + old = n + new ∧ (n : ℤ) + ((new : ℤ) - old) = n' :=
  ⟨n - old + new, by omega, by omega⟩

lemma replaced_le {n n' m m' old new : ℕ} (hle : n ≤ m) (hn : n' + old = n + new) (hm : m' + old = m + new) :
    n' ≤ m' := by
  omega

/-- **The section of an update under the lock**: no assertion fails, and the totals are off by what the updater
announced and did not write. -/
theorem State.Accounts.updateConsumer {m : State} (h : m.Accounts leaked) {id : ℕ} {u : Updater}
    {env : Readings} {c : Consumer} (hc : m.consumer id = some c) (hforce : u = .force → c.spillable = true)
    (hfit : m.status.totalUsed + (u.apply c).2.2 < 2 ^ 63 + c.memUsed) :
    ∃ m' operation, m.updateConsumer id u env = some (m', operation) ∧ m'.Accounts (leaked + u.leak) ∧
      m'.consumers.map (·.id) = m.consumers.map (·.id) := by
  obtain ⟨i, hi, hfind, rfl, -⟩ := exists_of_consumer hc
  obtain ⟨hused, hmem, -, hcount⟩ := h.part_le hi
  obtain ⟨used, happly⟩ := u.apply_eq m.consumers[i]
  have hle : m.status.memSpillables ≤ m.status.totalUsed := h.memSpillables_le
  have hold := Nat.lt_of_le_of_lt hused h.bounded
  rw [happly] at hfit
  -- the total after the update, and that it fits
  obtain ⟨total, htotal, htotalDiff⟩ := exists_replaced hused (used + u.leak)
  have hfits : total < 2 ^ 63 := by
    dsimp only at hfit
    omega
  have hnew : used + u.leak < 2 ^ 63 := by omega
  have hdiff := toIsize_sub hnew hold
  have hupdate := updateTotalUsedWithDiff_eq h.bounded htotalDiff hfits
  have hids := @map_id_set m.consumers i hi ⟨m.consumers[i].id, used, m.consumers[i].spillable⟩ rfl
  have hwrite := fun status => @exchange leaked u.leak m { m with consumers := m.consumers.set i _, status } h
    [m.consumers[i]] [⟨m.consumers[i].id, used, m.consumers[i].spillable⟩] fun w => sumOf_set hi _
  simp only [State.updateConsumer, hfind, getElem?_eq_getElem hi, bind_eq_bind, bind_some, happly,
    hdiff, hupdate]
  generalize m.consumers[i] = c at *
  obtain ⟨_, _, spillable⟩ := c
  cases spillable with
  | false =>
    have hforced : (u == Updater.force) = false := beq_eq_false_iff_ne.2 fun hu => Bool.false_ne_true (hforce hu)
    have hleak : u.leak = 0 := by
      cases u with
      | force => cases hforced
      | set _ => rfl
      | diff _ => rfl
    simp only [hforced, Bool.not_false, Bool.or_true, Bool.and_true, Bool.false_and, Bool.false_eq_true, if_false,
      if_true]
    refine ⟨_, _, rfl, hwrite _ (htotal.trans (add_assoc ..).symm) ?_ rfl rfl hfits (hids ▸ h.live), hids⟩
    rw [hleak]
    rfl
  | true =>
    rw [Consumer.memSpillable, if_pos rfl] at hmem
    obtain ⟨mem, hmemEq, hmemDiff⟩ := exists_replaced hmem (used + u.leak)
    have hmemFits : mem < 2 ^ 63 := Nat.lt_of_le_of_lt (replaced_le hle hmemEq htotal) hfits
    replace hmemDiff := toIsize_add (Nat.lt_of_le_of_lt hle h.bounded) hmemDiff hmemFits
    have hnonneg : ¬ (mem : ℤ) < 0 := Int.not_lt.2 (Int.natCast_nonneg mem)
    have hspills : m.status.numSpillables ≠ 0 := Nat.ne_of_gt hcount
    have haccounts := hwrite { m.status with totalUsed := total, memSpillables := mem }
      (htotal.trans (add_assoc ..).symm) (hmemEq.trans (add_assoc ..).symm) rfl rfl hfits (hids ▸ h.live)
    simp only [hmemDiff, hnonneg, decide_false, Bool.not_true, Bool.and_false, Bool.false_eq_true, if_false, if_true,
      toUsize_natCast hmemFits, hspills]
    split
    · exact ⟨_, _, rfl, haccounts, hids⟩
    · exact ⟨_, _, rfl, haccounts, hids⟩

lemma State.Accounts.withOperations {m : State} (h : m.Accounts leaked)
    {operations : List (ℕ × Operation)} (hlive : ∀ x ∈ operations, x.1 ∈ m.consumers.map (·.id)) :
    { m with operations }.Accounts leaked :=
  ⟨h.totalUsed, h.memSpillables, h.numConsumers, h.numSpillables, h.bounded, hlive⟩

/-- **One step**: no assertion fails, and `force_spill` leaks one byte. -/
theorem State.Accounts.step {m : State} (h : m.Accounts leaked) {a : Action} (ha : m.Allowed a) :
    ∃ m', m.step a = some m' ∧ m'.Accounts (leaked + if a.isForceSpill then 1 else 0) := by
  cases a with
  | register spillable => exact ⟨_, rfl, h.register spillable⟩
  | deregister id => exact h.deregister ha.1 ha.2
  | setSpillable id spillable => exact h.setSpillable ha spillable
  | update id updater env =>
    obtain ⟨c, hc, hforce, hfit⟩ := ha
    obtain ⟨m', operation, hupdate, hm', hids⟩ := @updateConsumer _ _ h _ _ env _ hc hforce hfit
    have hleak : (if (Action.update id updater env).isForceSpill then 1 else 0) = updater.leak := by
      cases updater <;> rfl
    have hid : id ∈ m'.consumers.map (·.id) := by
      rw [hids]
      exact consumer_isSome_iff.1 (isSome_iff_exists.2 ⟨c, hc⟩)
    have hpush : ∀ operation,
        { m' with operations := (id, operation) :: m'.operations }.Accounts (leaked + updater.leak) :=
      fun operation => hm'.withOperations (forall_mem_cons.2 ⟨hid, hm'.live⟩)
    rw [State.step, hupdate, hleak]
    cases operation with
    | nothing => exact ⟨_, rfl, hm'⟩
    | wait => exact ⟨_, rfl, hpush .wait⟩
    | spill => exact ⟨_, rfl, hpush .spill⟩
  | wake id timedOut =>
    have herase : ∀ x ∈ m.operations.erase (id, .wait), x.1 ∈ m.consumers.map (·.id) :=
      fun x hx => h.live x (mem_of_mem_erase hx)
    refine ⟨_, rfl, h.withOperations ?_⟩
    cases timedOut with
    | false => exact herase
    | true => exact forall_mem_cons.2 ⟨h.live (id, .wait) ha, herase⟩
  | spilled id =>
    obtain ⟨c, hc⟩ := isSome_iff_exists.1 (consumer_isSome_iff.2 (h.live _ ha))
    have hbounded := h.bounded
    obtain ⟨_, _, hupdate, hm', -⟩ := h.updateConsumer (u := .set 0) (c := c) hc (by rintro ⟨⟩)
      (Nat.lt_add_right _ hbounded)
    rw [State.step, hupdate]
    exact ⟨_, rfl, hm'.withOperations fun x hx => hm'.live x (mem_of_mem_erase hx)⟩

/-- **A run**: the totals are off by one byte for each `force_spill`. -/
theorem State.Accounts.run {m : State} (h : m.Accounts leaked) {actions : List Action}
    (hactions : m.Admissible actions) :
    ∃ m', m.run actions = some m' ∧ m'.Accounts (leaked + actions.countP Action.isForceSpill) := by
  induction actions generalizing leaked m with
  | nil => exact ⟨m, rfl, h⟩
  | cons a actions ih =>
    obtain ⟨m', hstep, hm'⟩ := h.step hactions.1
    obtain ⟨r, hrun, _⟩ := ih hm' (hactions.2 m' hstep)
    refine ⟨r, by rw [State.run, hstep]; exact hrun, ?_⟩
    rwa [countP_cons, add_comm (actions.countP _), ← add_assoc]

end Accounts

/-- **The accounting is exact if and only if `force_spill` was never called.**  No assertion fails in any run, and at
every moment the four numbers are those of the registered consumers precisely if no action so far was the start of a
`force_spill`. -/
theorem exact_iff_no_force_spill {total : ℕ} {actions : List Action} (h : (State.init total).Admissible actions) :
    ∃ m, (State.init total).run actions = some m ∧ (m.Exact ↔ ∀ a ∈ actions, a.isForceSpill = false) := by
  obtain ⟨m, hrun, hm⟩ := (State.Accounts.init total).run h
  refine ⟨m, hrun, hm.exact_iff.trans ?_⟩
  simp

/-- Two consumers, an update that makes one of them spill, and one that is no longer there at the end. -/
theorem exact_iff_no_force_spill_spilled : ∃ m, (State.init 100).run
    [.register true, .register false, .update 0 (.set 10) ⟨0, 0, 0⟩, .update 0 (.diff (2 ^ 25)) ⟨0, 0, 0⟩,
      .update 1 (.set 5) ⟨0, 0, 0⟩, .spilled 0, .deregister 0, .setSpillable 1 true] = some m ∧ m.Exact ∧
    m.operations = [] ∧ m.status = ⟨1, 5, 1, 5⟩ := by
  have hall : (State.init 100).Admissible
      [.register true, .register false, .update 0 (.set 10) ⟨0, 0, 0⟩, .update 0 (.diff (2 ^ 25)) ⟨0, 0, 0⟩,
        .update 1 (.set 5) ⟨0, 0, 0⟩, .spilled 0, .deregister 0, .setSpillable 1 true] := by
    decide +kernel
  obtain ⟨m, hrun, hm⟩ := exact_iff_no_force_spill hall
  refine ⟨m, hrun, hm.2 (by decide), ?_⟩
  have hend : ((State.init 100).run
      [.register true, .register false, .update 0 (.set 10) ⟨0, 0, 0⟩, .update 0 (.diff (2 ^ 25)) ⟨0, 0, 0⟩,
        .update 1 (.set 5) ⟨0, 0, 0⟩, .spilled 0, .deregister 0, .setSpillable 1 true]).all
      (fun m => m.operations = [] ∧ m.status = ⟨1, 5, 1, 5⟩) = true := by
    decide +kernel
  rw [hrun] at hend
  simpa using hend

/-- **One forced spill**: the consumer uses nothing, and the manager counts a byte. -/
theorem force_spill_leaks : ∃ m, (State.init 100).Admissible
      [.register true, .update 0 .force ⟨0, 0, 0⟩, .spilled 0] ∧
    (State.init 100).run [.register true, .update 0 .force ⟨0, 0, 0⟩, .spilled 0] = some m ∧ m.operations = [] ∧
    m.status.totalUsed = 1 ∧ sumOf (·.memUsed) m.consumers = 0 := by
  refine ⟨⟨100, [⟨0, 0, true⟩], ⟨1, 1, 1, 1⟩, 1, []⟩, ?_, ?_, rfl, rfl, rfl⟩
  · decide +kernel
  · decide +kernel

end Auron.MemManager
