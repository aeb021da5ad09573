import Mathlib.Data.List.GetD
import Mathlib.Data.List.Nodup
import Mathlib.Algebra.Order.Group.Nat

/-!
# The radix queue (`algorithm/rdx_queue.rs`)

A queue of values with small keys that may only grow.  The values of each key are a chain: `entries` has the first one of
every key, `nodeNexts` the one behind each of them.  The first value of the smallest key is on top; when it has been
changed, it moves to the front of the chain of its new key, and the smallest key is searched from the old one on.

`Links` says that the chains hold the values of their keys, those of a set of indices: a value is put in front of a chain
(`Links.link`) or taken off its front (`Links.unlink`).  `Wf` adds that the queue stands at the smallest key.
-/

namespace Auron.Algorithm

open List
open Option (bind_some getD_some)

class KeyForRadixQueue (T : Type) where
  rdx : T → ℕ

open KeyForRadixQueue (rdx)

/-- `RadixQueue`; an entry `none` is `usize::MAX`. -/
structure RadixQueue (T : Type) where
  numKeys : ℕ
  curRdx : ℕ
  values : List T
  entries : List (Option ℕ)
  nodeNexts : List (Option ℕ)

variable {T : Type}

section Ops

variable [KeyForRadixQueue T]

/-- The entries, the links and the smallest key of `init_tree`; a key `none` is `usize::MAX`. -/
structure InitState where
  entries : List (Option ℕ)
  nodeNexts : List (Option ℕ)
  minRdx : Option ℕ

/-- One value of `init_tree`, with its number. -/
def initStep (numKeys : ℕ) (st : InitState) (v : T × ℕ) : InitState :=
  let minRdx := some (st.minRdx.elim (rdx v.1) (min · (rdx v.1)))
  if rdx v.1 < numKeys then
    ⟨st.entries.set (rdx v.1) (some v.2), st.nodeNexts.set v.2 (st.entries.getD (rdx v.1) none), minRdx⟩
  else { st with minRdx }

/-- `RadixQueue::new`, with `init_tree`. -/
def RadixQueue.new (values : List T) (numKeys : ℕ) : RadixQueue T :=
  let st := values.zipIdx.foldl (initStep (numKeys + 1))
    ⟨replicate (numKeys + 1) none, replicate values.length none, none⟩
  ⟨numKeys + 1, st.minRdx.getD (2 ^ 64 - 1), values, st.entries, st.nodeNexts⟩

/-- The first key from one on that has an entry; the number of keys if none has. -/
def nextEntry (entries : List (Option ℕ)) (key : ℕ) : ℕ := key + (entries.drop key).findIdx Option.isSome

variable (q : RadixQueue T)

/-- The number of the value on top; that of the first value if the smallest key is not in the entries. -/
def RadixQueue.top : Option ℕ := (q.entries[q.curRdx]?).getD (some 0)

/-- `peek`; `none` if an unchecked index is out of bounds. -/
def RadixQueue.peek : Option T := q.top.bind fun i => q.values[i]?

def RadixQueue.adjustTree : Option (RadixQueue T) :=
  if q.curRdx < q.numKeys then
    (q.entries.getD q.curRdx none).bind fun i =>
      q.values[i]?.map fun v =>
        if q.curRdx < rdx v then
          let entries := q.entries.set q.curRdx (q.nodeNexts.getD i none)
          if rdx v < q.numKeys then
            let nodeNexts := q.nodeNexts.set i (entries.getD (rdx v) none)
            let entries := entries.set (rdx v) (some i)
            { q with curRdx := nextEntry entries q.curRdx, entries, nodeNexts }
          else { q with curRdx := nextEntry entries q.curRdx, entries }
        else q
  else some q

/-- `peek_mut`: the value on top is replaced, and the queue adjusted when the borrow ends. -/
def RadixQueue.setTop (v : T) : Option (RadixQueue T) :=
  q.top.bind fun i => ({ q with values := q.values.set i v } : RadixQueue T).adjustTree

end Ops

/-! ### Chains -/

def Chain (nexts : List (Option ℕ)) : Option ℕ → List ℕ → Prop
  | none, [] => True
  | some i, j :: l => i = j ∧ Chain nexts (nexts.getD i none) l
  | _, _ => False

lemma Chain.set_of_notMem {nexts : List (Option ℕ)} {i : ℕ} (x : Option ℕ) {l : List ℕ} (hi : i ∉ l) {e : Option ℕ}
    (h : Chain nexts e l) : Chain (nexts.set i x) e l := by
  induction l generalizing e with
  | nil =>
    cases e with
    | none => trivial
    | some => exact h
  | cons j l ih =>
    cases e with
    | none => exact h
    | some k =>
      obtain ⟨rfl, h⟩ := h
      obtain ⟨hne, hi⟩ := ne_and_not_mem_of_not_mem_cons hi
      refine ⟨rfl, ?_⟩
      rw [getD_eq_getElem?_getD, getElem?_set_ne hne]
      exact ih hi h

lemma Chain.exists_cons {nexts : List (Option ℕ)} {i : ℕ} {l : List ℕ} (h : Chain nexts (some i) l) :
    ∃ l', l = i :: l' ∧ Chain nexts (nexts.getD i none) l' := by
  cases l with
  | nil => exact h.elim
  | cons j l =>
    obtain ⟨rfl, h⟩ := h
    exact ⟨l, rfl, h⟩

section Links

variable [KeyForRadixQueue T]

/-- The value number `i` has the key. -/
def HasKey (values : List T) (i k : ℕ) : Prop := ∃ v, values[i]? = some v ∧ rdx v = k

/-- The chain of every key holds those of the indices in `present` whose values have the key. -/
def Links (values : List T) (present : ℕ → Prop) (entries nexts : List (Option ℕ)) : Prop :=
  ∃ c : ℕ → List ℕ, ∀ k < entries.length, Chain nexts (entries.getD k none) (c k) ∧ (c k).Nodup ∧
    ∀ i, i ∈ c k ↔ present i ∧ HasKey values i k

variable {values : List T} {present : ℕ → Prop} {entries nexts : List (Option ℕ)}

variable {i : ℕ}

lemma getD_set_self {l : List (Option ℕ)} (h : i < l.length) (x : Option ℕ) : (l.set i x).getD i none = x := by
  rw [getD_eq_getElem?_getD, getElem?_set_self h, getD_some]

lemma getD_set_of_ne {l : List (Option ℕ)} {j : ℕ} (h : i ≠ j) (x : Option ℕ) :
    (l.set i x).getD j none = l.getD j none := by
  rw [getD_eq_getElem?_getD, getElem?_set_ne h, ← getD_eq_getElem?_getD]

variable {k : ℕ}

lemma HasKey.unique {k' : ℕ} (h : HasKey values i k) (h' : HasKey values i k') : k = k' := by
  obtain ⟨v, hv, rfl⟩ := h
  obtain ⟨_, hv', rfl⟩ := h'
  exact congrArg rdx (Option.some.inj (hv.symm.trans hv'))

section Linked

variable (h : Links values present entries nexts)

include h

/-- **A value is put in front of the chain of its key.** -/
theorem Links.link (hi : ¬ present i) (hkey : HasKey values i k)
    (hk : k < entries.length) (hnext : i < nexts.length) :
    Links values (fun j => present j ∨ j = i) (entries.set k (some i)) (nexts.set i (entries.getD k none)) := by
  obtain ⟨c, hc⟩ := h
  refine ⟨fun k' => if k' = k then i :: c k else c k', fun k' hk' => ?_⟩
  rw [length_set] at hk'
  obtain ⟨hchain, hnodup, hmem⟩ := hc k' hk'
  have hnot : i ∉ c k' := fun hin => hi ((hmem i).1 hin).1
  by_cases hkk : k' = k
  · subst hkk
    simp only [if_true, getD_set_self hk]
    refine ⟨⟨rfl, ?_⟩, nodup_cons.2 ⟨hnot, hnodup⟩, fun j => ?_⟩
    · rw [getD_set_self hnext]
      exact hchain.set_of_notMem _ hnot
    · rw [mem_cons, hmem j]
      constructor
      · rintro (rfl | ⟨hj, hkey'⟩)
        · exact ⟨.inr rfl, hkey⟩
        · exact ⟨.inl hj, hkey'⟩
      · rintro ⟨hj | rfl, hkey'⟩
        · exact .inr ⟨hj, hkey'⟩
        · exact .inl rfl
  · simp only [if_neg hkk, getD_set_of_ne (Ne.symm hkk)]
    refine ⟨hchain.set_of_notMem _ hnot, hnodup, fun j => ?_⟩
    rw [hmem j]
    constructor
    · rintro ⟨hj, hkey'⟩
      exact ⟨.inl hj, hkey'⟩
    · rintro ⟨hj | rfl, hkey'⟩
      · exact ⟨hj, hkey'⟩
      · exact absurd (hkey'.unique hkey) hkk

section Bucket

variable (hk : k < entries.length)

include hk

lemma Links.entry_spec (he : entries.getD k none = some i) : present i ∧ HasKey values i k := by
  obtain ⟨c, hc⟩ := h
  obtain ⟨hchain, -, hmem⟩ := hc k hk
  rw [he] at hchain
  obtain ⟨l, hck, -⟩ := hchain.exists_cons
  exact (hmem i).1 (by rw [hck]; exact mem_cons_self)

/-- **The first value of a chain is taken off.** -/
theorem Links.unlink (htop : entries.getD k none = some i) :
    Links values (fun j => present j ∧ j ≠ i) (entries.set k (nexts.getD i none)) nexts := by
  have hin := h.entry_spec hk htop
  obtain ⟨c, hc⟩ := h
  have hfront := (hc k hk).1
  rw [htop] at hfront
  obtain ⟨l, hck, hl⟩ := hfront.exists_cons
  refine ⟨fun k' => if k' = k then l else c k', fun k' hk' => ?_⟩
  rw [length_set] at hk'
  obtain ⟨hchain, hnodup, hmem⟩ := hc k' hk'
  by_cases hkk : k' = k
  · subst hkk
    rw [hck] at hnodup
    obtain ⟨hnot, hnodup⟩ := nodup_cons.1 hnodup
    simp only [getD_set_self hk]
    refine ⟨hl, hnodup, fun j => ?_⟩
    rw [and_right_comm, ← hmem j, hck, mem_cons]
    constructor
    · intro hj
      exact ⟨.inr hj, fun heq => hnot (heq ▸ hj)⟩
    · rintro ⟨rfl | hj, hne⟩
      · exact absurd rfl hne
      · exact hj
  · simp only [if_neg hkk, getD_set_of_ne (Ne.symm hkk)]
    refine ⟨hchain, hnodup, fun j => ?_⟩
    rw [and_right_comm, ← hmem j]
    refine ⟨fun hj => ⟨hj, ?_⟩, And.left⟩
    rintro rfl
    exact hkk (((hmem j).1 hj).2.unique hin.2)

lemma Links.entry_isSome (hi : present i) (hkey : HasKey values i k) : (entries.getD k none).isSome = true := by
  obtain ⟨c, hc⟩ := h
  obtain ⟨hchain, -, hmem⟩ := hc k hk
  have hin := (hmem i).2 ⟨hi, hkey⟩
  cases he : entries.getD k none with
  | some => rfl
  | none =>
    cases hck : c k with
    | nil =>
      rw [hck] at hin
      cases hin
    | cons j l =>
      rw [he, hck] at hchain
      exact hchain.elim

end Bucket

lemma Links.congr {values' : List T} {present' : ℕ → Prop}
    (hp : ∀ i k, present i ∧ HasKey values i k ↔ present' i ∧ HasKey values' i k) :
    Links values' present' entries nexts := by
  obtain ⟨c, hc⟩ := h
  refine ⟨c, fun k hk => ?_⟩
  obtain ⟨hchain, hnodup, hmem⟩ := hc k hk
  exact ⟨hchain, hnodup, fun j => (hmem j).trans (hp j k)⟩

lemma Links.set (hi : ¬ present i) (v : T) : Links (values.set i v) present entries nexts := by
  refine h.congr fun j k => and_congr_right fun hj => ?_
  have hne : i ≠ j := fun heq => hi (heq ▸ hj)
  rw [HasKey, HasKey, getElem?_set_ne hne]

lemma Links.set_of_rdx_eq {v v' : T} (hv : values[i]? = some v) (hkey : rdx v' = rdx v) :
    Links (values.set i v') present entries nexts := by
  refine h.congr fun j k => and_congr_right fun _ => ?_
  by_cases hij : i = j
  · subst hij
    have hi := (List.getElem?_eq_some_iff.1 hv).1
    simp [HasKey, hv, getElem?_set_self hi, hkey]
  · rw [HasKey, HasKey, getElem?_set_ne hij]

end Linked

lemma Links.empty (values : List T) (numKeys : ℕ) (nexts : List (Option ℕ)) :
    Links values (fun _ => False) (replicate numKeys none) nexts := by
  refine ⟨fun _ => [], fun k hk => ⟨?_, .nil, by simp⟩⟩
  rw [length_replicate] at hk
  rw [getD_replicate none hk]
  trivial

end Links

/-! ### The queue -/

section Wf

variable [KeyForRadixQueue T] {q : RadixQueue T}

/-- All values are linked, and the queue stands at the smallest key. -/
structure RadixQueue.Wf (q : RadixQueue T) : Prop where
  length_entries : q.entries.length = q.numKeys
  length_nexts : q.nodeNexts.length = q.values.length
  links : Links q.values (· < q.values.length) q.entries q.nodeNexts
  bounded : ∀ v ∈ q.values, rdx v < q.numKeys
  least : ∀ v ∈ q.values, q.curRdx ≤ rdx v
  attained : ∃ v ∈ q.values, rdx v = q.curRdx

lemma nextEntry_spec {entries : List (Option ℕ)} {key k : ℕ} (hkey : key ≤ k) (hk : k < entries.length)
    (hsome : (entries.getD k none).isSome = true) :
    key ≤ nextEntry entries key ∧ nextEntry entries key ≤ k ∧
      (entries.getD (nextEntry entries key) none).isSome = true := by
  have hin : k - key < (entries.drop key).length := by
    rw [length_drop]
    omega
  have hat : (entries.drop key)[k - key].isSome = true := by
    simpa [Nat.add_sub_cancel' hkey, getElem?_eq_getElem hk] using hsome
  have hle : (entries.drop key).findIdx Option.isSome ≤ k - key := by
    by_contra! hlt
    exact Bool.false_ne_true ((not_of_lt_findIdx hlt).symm.trans hat)
  have hfound : (entries.drop key).findIdx Option.isSome < (entries.drop key).length := by omega
  have hentry := findIdx_getElem (w := hfound)
  refine ⟨Nat.le_add_right _ _, ?_, ?_⟩
  · unfold nextEntry
    omega
  · rw [getElem_drop] at hentry
    rw [nextEntry, getD_eq_getElem?_getD, getElem?_eq_getElem (by omega)]
    exact hentry

/-- **The value on top has the smallest key.** -/
theorem RadixQueue.Wf.top_spec (h : q.Wf) :
    ∃ i v, q.top = some i ∧ q.values[i]? = some v ∧ rdx v = q.curRdx ∧ q.entries.getD q.curRdx none = some i := by
  obtain ⟨v, hv, hcur⟩ := h.attained
  obtain ⟨j, hj, rfl⟩ := getElem_of_mem hv
  have hlt : q.curRdx < q.entries.length := by
    rw [h.length_entries, ← hcur]
    exact h.bounded _ hv
  have hsome := h.links.entry_isSome hlt hj ⟨_, getElem?_eq_getElem hj, hcur⟩
  obtain ⟨i, hi⟩ := Option.isSome_iff_exists.1 hsome
  obtain ⟨-, u, hu, hkey⟩ := h.links.entry_spec hlt hi
  refine ⟨i, u, ?_, hu, hkey, hi⟩
  rw [getD_eq_getElem?_getD, getElem?_eq_getElem hlt, getD_some] at hi
  rw [RadixQueue.top, getElem?_eq_getElem hlt, getD_some, hi]

variable {numKeys : ℕ} {values : List T}

/-- The search from the old smallest key ends at the new one: all that a changed queue needs. -/
lemma RadixQueue.Wf.of_links {old : ℕ} {entries nexts : List (Option ℕ)} (hentries : entries.length = numKeys)
    (hnexts : nexts.length = values.length) (hlinks : Links values (· < values.length) entries nexts)
    (hbounded : ∀ v ∈ values, rdx v < numKeys) (hold : ∀ v ∈ values, old ≤ rdx v) (hne : values ≠ []) :
    RadixQueue.Wf ⟨numKeys, nextEntry entries old, values, entries, nexts⟩ := by
  have hspec : ∀ v ∈ values, old ≤ nextEntry entries old ∧ nextEntry entries old ≤ rdx v ∧
      (entries.getD (nextEntry entries old) none).isSome = true := by
    intro v hv
    obtain ⟨i, hi, rfl⟩ := getElem_of_mem hv
    have hk : rdx values[i] < entries.length := by
      rw [hentries]
      exact hbounded _ hv
    exact nextEntry_spec (hold _ hv) hk (hlinks.entry_isSome hk hi ⟨_, getElem?_eq_getElem hi, rfl⟩)
  refine ⟨hentries, hnexts, hlinks, hbounded, fun v hv => (hspec v hv).2.1, ?_⟩
  obtain ⟨v, hv⟩ := exists_mem_of_ne_nil _ hne
  obtain ⟨-, hle, hsome⟩ := hspec v hv
  have hlt : nextEntry entries old < entries.length := by
    rw [hentries]
    exact hle.trans_lt (hbounded v hv)
  obtain ⟨i, hi⟩ := Option.isSome_iff_exists.1 hsome
  obtain ⟨-, u, hu, hkey⟩ := hlinks.entry_spec hlt hi
  exact ⟨u, mem_of_getElem? hu, hkey⟩

variable {v : T}

/-- **The value on top may change to one of a key that is not smaller.** -/
theorem RadixQueue.Wf.setTop_spec (h : q.Wf) {i : ℕ} {v' : T} (htop : q.top = some i) (hv : q.values[i]? = some v)
    (hgrow : rdx v ≤ rdx v') (hbound : rdx v' < q.numKeys) :
    ∃ q', q.setTop v' = some q' ∧ q'.Wf ∧ q'.values = q.values.set i v' ∧ q'.numKeys = q.numKeys := by
  obtain ⟨j, u, htop', hu, hkey, hentry⟩ := h.top_spec
  obtain rfl : j = i := Option.some.inj (htop'.symm.trans htop)
  obtain rfl : u = v := Option.some.inj (hu.symm.trans hv)
  obtain ⟨hi, _⟩ := List.getElem?_eq_some_iff.1 hv
  have hcur : q.curRdx < q.numKeys := hkey ▸ h.bounded u (mem_of_getElem? hv)
  have hcur' : q.curRdx < q.entries.length := h.length_entries ▸ hcur
  have hset : (q.values.set j v')[j]? = some v' := getElem?_set_self hi
  obtain ⟨hbounded, hleast⟩ : (∀ x ∈ q.values.set j v', rdx x < q.numKeys) ∧ ∀ x ∈ q.values.set j v', q.curRdx ≤ rdx x := by
    refine forall₂_and.1 fun x hx => ?_
    rcases mem_or_eq_of_mem_set hx with hx | rfl
    · exact ⟨h.bounded x hx, h.least x hx⟩
    · exact ⟨hbound, hkey ▸ hgrow⟩
  simp only [RadixQueue.setTop, htop, bind_some, RadixQueue.adjustTree, if_pos hcur, hentry, hset,
    Option.map_some, if_pos hbound]
  by_cases hlt : q.curRdx < rdx v'
  · -- the value leaves the front of its chain, changes while it is in none, and enters the chain of its new key
    rw [if_pos hlt]
    refine ⟨_, rfl, ?_, rfl, rfl⟩
    have hnot : ¬ (j < q.values.length ∧ j ≠ j) := fun hcon => hcon.2 rfl
    have hunlinked := (h.links.unlink hcur' hentry).set hnot v'
    have hk : rdx v' < (q.entries.set q.curRdx (q.nodeNexts.getD j none)).length := by
      rw [length_set, h.length_entries]
      exact hbound
    have hlinked := hunlinked.link hnot ⟨v', hset, rfl⟩ hk (by rw [h.length_nexts]; exact hi)
    refine of_links ?_ ?_ (hlinked.congr fun x _ => and_congr_left' ?_) hbounded hleast ?_
    · rw [length_set, length_set, h.length_entries]
    · rw [length_set, length_set, h.length_nexts]
    · rw [length_set]
      by_cases hxj : x = j
      · simp [hxj, hi]
      · simp [hxj]
    · exact ne_nil_of_mem (mem_of_getElem? hset)
  · rw [if_neg hlt]
    have hsame : rdx v' = rdx u := by omega
    refine ⟨_, rfl, ⟨h.length_entries, ?_, ?_, hbounded, hleast, v', mem_of_getElem? hset, ?_⟩, rfl, rfl⟩
    · rw [h.length_nexts, length_set]
    · rw [length_set]
      exact h.links.set_of_rdx_eq hv hsame
    · exact hsame.trans hkey

/-- The values that have been looked at are linked, and the smallest of their keys is known. -/
structure InitDone (values : List T) (numKeys n : ℕ) (st : InitState) : Prop where
  length_entries : st.entries.length = numKeys
  length_nexts : st.nodeNexts.length = values.length
  links : Links values (· < n) st.entries st.nodeNexts
  least : ∀ i v, i < n → values[i]? = some v → ∃ m, st.minRdx = some m ∧ m ≤ rdx v
  attained : ∀ m, st.minRdx = some m → ∃ i, i < n ∧ HasKey values i m

lemma InitDone.step {n : ℕ} {st : InitState} (h : InitDone values numKeys n st) (hv : values[n]? = some v)
    (hbound : rdx v < numKeys) : InitDone values numKeys (n + 1) (initStep numKeys st (v, n)) := by
  simp only [initStep, if_pos hbound]
  have hk : rdx v < st.entries.length := h.length_entries ▸ hbound
  have hn : n < st.nodeNexts.length := h.length_nexts ▸ (List.getElem?_eq_some_iff.1 hv).1
  refine ⟨?_, ?_, ?_, ?_, ?_⟩
  · rw [length_set, h.length_entries]
  · rw [length_set, h.length_nexts]
  · exact (h.links.link (lt_irrefl n) ⟨v, hv, rfl⟩ hk hn).congr fun i _ => and_congr_left' (by omega)
  · intro i u hi hu
    refine ⟨_, rfl, ?_⟩
    rcases Nat.lt_succ_iff_lt_or_eq.1 hi with hi | rfl
    · obtain ⟨m, hm, hle⟩ := h.least i u hi hu
      rw [hm]
      exact (min_le_left _ _).trans hle
    · obtain rfl : u = v := Option.some.inj (hu.symm.trans hv)
      cases st.minRdx with
      | none => exact le_rfl
      | some m => exact min_le_right _ _
  · rintro m hm
    obtain rfl := Option.some.inj hm
    cases hmin : st.minRdx with
    | none => exact ⟨n, Nat.lt_succ_self n, v, hv, rfl⟩
    | some m =>
      rcases le_total m (rdx v) with hle | hle
      · obtain ⟨i, hi, _⟩ := h.attained m hmin
        refine ⟨i, hi.trans (Nat.lt_succ_self n), ?_⟩
        rwa [Option.elim_some, min_eq_left hle]
      · refine ⟨n, Nat.lt_succ_self n, v, hv, ?_⟩
        rw [Option.elim_some, min_eq_right hle]

lemma InitDone.foldl (hbound : ∀ v ∈ values, rdx v < numKeys) :
    ∀ l n st, values.drop n = l → InitDone values numKeys n st →
      InitDone values numKeys (n + l.length) ((l.zipIdx n).foldl (initStep numKeys) st) := by
  intro l
  induction l with
  | nil => exact fun n st _ h => h
  | cons v l ih =>
    intro n _ hdrop h
    have hv : values[n]? = some v := by
      rw [← head?_drop, hdrop, head?_cons]
    have hstep := h.step hv (hbound v (mem_of_getElem? hv))
    have hrest := ih (n + 1) _ (by rw [← tail_drop, hdrop, tail_cons]) hstep
    rw [zipIdx_cons, length_cons, add_comm l.length 1, ← add_assoc]
    exact hrest

/-- **A new queue is well-formed**, if the keys of its values are at most the given number. -/
theorem RadixQueue.new_wf (hne : values ≠ []) (hbound : ∀ v ∈ values, rdx v ≤ numKeys) :
    (new values numKeys).Wf := by
  have hbound' : ∀ v ∈ values, rdx v < numKeys + 1 := fun v hv => Nat.lt_succ_of_le (hbound v hv)
  have hinit : InitDone values (numKeys + 1) 0
      ⟨replicate (numKeys + 1) none, replicate values.length none, none⟩ :=
    ⟨length_replicate, length_replicate, (Links.empty values _ _).congr fun i _ => by simp,
      fun i v hi => absurd hi (Nat.not_lt_zero i), fun m hm => by cases hm⟩
  have hdone := InitDone.foldl hbound' values 0 _ drop_zero hinit
  rw [zero_add] at hdone
  obtain ⟨v, hv⟩ := exists_mem_of_ne_nil _ hne
  obtain ⟨j, hj, rfl⟩ := getElem_of_mem hv
  obtain ⟨m, hm, -⟩ := hdone.least j _ hj (getElem?_eq_getElem hj)
  refine ⟨hdone.length_entries, hdone.length_nexts, hdone.links, hbound', ?_, ?_⟩
  · intro u hu
    obtain ⟨i, hi, rfl⟩ := getElem_of_mem hu
    obtain ⟨_, hm', hle⟩ := hdone.least i _ hi (getElem?_eq_getElem hi)
    show Option.getD _ _ ≤ _
    rw [hm']
    exact hle
  · obtain ⟨i, -, u, hu, hkey⟩ := hdone.attained m hm
    refine ⟨u, mem_of_getElem? hu, ?_⟩
    show _ = Option.getD _ _
    rw [hm]
    exact hkey

/-! ### Runs -/

/-- A queue after some modifications of the value on top, each of which may only make its key larger, up to the largest
key. -/
inductive RadixQueue.Reached (values : List T) (maxKey : ℕ) : RadixQueue T → Prop
  | new : Reached values maxKey (RadixQueue.new values maxKey)
  | modify {q q' : RadixQueue T} {v v' : T} (h : Reached values maxKey q) (hpeek : q.peek = some v)
      (hgrow : rdx v ≤ rdx v') (hmax : rdx v' ≤ maxKey) (hset : q.setTop v' = some q') : Reached values maxKey q'

lemma RadixQueue.Wf.peek_spec (h : q.Wf) (hpeek : q.peek = some v) :
    ∃ i, q.top = some i ∧ q.values[i]? = some v ∧ rdx v = q.curRdx := by
  obtain ⟨i, u, htop, hu, hkey, -⟩ := h.top_spec
  rw [RadixQueue.peek, htop, bind_some, hu] at hpeek
  obtain rfl := Option.some.inj hpeek
  exact ⟨i, htop, hu, hkey⟩

/-- **Every queue of a run is well-formed**, with as many keys and values as the first. -/
theorem RadixQueue.Reached.wf {maxKey : ℕ} (hne : values ≠ []) (hkeys : ∀ v ∈ values, rdx v ≤ maxKey)
    (h : RadixQueue.Reached values maxKey q) : q.Wf ∧ q.numKeys = maxKey + 1 ∧ q.values.length = values.length := by
  induction h with
  | new => exact ⟨RadixQueue.new_wf hne hkeys, rfl, rfl⟩
  | modify _ hpeek hgrow hmax hset ih =>
    obtain ⟨hwf, hnum, hlen⟩ := ih
    obtain ⟨i, htop, hv, -⟩ := hwf.peek_spec hpeek
    obtain ⟨q1, hq1, hwf1, hvalues, hnum1⟩ := hwf.setTop_spec htop hv hgrow (by omega)
    obtain rfl : q1 = _ := Option.some.inj (hq1.symm.trans hset)
    exact ⟨hwf1, hnum1.trans hnum, by rw [hvalues, length_set, hlen]⟩

/-- **A monotone priority queue.**  After every run, the value that is exposed has the smallest key of all values, and it
may be changed to any value of a key that is not smaller: it alone changes, in its place. -/
theorem radixQueue_exposes_least {values : List T} {maxKey : ℕ} (hne : values ≠ [])
    (hkeys : ∀ v ∈ values, rdx v ≤ maxKey) (h : RadixQueue.Reached values maxKey q) :
    q.values.length = values.length ∧ ∃ i v, q.top = some i ∧ q.values[i]? = some v ∧ q.peek = some v ∧
      (∀ u ∈ q.values, rdx v ≤ rdx u) ∧
      ∀ v', rdx v ≤ rdx v' → rdx v' ≤ maxKey →
        ∃ q', q.setTop v' = some q' ∧ RadixQueue.Reached values maxKey q' ∧ q'.values = q.values.set i v' := by
  obtain ⟨hwf, _, hlen⟩ := h.wf hne hkeys
  obtain ⟨i, v, htop, hv, hkey, -⟩ := hwf.top_spec
  have hpeek : q.peek = some v := by rw [RadixQueue.peek, htop, bind_some, hv]
  refine ⟨hlen, i, v, htop, hv, hpeek, fun u hu => hkey ▸ hwf.least u hu, fun v' hgrow hmax => ?_⟩
  obtain ⟨q', hset, -, hvalues, -⟩ := hwf.setTop_spec htop hv hgrow (by omega)
  exact ⟨q', hset, .modify h hpeek hgrow hmax hset, hvalues⟩

end Wf

instance : KeyForRadixQueue ℕ := ⟨id⟩

/-- Three numbers, the smallest of which has been raised to the largest key. -/
theorem radixQueue_exposes_least_numbers : ∃ q : RadixQueue ℕ, (RadixQueue.new [2, 1, 2] 3).setTop 3 = some q ∧
    q.values.length = 3 ∧ ∃ i v, q.top = some i ∧ q.values[i]? = some v ∧ q.peek = some v ∧
      (∀ u ∈ q.values, v ≤ u) ∧
      ∀ v', v ≤ v' → v' ≤ 3 →
        ∃ q', q.setTop v' = some q' ∧ RadixQueue.Reached [2, 1, 2] 3 q' ∧ q'.values = q.values.set i v' := by
  have hpeek : (RadixQueue.new [2, 1, 2] 3).peek = some 1 := rfl
  obtain ⟨q, hq⟩ : ∃ q, (RadixQueue.new [2, 1, 2] 3).setTop 3 = some q := ⟨_, rfl⟩
  have hreached : RadixQueue.Reached [2, 1, 2] 3 q := .modify .new hpeek (by decide) (by decide) hq
  exact ⟨q, hq, radixQueue_exposes_least (by decide) (by decide) hreached⟩

end Auron.Algorithm
