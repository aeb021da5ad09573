import Auron.Io.BatchRoundTrip
import Auron.Lib.Counter
import Auron.Lib.Fallible

/-!
# Collected lists and sets (`agg/collect.rs`)

`AccList` is the encodings of the collected scalars, one behind the other; `AccSet` has the positions of these encodings as
well, in a vector at first and in a hash table from four on, and keeps a scalar out that is there already.

A `Holds` says which scalars a set has: their encodings are its bytes, and its positions are theirs.  All operations keep
that, as long as the bytes of a record can be counted with the 32 bits of a position.
-/

namespace Auron.Agg

open Auron.Io Auron.Io.BatchSerde Auron.Lib List
open Option (bind_some map_some)

/-! ### Scalars -/

/-- `write_scalar` and `read_scalar` for the scalars of one data type that are not null. -/
structure ScalarCodec (V : Type) where
  write : V → Bytes
  read : ReadBytes V
  parses : ∀ v, read.Parses (write v) v
  write_ne_nil : ∀ v, write v ≠ []

lemma ScalarCodec.write_injective {V : Type} (C : ScalarCodec V) : Function.Injective C.write := by
  intro v w h
  have hv := C.parses v .other []
  rw [h, C.parses w .other []] at hv
  exact (Prod.mk.inj (Except.ok.inj hv)).1.symm

structure CollectEnv where
  /-- `acc_hash`. -/
  accHash : Bytes → UInt64
  /-- The order in which a hash table is iterated. -/
  tableOrder : List (ℕ × ℕ) → List (ℕ × ℕ)
  tableOrder_perm : ∀ entries, (tableOrder entries).Perm entries
  /-- The capacity of a hash table after some insertions. -/
  tableCapacity : ℕ → ℕ
  /-- The capacity of a vector with some bytes after others have been appended. -/
  grow : Bytes → ℕ → Bytes → ℕ
  le_grow : ∀ bytes capacity appended, capacity ≤ grow bytes capacity appended

/-! ### Lists -/

structure AccList where
  raw : Bytes
  capacity : ℕ

def AccList.default : AccList := ⟨[], 0⟩

def AccList.memSize (l : AccList) : ℕ := l.capacity

section Defs

variable {V : Type} (E : CollectEnv) (C : ScalarCodec V)

def AccList.extend (l : AccList) (bytes : Bytes) : AccList := ⟨l.raw ++ bytes, E.grow l.raw l.capacity bytes⟩

def AccList.append (l : AccList) (v : V) : AccList := l.extend E (C.write v)

/-- `AccList::merge`: the list, and what is left of the other one. -/
def AccList.merge (l other : AccList) : AccList × AccList := (l.extend E other.raw, .default)

/-- The scalars that are read while there are bytes, with a bound on their number; `none` if one is not read. -/
def readValues : ℕ → Bytes → Option (List V)
  | 0, _ => none
  | n + 1, raw =>
    if raw = [] then some []
    else match C.read.run (Source.list .unexpectedEof) raw with
      | .ok (v, rest) => (readValues n rest).map (v :: ·)
      | .error _ => none

/-- `AccList::into_values`: every scalar has a byte. -/
def AccList.intoValues (l : AccList) : Option (List V) := readValues C (l.raw.length + 1) l.raw

/-! ### Sets -/

/-- `AccList::ref_raw`; `none` if the slice is out of bounds. -/
def refRaw (raw : Bytes) (posLen : ℕ × ℕ) : Option Bytes :=
  if posLen.1 + posLen.2 ≤ raw.length then some ((raw.drop posLen.1).take posLen.2) else none

def asU32 (n : ℕ) : ℕ := n % 2 ^ 32

/-- `InternalSet`: positions and lengths of encodings; in a hash table with their hashes. -/
inductive InternalSet where
  | small (entries : List (ℕ × ℕ))
  | huge (entries : List (UInt64 × (ℕ × ℕ)))

def InternalSet.default : InternalSet := .small []

def InternalSet.len : InternalSet → ℕ
  | small entries => entries.length
  | huge entries => entries.length

/-- `InternalSet::capacity`: four entries of a small set are inline, and it never has more. -/
def InternalSet.capacity : InternalSet → ℕ
  | small _ => 4
  | huge entries => E.tableCapacity entries.length

def InternalSet.intoIter : InternalSet → List (ℕ × ℕ)
  | small entries => entries
  | huge entries => E.tableOrder (entries.map Prod.snd)

def InternalSet.convertToHugeIfNeeded (raw : Bytes) : InternalSet → Option InternalSet
  | small entries =>
    if 4 ≤ entries.length then
      (entries.mapM fun posLen => (refRaw raw posLen).map fun bytes => (E.accHash bytes, posLen)).map huge
    else some (small entries)
  | huge entries => some (huge entries)

def findSmall (raw value : Bytes) : List (ℕ × ℕ) → Option Bool
  | [] => some false
  | posLen :: entries =>
    (refRaw raw posLen).bind fun bytes => if bytes = value then some true else findSmall raw value entries

/-- The search in a hash table, among the entries with the hash. -/
def findHuge (raw value : Bytes) : List (UInt64 × (ℕ × ℕ)) → Option Bool
  | [] => some false
  | (hash, posLen) :: entries =>
    if hash = E.accHash value ∧ value.length = posLen.2 then
      (refRaw raw posLen).bind fun bytes => if bytes = value then some true else findHuge raw value entries
    else findHuge raw value entries

structure AccSet where
  list : AccList
  set : InternalSet

def AccSet.default : AccSet := ⟨.default, .default⟩

def AccSet.memSize (s : AccSet) : ℕ := s.list.memSize + s.set.capacity E * 16

/-- A new entry of a set, whose bytes the list has already. -/
def InternalSet.insert (raw value : Bytes) (posLen : ℕ × ℕ) : InternalSet → Option InternalSet
  | small entries => (small (entries ++ [posLen])).convertToHugeIfNeeded E raw
  | huge entries => some (huge (entries ++ [(E.accHash value, posLen)]))

def InternalSet.find (raw value : Bytes) : InternalSet → Option Bool
  | small entries => findSmall raw value entries
  | huge entries => findHuge E raw value entries

def AccSet.appendRaw (s : AccSet) (raw : Bytes) : Option AccSet :=
  let newPosLen := (asU32 s.list.raw.length, asU32 raw.length)
  (s.set.find E s.list.raw raw).bind fun found =>
    if found then some s
    else (s.set.insert E (s.list.raw ++ raw) raw newPosLen).map fun set => ⟨s.list.extend E raw, set⟩

/-- `append_raw_inline`: the bytes from a start on are a new value, and are removed if it is there already. -/
def AccSet.appendRawInline (s : AccSet) (rawStart : ℕ) : Option AccSet :=
  let newPosLen := (asU32 rawStart, asU32 (s.list.raw.length - rawStart))
  (refRaw s.list.raw newPosLen).bind fun value =>
    (s.set.find E s.list.raw value).bind fun found =>
      if found then some { s with list := ⟨s.list.raw.take rawStart, s.list.capacity⟩ }
      else (s.set.insert E s.list.raw value newPosLen).map fun set => { s with set }

def AccSet.append (s : AccSet) (v : V) : Option AccSet :=
  ({ s with list := s.list.append E C v } : AccSet).appendRawInline E s.list.raw.length

/-- `AccSet::merge`: the set, and what is left of the other one, which is the smaller one. -/
def AccSet.merge (s other : AccSet) : Option (AccSet × AccSet) :=
  let (s, other) := if s.set.len < other.set.len then (other, s) else (s, other)
  ((other.set.intoIter E).foldlM (fun s posLen => (refRaw other.list.raw posLen).bind fun raw => s.appendRaw E raw) s).map
    fun s => (s, { other with set := .default })

def AccSet.intoValues (s : AccSet) : Option (List V) := s.list.intoValues C

/-! ### Columns -/

def orFail {α : Type} : Option α → ReadBytes α
  | some a => pure a
  | none => .fail .other

structure AccSetColumn where
  set : List AccSet
  memUsed : Counter

namespace AccSetColumn

def empty : AccSetColumn := ⟨[], .zero⟩

variable (col : AccSetColumn)

def appendItem (idx : ℕ) (v : V) : Option AccSetColumn :=
  col.set[idx]?.bind fun s => (s.append E C v).map fun s' =>
    ⟨col.set.set idx s', col.memUsed.addDiff (s'.memSize E) (s.memSize E)⟩

def mergeItems (idx : ℕ) (other : AccSetColumn) (otherIdx : ℕ) : Option (AccSetColumn × AccSetColumn) :=
  col.set[idx]?.bind fun s => other.set[otherIdx]?.bind fun o => (s.merge E o).map fun r =>
    (⟨col.set.set idx r.1, col.memUsed.addDiff (r.1.memSize E) (s.memSize E)⟩,
      ⟨other.set.set otherIdx r.2, other.memUsed.sub (o.memSize E)⟩)

def saveRaw (idx : ℕ) : Option Bytes :=
  col.set[idx]?.map fun s => writeLen s.list.raw.length ++ s.list.raw

def loadRaw (idx : ℕ) : ReadBytes AccSetColumn := do
  let s ← orFail col.set[idx]?
  let col : AccSetColumn := ⟨col.set.set idx .default, col.memUsed.sub (s.memSize E)⟩
  let len ← BatchSerde.readLen
  let bytes ← Reads.exact len
  let values ← orFail (readValues C (len + 1) bytes)
  let col ← orFail (values.foldlM (fun col v => appendItem E C col idx v) col)
  let s ← orFail col.set[idx]?
  pure { col with memUsed := col.memUsed.add (s.memSize E) }

def takeValues (idx : ℕ) : Option (List V × AccSetColumn) :=
  col.set[idx]?.bind fun s => (s.intoValues C).map fun values =>
    (values, ⟨col.set.set idx .default, col.memUsed.sub (s.memSize E)⟩)

def resize (len : ℕ) : AccSetColumn :=
  ⟨col.set.take len ++ replicate (len - col.set.length) .default,
    (col.set.drop len).foldl (fun memUsed s => memUsed.sub (s.memSize E)) col.memUsed⟩

end AccSetColumn

structure AccListColumn where
  list : List AccList
  memUsed : Counter

namespace AccListColumn

def empty : AccListColumn := ⟨[], .zero⟩

variable (col : AccListColumn)

def appendItem (idx : ℕ) (v : V) : Option AccListColumn :=
  col.list[idx]?.map fun l =>
    ⟨col.list.set idx (l.append E C v), col.memUsed.addDiff (l.append E C v).memSize l.memSize⟩

def mergeItems (idx : ℕ) (other : AccListColumn) (otherIdx : ℕ) : Option (AccListColumn × AccListColumn) :=
  col.list[idx]?.bind fun l => other.list[otherIdx]?.map fun o =>
    (⟨col.list.set idx (l.merge E o).1, col.memUsed.addDiff (l.merge E o).1.memSize l.memSize⟩,
      ⟨other.list.set otherIdx (l.merge E o).2, other.memUsed.sub o.memSize⟩)

def saveRaw (idx : ℕ) : Option Bytes :=
  col.list[idx]?.map fun l => writeLen l.raw.length ++ l.raw

/-- `load_raw`: the bytes that are read are the vector. -/
def loadRaw (idx : ℕ) : ReadBytes AccListColumn := do
  let l ← orFail col.list[idx]?
  let len ← BatchSerde.readLen
  let bytes ← Reads.exact len
  let loaded : AccList := ⟨bytes, bytes.length⟩
  pure ⟨col.list.set idx loaded, (col.memUsed.sub l.memSize).add loaded.memSize⟩

def takeValues (idx : ℕ) : Option (List V × AccListColumn) :=
  col.list[idx]?.bind fun l => (l.intoValues C).map fun values =>
    (values, ⟨col.list.set idx .default, col.memUsed.sub l.memSize⟩)

def resize (len : ℕ) : AccListColumn :=
  ⟨col.list.take len ++ replicate (len - col.list.length) .default,
    (col.list.drop len).foldl (fun memUsed l => memUsed.sub l.memSize) col.memUsed⟩

end AccListColumn

end Defs

/-! ### Values are read back -/

section Values

variable {V : Type} (C : ScalarCodec V)

lemma ScalarCodec.length_write_pos (v : V) : 0 < (C.write v).length := length_pos_iff.2 (C.write_ne_nil v)

lemma length_le_flatMap_write (vs : List V) : vs.length ≤ (vs.flatMap C.write).length := by
  induction vs with
  | nil => exact Nat.zero_le _
  | cons v vs ih =>
    have hpos := C.length_write_pos v
    rw [flatMap_cons, length_append, length_cons]
    omega

lemma readValues_flatMap {fuel : ℕ} {vs : List V} (h : vs.length < fuel) :
    readValues C fuel (vs.flatMap C.write) = some vs := by
  induction vs generalizing fuel with
  | nil =>
    obtain ⟨fuel, rfl⟩ := Nat.exists_eq_add_one_of_ne_zero (ne_of_gt h)
    exact if_pos rfl
  | cons v vs ih =>
    obtain ⟨fuel, rfl⟩ := Nat.exists_eq_add_one_of_ne_zero (ne_of_gt (Nat.zero_lt_of_lt h))
    have hne : (v :: vs).flatMap C.write ≠ [] := by
      exact append_ne_nil_of_left_ne_nil (C.write_ne_nil v) _
    rw [readValues, if_neg hne, flatMap_cons, C.parses v]
    show (readValues C fuel (vs.flatMap C.write)).map (v :: ·) = _
    rw [ih (Nat.lt_of_succ_lt_succ h), map_some]

lemma flatMap_write_injective {vs ws : List V} (h : vs.flatMap C.write = ws.flatMap C.write) : vs = ws := by
  have hvs := readValues_flatMap C (Nat.lt_succ_of_le (length_le_flatMap_write C vs))
  have hws := readValues_flatMap C (Nat.lt_succ_of_le (length_le_flatMap_write C ws))
  rw [h] at hvs
  exact Option.some.inj (hvs.symm.trans hws)

lemma AccList.intoValues_spec {l : AccList} {vs : List V} (h : l.raw = vs.flatMap C.write) :
    l.intoValues C = some vs := by
  unfold AccList.intoValues
  rw [h]
  exact readValues_flatMap C (Nat.lt_succ_of_le (length_le_flatMap_write C vs))

end Values

/-! ### Positions of encodings -/

lemma asU32_of_lt {n : ℕ} (h : n < 2 ^ 32) : asU32 n = n := Nat.mod_eq_of_lt h

lemma refRaw_append {raw value : Bytes} {posLen : ℕ × ℕ} (h : refRaw raw posLen = some value) (more : Bytes) :
    refRaw (raw ++ more) posLen = some value := by
  obtain ⟨pos, len⟩ := posLen
  unfold refRaw at h ⊢
  split at h
  case isTrue hle =>
    have hle' : pos + len ≤ (raw ++ more).length := by
      rw [length_append]
      exact Nat.le_add_right_of_le hle
    have hpos : pos ≤ raw.length := by
      omega
    have hlen : len ≤ (raw.drop pos).length := by
      rw [length_drop]
      omega
    rw [if_pos hle', drop_append_of_le_length hpos, take_append_of_le_length hlen]
    exact h
  case isFalse => cases h

lemma refRaw_last (raw value : Bytes) : refRaw (raw ++ value) (raw.length, value.length) = some value := by
  simp [refRaw]

lemma length_of_refRaw {raw value : Bytes} {posLen : ℕ × ℕ} (h : refRaw raw posLen = some value) :
    value.length = posLen.2 := by
  obtain ⟨_, _⟩ := posLen
  unfold refRaw at h
  split at h
  case isTrue hle =>
    cases h
    rw [length_take, length_drop]
    omega
  case isFalse => cases h

section Sets

variable (E : CollectEnv)

def RefersTo (raw : Bytes) (posLen : ℕ × ℕ) (value : Bytes) : Prop := refRaw raw posLen = some value

def HashedTo (raw : Bytes) (entry : UInt64 × (ℕ × ℕ)) (value : Bytes) : Prop :=
  entry.1 = E.accHash value ∧ RefersTo raw entry.2 value

/-- The entries of a set are some encodings, in the order in which they were inserted. -/
def InternalSet.Refers (raw : Bytes) : InternalSet → List Bytes → Prop
  | small entries, values => Forall₂ (RefersTo raw) entries values
  | huge entries, values => Forall₂ (HashedTo E raw) entries values

variable {E}

variable {raw : Bytes} {set : InternalSet} {values : List Bytes}

lemma InternalSet.Refers.append (h : set.Refers E raw values) (more : Bytes) : set.Refers E (raw ++ more) values := by
  cases set with
  | small entries => exact Forall₂.imp (fun _ _ h => refRaw_append h more) h
  | huge entries => exact Forall₂.imp (fun _ _ h => ⟨h.1, refRaw_append h.2 more⟩) h

variable {value : Bytes} {entries : List (ℕ × ℕ)}

lemma findSmall_spec (h : Forall₂ (RefersTo raw) entries values) :
    findSmall raw value entries = some (decide (value ∈ values)) := by
  induction h with
  | nil => rfl
  | @cons posLen bytes entries values href hrest ih =>
    rw [findSmall, href, bind_some]
    by_cases heq : bytes = value
    · simp [heq]
    · rw [if_neg heq, ih]
      simp [Ne.symm heq]

lemma findHuge_spec {entries : List (UInt64 × (ℕ × ℕ))} (h : Forall₂ (HashedTo E raw) entries values) :
    findHuge E raw value entries = some (decide (value ∈ values)) := by
  induction h with
  | nil => rfl
  | @cons entry bytes entries values href hrest ih =>
    obtain ⟨hash, _⟩ := entry
    obtain ⟨rfl, hslice⟩ := href
    rw [findHuge]
    by_cases heq : bytes = value
    · subst heq
      rw [if_pos ⟨rfl, length_of_refRaw hslice⟩, hslice]
      simp
    · -- another encoding may have the same hash and length
      have hmem : decide (value ∈ bytes :: values) = decide (value ∈ values) := by simp [Ne.symm heq]
      rw [hslice, bind_some, if_neg heq, ite_self, ih, hmem]

lemma InternalSet.Refers.find_spec (h : set.Refers E raw values) (value : Bytes) :
    set.find E raw value = some (decide (value ∈ values)) := by
  cases set with
  | small entries => exact findSmall_spec h
  | huge entries => exact findHuge_spec h

lemma hashAll_spec (h : Forall₂ (RefersTo raw) entries values) :
    ∃ hashed, entries.mapM (fun posLen => (refRaw raw posLen).map fun bytes => (E.accHash bytes, posLen)) = some hashed
      ∧ Forall₂ (HashedTo E raw) hashed values := by
  induction h with
  | nil => exact ⟨[], rfl, .nil⟩
  | @cons posLen bytes entries values href hrest ih =>
    obtain ⟨hashed, hmap, hrefs⟩ := ih
    refine ⟨(E.accHash bytes, posLen) :: hashed, mapM_cons_eq_some.2 ⟨_, hashed, ?_, hmap, rfl⟩, .cons ⟨rfl, href⟩ hrefs⟩
    rw [href, map_some]

lemma InternalSet.Refers.convertToHugeIfNeeded_spec (h : set.Refers E raw values) :
    ∃ set', set.convertToHugeIfNeeded E raw = some set' ∧ set'.Refers E raw values := by
  cases set with
  | huge entries => exact ⟨_, rfl, h⟩
  | small entries =>
    rw [convertToHugeIfNeeded]
    split
    case isFalse => exact ⟨_, rfl, h⟩
    case isTrue =>
      obtain ⟨hashed, hmap, hrefs⟩ := hashAll_spec (E := E) h
      exact ⟨.huge hashed, by rw [hmap, map_some], hrefs⟩

lemma InternalSet.Refers.insert_spec {posLen : ℕ × ℕ} (h : set.Refers E raw values)
    (hnew : refRaw raw posLen = some value) :
    ∃ set', set.insert E raw value posLen = some set' ∧ set'.Refers E raw (values ++ [value]) := by
  cases set with
  | small entries =>
    have hsmall : (InternalSet.small (entries ++ [posLen])).Refers E raw (values ++ [value]) :=
      rel_append h (.cons hnew .nil)
    exact hsmall.convertToHugeIfNeeded_spec
  | huge entries => exact ⟨_, rfl, rel_append h (.cons ⟨rfl, hnew⟩ .nil)⟩

lemma InternalSet.Refers.intoIter_spec (h : set.Refers E raw values) :
    ∃ ordered, Forall₂ (RefersTo raw) (set.intoIter E) ordered ∧ ordered.Perm values := by
  cases set with
  | small entries => exact ⟨values, h, .refl values⟩
  | huge entries =>
    have hrefs : Forall₂ (RefersTo raw) (entries.map Prod.snd) values :=
      forall₂_map_left_iff.2 (Forall₂.imp (fun _ _ h => h.2) h)
    obtain ⟨ordered, hordered, hperm⟩ := perm_comp_forall₂ (E.tableOrder_perm _) hrefs
    exact ⟨ordered, hordered, hperm⟩

variable (E)

/-- A set has some different encodings, with the bytes and the entries for them. -/
structure AccSet.Holds (s : AccSet) (values : List Bytes) : Prop where
  raw : s.list.raw = values.flatten
  nodup : values.Nodup
  refers : s.set.Refers E s.list.raw values
  small : s.list.raw.length < 2 ^ 32

variable {E}

lemma AccSet.Holds.default : AccSet.Holds E .default [] := ⟨rfl, .nil, .nil, by decide⟩

def addNew (values : List Bytes) (value : Bytes) : List Bytes := if value ∈ values then values else values ++ [value]

lemma mem_addNew {b : Bytes} : b ∈ addNew values value ↔ b ∈ values ∨ b = value := by
  unfold addNew
  split
  case isTrue hmem => exact ⟨.inl, fun hb => hb.elim id fun heq => heq ▸ hmem⟩
  case isFalse => rw [mem_append, mem_singleton]

lemma length_flatten_addNew_le (values : List Bytes) (value : Bytes) :
    (addNew values value).flatten.length ≤ values.flatten.length + value.length := by
  unfold addNew
  split
  · exact Nat.le_add_right _ _
  · simp

lemma foldl_addNew_of_nodup {added : List Bytes} (h : (values ++ added).Nodup) :
    added.foldl addNew values = values ++ added := by
  induction added generalizing values with
  | nil => exact (append_nil values).symm
  | cons value added ih =>
    have hnew : value ∉ values := fun hmem => (nodup_append.1 h).2.2 _ hmem _ mem_cons_self rfl
    rw [append_cons] at h ⊢
    rw [foldl_cons, addNew, if_neg hnew, ih h]

lemma length_flatten_foldl_addNew_le (added values : List Bytes) :
    (added.foldl addNew values).flatten.length ≤ values.flatten.length + added.flatten.length := by
  induction added generalizing values with
  | nil => exact Nat.le_refl _
  | cons value added ih =>
    have hhead := length_flatten_addNew_le values value
    have hrest := ih (addNew values value)
    rw [foldl_cons, flatten_cons, length_append]
    omega

/-- A value that is there already is missing in the bytes. -/
lemma foldl_addNew_of_length {added : List Bytes} (hne : ∀ value ∈ added, value ≠ [])
    (h : (added.foldl addNew values).flatten.length = values.flatten.length + added.flatten.length) :
    added.foldl addNew values = values ++ added := by
  induction added generalizing values with
  | nil => exact (append_nil values).symm
  | cons value added ih =>
    obtain ⟨hvalue, hadded⟩ := forall_mem_cons.1 hne
    have hpos := length_pos_iff.2 hvalue
    rw [foldl_cons, flatten_cons, length_append] at h
    rw [foldl_cons, append_cons]
    by_cases hmem : value ∈ values
    · have hle := length_flatten_foldl_addNew_le added values
      rw [addNew, if_pos hmem] at h
      omega
    · rw [addNew, if_neg hmem] at h ⊢
      refine ih hadded ?_
      rw [h, flatten_append, flatten_singleton, length_append, Nat.add_assoc]

variable {s : AccSet}

lemma AccSet.Holds.concat {capacity : ℕ} (h : s.Holds E values) (hnew : value ∉ values)
    (hset : set.Refers E (s.list.raw ++ value) (values ++ [value]))
    (hsmall : s.list.raw.length + value.length < 2 ^ 32) :
    AccSet.Holds E ⟨⟨s.list.raw ++ value, capacity⟩, set⟩ (values ++ [value]) where
  raw := by
    rw [h.raw, flatten_append, flatten_singleton]
  nodup := nodup_append.2 ⟨h.nodup, by simp, by
    rintro b hb _ hv rfl
    exact hnew (mem_singleton.1 hv ▸ hb)⟩
  refers := hset
  small := by
    rw [length_append]
    exact hsmall

lemma AccSet.Holds.appendRaw_spec (h : s.Holds E values) (value : Bytes)
    (hsmall : s.list.raw.length + value.length < 2 ^ 32) :
    ∃ s', s.appendRaw E value = some s' ∧ s'.Holds E (addNew values value) := by
  unfold AccSet.appendRaw addNew
  rw [h.refers.find_spec, bind_some, asU32_of_lt (lt_of_le_of_lt (Nat.le_add_right _ _) hsmall),
    asU32_of_lt (lt_of_le_of_lt (Nat.le_add_left _ _) hsmall)]
  by_cases hmem : value ∈ values
  · exact ⟨s, by simp [hmem], by rw [if_pos hmem]; exact h⟩
  · obtain ⟨_, hinsert, hrefers⟩ := (h.refers.append value).insert_spec (refRaw_last s.list.raw value)
    refine ⟨_, by rw [hinsert]; simp [hmem]; rfl, ?_⟩
    rw [if_neg hmem]
    exact h.concat hmem hrefers hsmall

lemma AccSet.Holds.append_spec {V : Type} (C : ScalarCodec V) (h : s.Holds E values) {v : V}
    (hsmall : s.list.raw.length + (C.write v).length < 2 ^ 32) :
    ∃ s', s.append E C v = some s' ∧ s'.Holds E (addNew values (C.write v)) := by
  unfold AccSet.append AccSet.appendRawInline addNew AccList.append AccList.extend
  dsimp only
  rw [length_append, Nat.add_sub_cancel_left, asU32_of_lt (lt_of_le_of_lt (Nat.le_add_right _ _) hsmall),
    asU32_of_lt (lt_of_le_of_lt (Nat.le_add_left _ _) hsmall), refRaw_last, bind_some,
    (h.refers.append (C.write v)).find_spec]
  by_cases hmem : C.write v ∈ values
  · refine ⟨_, by simp [hmem]; rfl, ?_⟩
    rw [if_pos hmem]
    exact ⟨h.raw, h.nodup, h.refers, h.small⟩
  · obtain ⟨_, hinsert, hrefers⟩ := (h.refers.append (C.write v)).insert_spec (refRaw_last s.list.raw (C.write v))
    refine ⟨_, by rw [hinsert]; simp [hmem]; rfl, ?_⟩
    rw [if_neg hmem]
    exact h.concat hmem hrefers hsmall

lemma AccSet.Holds.appendAll_spec {added : List Bytes} (hrefs : Forall₂ (RefersTo raw) entries added)
    (h : s.Holds E values) (hsmall : s.list.raw.length + added.flatten.length < 2 ^ 32) :
    ∃ s' values', entries.foldlM (fun s posLen => (refRaw raw posLen).bind fun bytes => s.appendRaw E bytes) s = some s'
      ∧ s'.Holds E values' ∧ ∀ b, b ∈ values' ↔ b ∈ values ∨ b ∈ added := by
  induction hrefs generalizing s values with
  | nil => exact ⟨s, values, rfl, h, by simp⟩
  | @cons posLen bytes entries added href hrest ih =>
    rw [flatten_cons, length_append] at hsmall
    obtain ⟨s₁, happend, h₁⟩ := h.appendRaw_spec bytes (by omega)
    have hlen : s₁.list.raw.length ≤ s.list.raw.length + bytes.length := by
      rw [h₁.raw, h.raw]
      exact length_flatten_addNew_le values bytes
    obtain ⟨s', values', hfold, h', hmem⟩ := ih h₁ (by omega)
    refine ⟨s', values', foldlM_cons_eq_some.2 ⟨s₁, ?_, hfold⟩, h', ?_⟩
    · rw [href, bind_some, happend]
    · intro b
      rw [hmem b, mem_addNew, mem_cons, or_assoc]

lemma AccSet.Holds.merge_spec {other : AccSet} {others : List Bytes} (h : s.Holds E values)
    (hother : other.Holds E others) (hsmall : s.list.raw.length + other.list.raw.length < 2 ^ 32) :
    ∃ s' other' values', s.merge E other = some (s', other') ∧ s'.Holds E values'
      ∧ ∀ b, b ∈ values' ↔ b ∈ values ∨ b ∈ others := by
  -- whichever of the two is the larger one
  have hmerge : ∀ {s other : AccSet} {values others : List Bytes}, s.Holds E values → other.Holds E others →
      s.list.raw.length + other.list.raw.length < 2 ^ 32 → ∃ s' values', (other.set.intoIter E).foldlM
        (fun s posLen => (refRaw other.list.raw posLen).bind fun bytes => s.appendRaw E bytes) s = some s'
        ∧ s'.Holds E values' ∧ ∀ b, b ∈ values' ↔ b ∈ values ∨ b ∈ others := by
    intro s other _ _ h hother hsmall
    obtain ⟨ordered, hordered, hperm⟩ := hother.refers.intoIter_spec
    have hlen : ordered.flatten.length = other.list.raw.length := by
      rw [hother.raw]
      exact hperm.flatten.length_eq
    obtain ⟨s', values', hfold, h', hmem⟩ := h.appendAll_spec hordered (by rw [hlen]; exact hsmall)
    refine ⟨s', values', hfold, h', fun b => ?_⟩
    rw [hmem b, hperm.mem_iff]
  unfold AccSet.merge
  by_cases hlt : s.set.len < other.set.len
  · obtain ⟨s', values', hfold, h', hmem⟩ := hmerge hother h (by omega)
    refine ⟨s', { s with set := .default }, values', ?_, h', fun b => ?_⟩
    · rw [if_pos hlt]
      dsimp only
      rw [hfold, map_some]
    · rw [hmem b, or_comm]
  · obtain ⟨s', values', hfold, h', hmem⟩ := hmerge h hother hsmall
    refine ⟨s', { other with set := .default }, values', ?_, h', hmem⟩
    rw [if_neg hlt]
    dsimp only
    rw [hfold, map_some]

end Sets

end Auron.Agg
