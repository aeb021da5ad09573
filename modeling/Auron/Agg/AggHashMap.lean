import Auron.Io.Bytes
import Auron.Lib.FirstOccurrence
import Auron.Lib.OpenAddressing

/-!
# The hash map of the aggregations (`agg/agg_hash_map.rs`)

The map numbers byte-string keys.  It keeps the keys in the order of their numbers and finds the number of a key in groups
of eight slots; a slot has the hash of the key, which is never 0, and its number.  The groups grow before a batch of keys,
by putting the slots into new groups by their hashes alone.

`Filled` relates a table to the keys it numbers: an upsert finds a key at its number or numbers it next, whatever the
hashes collide on (`upsertOne_of_mem`, `upsertOne_of_notMem`).  Over whole runs the map is the numbering by first
occurrence (`Lib.firsts`), anew after each `take_keys`.

A function returns `none` where the source reads out of bounds, or would not end.
-/

namespace Auron.Agg

open Auron.Io Auron.Lib List
open Option (bind_some map_some)

abbrev OwnedKey := List UInt8

/-- `Table`, without its memory size. -/
structure Table where
  map : List (SlotGroup ℕ)
  mapModBits : ℕ
  keys : List OwnedKey

def Table.default : Table := ⟨[], 0, []⟩

/-- `MapValueGroup::default`. -/
def emptyGroup : SlotGroup ℕ := replicate 8 (0, 0)

/-- `1 << bits` as `u32`: the number of bits wraps. -/
def shl32 (bits : ℕ) : ℕ := 2 ^ (bits % 32)

/-- What a group tells about a key: its number, an index of no key, or an empty slot. -/
inductive Found where
  | hit (recordIdx : ℕ)
  | wild
  | vacant (pos : ℕ)

/-- The first slot of a group with the hash and, in the keys, the key; else the first empty slot. -/
def scanGroup (keys : List OwnedKey) (key : OwnedKey) (hash : ℕ) (g : SlotGroup ℕ) : Option Found :=
  match g.find? fun s => s.1 == hash && keys[s.2]?.all (· == key) with
  | some s => some (if s.2 < keys.length then .hit s.2 else .wild)
  | none => (firstEmpty g).map .vacant

section Hash

variable (hashOne : OwnedKey → ℕ)

/-- `agg_hash`, over any hash function. -/
def aggHash (key : OwnedKey) : ℕ := (hashOne key % 2 ^ 32) ||| 2 ^ 31

namespace Table

def rehash (t : Table) (mapModBits : ℕ) : Option Table :=
  ((entries t.map).foldlM (insertEntry (· % shl32 mapModBits)) (replicate (2 ^ mapModBits) emptyGroup)).map fun map =>
    { t with map, mapModBits }

def reserve (t : Table) (numNewItems : ℕ) : Option Table :=
  let newMapModBits := tableBits (t.keys.length + numNewItems)
  if t.mapModBits < newMapModBits then t.rehash newMapModBits else some t

/-- `upsert_one_impl`: the number of the key, as `u32`. -/
def upsertOne (t : Table) (key : OwnedKey) : Option (ℕ × Table) :=
  let hash := aggHash hashOne key
  (probe (scanGroup t.keys key hash) t.map t.map.length (hash % shl32 t.mapModBits)).bind fun
    | (_, .hit recordIdx) => some (recordIdx % 2 ^ 32, t)
    | (_, .wild) => none
    | (e, .vacant pos) =>
      let recordIdx := t.keys.length % 2 ^ 32
      some (recordIdx, { t with map := setSlot t.map e pos (hash, recordIdx), keys := t.keys ++ [key] })

def upsertMany (t : Table) : List OwnedKey → Option (List ℕ × Table)
  | [] => some ([], t)
  | key :: keys => (t.upsertOne hashOne key).bind fun r => (r.2.upsertMany keys).map fun rs => (r.1 :: rs.1, rs.2)

def upsertRecords (t : Table) (keys : List OwnedKey) : Option (List ℕ × Table) :=
  (t.reserve keys.length).bind fun t => t.upsertMany hashOne keys

def takeKeys (t : Table) : List OwnedKey × Table :=
  (t.keys, { t with map := replicate t.map.length emptyGroup, keys := [] })

def intoKeys (t : Table) : List OwnedKey := t.keys

end Table

/-! ### The keys of a table -/

def slotsOf (ks : List OwnedKey) : List (ℕ × ℕ) := ks.zipIdx.map fun x => (aggHash hashOne x.1, x.2)

structure Filled (t : Table) (ks : List OwnedKey) : Prop where
  keys : t.keys = ks
  nodup : ks.Nodup
  length_map : t.map.length = 2 ^ t.mapModBits
  size : ∀ g ∈ t.map, g.length = 8
  placed : Placed (· % shl32 t.mapModBits) 0 t.map
  slots : (entries t.map).Perm (slotsOf hashOne ks)

variable {hashOne}

lemma aggHash_ne_zero (key : OwnedKey) : aggHash hashOne key ≠ 0 := by
  have hle : 2 ^ 31 ≤ aggHash hashOne key := Nat.right_le_or
  omega

/-- The home group of a hash is one of the groups, also where the shift wraps. -/
lemma mod_shl32_lt (bits h : ℕ) : h % shl32 bits < 2 ^ bits :=
  (Nat.mod_lt _ (Nat.two_pow_pos _)).trans_le (Nat.pow_le_pow_right (by omega) (Nat.mod_le bits 32))

lemma mem_slotsOf {ks : List OwnedKey} {s : ℕ × ℕ} :
    s ∈ slotsOf hashOne ks ↔ ∃ key, ks[s.2]? = some key ∧ s.1 = aggHash hashOne key := by
  rw [slotsOf, mem_map]
  constructor
  · rintro ⟨x, hx, rfl⟩
    exact ⟨x.1, mk_mem_zipIdx_iff_getElem?.1 hx, rfl⟩
  · rintro ⟨key, hkey, hs⟩
    exact ⟨(key, s.2), mk_mem_zipIdx_iff_getElem?.2 hkey, Prod.ext hs.symm rfl⟩

lemma length_slotsOf (ks : List OwnedKey) : (slotsOf hashOne ks).length = ks.length := by
  simp [slotsOf]

lemma slotsOf_append (ks : List OwnedKey) (key : OwnedKey) :
    slotsOf hashOne (ks ++ [key]) = slotsOf hashOne ks ++ [(aggHash hashOne key, ks.length)] := by
  simp [slotsOf, zipIdx_append]

lemma nodup_snd_slotsOf (ks : List OwnedKey) : ((slotsOf hashOne ks).map Prod.snd).Nodup := by
  have hsnd : (slotsOf hashOne ks).map Prod.snd = range' 0 ks.length := by
    rw [slotsOf, map_map]
    exact zipIdx_map_snd 0 ks
  rw [hsnd]
  exact nodup_range'

variable {t : Table} {ks : List OwnedKey}

namespace Filled

variable {e : ℕ} {g : SlotGroup ℕ}

lemma nodup_entries (h : Filled hashOne t ks) : ((entries t.map).map Prod.snd).Nodup :=
  (h.slots.map Prod.snd).nodup_iff.2 (nodup_snd_slotsOf ks)

variable {key : OwnedKey}

section Upsert

variable (h : Filled hashOne t ks)

include h

lemma slot_matches {s : ℕ × ℕ} (hg : t.map[e]? = some g) (hs : s ∈ g)
    (hmatch : (s.1 == aggHash hashOne key && t.keys[s.2]?.all (· == key)) = true) : ks[s.2]? = some key := by
  rw [Bool.and_eq_true, beq_iff_eq] at hmatch
  have hentry := mem_entries.2 ⟨⟨e, g, hg, hs⟩, hmatch.1 ▸ aggHash_ne_zero key⟩
  obtain ⟨_, hkey', -⟩ := mem_slotsOf.1 (h.slots.subset hentry)
  have hall := hmatch.2
  rw [h.keys, hkey', Option.all_some, beq_iff_eq] at hall
  rw [hkey', hall]

lemma scan_of_notMem (hg : t.map[e]? = some g) (hnot : ∀ s ∈ g, s.1 ≠ 0 → ks[s.2]? ≠ some key) :
    scanGroup t.keys key (aggHash hashOne key) g = (firstEmpty g).map .vacant := by
  have hfind : g.find? (fun s => s.1 == aggHash hashOne key && t.keys[s.2]?.all (· == key)) = none := by
    rw [find?_eq_none]
    intro s hs hmatch
    have hhash : s.1 = aggHash hashOne key := by
      rw [Bool.and_eq_true, beq_iff_eq] at hmatch
      exact hmatch.1
    exact hnot s hs (hhash ▸ aggHash_ne_zero key) (h.slot_matches hg hs hmatch)
  rw [scanGroup, hfind]

/-- **A key is found at its number.** -/
theorem upsertOne_of_mem (hlen : ks.length ≤ 2 ^ 32) (hkey : key ∈ ks) :
    t.upsertOne hashOne key = some (ks.idxOf key, t) := by
  have hidx : ks.idxOf key < ks.length := idxOf_lt_length_iff.2 hkey
  have hget : ks[ks.idxOf key]? = some key := by
    rw [getElem?_eq_getElem hidx, getElem_idxOf]
  have huniq : ∀ i, ks[i]? = some key → i = ks.idxOf key := by
    intro i hi
    obtain ⟨hi', hval⟩ := List.getElem?_eq_some_iff.1 hi
    rw [← hval]
    exact (h.nodup.idxOf_getElem i hi').symm
  have hmem : (aggHash hashOne key, ks.idxOf key) ∈ entries t.map :=
    h.slots.mem_iff.2 (mem_slotsOf.2 ⟨key, hget, rfl⟩)
  obtain ⟨⟨e, g, hg, hs⟩, hne⟩ := mem_entries.1 hmem
  have hscan : scanGroup t.keys key (aggHash hashOne key) g = some (.hit (ks.idxOf key)) := by
    have hmatch : (aggHash hashOne key == aggHash hashOne key && t.keys[ks.idxOf key]?.all (· == key)) = true := by
      simp [h.keys, hget]
    unfold scanGroup
    cases hf : g.find? (fun s => s.1 == aggHash hashOne key && t.keys[s.2]?.all (· == key)) with
    | none => exact absurd hmatch (find?_eq_none.1 hf _ hs)
    | some s =>
      have hsmatch : (s.1 == aggHash hashOne key && t.keys[s.2]?.all (· == key)) = true := by
        simpa using find?_some hf
      have hsidx := huniq _ (h.slot_matches hg (mem_of_find?_eq_some hf) hsmatch)
      simp only [hsidx, h.keys, if_pos hidx]
  have hother : ∀ e' g', e' ≠ e → t.map[e']? = some g' → Full g' →
      scanGroup t.keys key (aggHash hashOne key) g' = none := by
    intro _ _ hee hg' hfull
    rw [h.scan_of_notMem hg', firstEmpty_eq_none_iff.2 hfull, Option.map_none]
    intro s hs' hs0 hcontra
    exact ne_of_nodup_entries h.nodup_entries hee hg' hg hs' hs hs0 hne (huniq _ hcontra)
  have hprobe := h.placed.probe_of_mem (scanGroup t.keys key (aggHash hashOne key)) hg hs hne hscan hother
  simp only [Table.upsertOne, hprobe, bind_some,
    Nat.mod_eq_of_lt (hidx.trans_le hlen)]

/-- **A new key is numbered next**, as far as the numbers go. -/
theorem upsertOne_of_notMem (hroom : ks.length < t.map.length * 8) (hkey : key ∉ ks) :
    ∃ t', t.upsertOne hashOne key = some (ks.length % 2 ^ 32, t') ∧ t'.map.length = t.map.length ∧
      (ks.length < 2 ^ 32 → Filled hashOne t' (ks ++ [key])) := by
  have hscan : ∀ g ∈ t.map, scanGroup t.keys key (aggHash hashOne key) g = (firstEmpty g).map .vacant := by
    intro g hg
    obtain ⟨e, he⟩ := getElem?_of_mem hg
    exact h.scan_of_notMem he fun s _ _ hcontra => hkey (mem_of_getElem? hcontra)
  have hopen : ∃ g ∈ t.map, ¬Full g := by
    refine exists_not_full h.size ?_
    rwa [h.slots.length_eq, length_slotsOf]
  obtain ⟨e, g, b, hg, hb, hway, hprobe⟩ := h.placed.probe_of_full (scanGroup t.keys key (aggHash hashOne key))
    (fun g hg hfull => by rw [hscan g hg, firstEmpty_eq_none_iff.2 hfull, Option.map_none])
    (fun g hg hopen => by
      obtain ⟨i, hi⟩ := Option.ne_none_iff_exists'.1 fun h => hopen (firstEmpty_eq_none_iff.1 h)
      exact ⟨.vacant i, by rw [hscan g hg, hi, map_some]⟩)
    hopen (aggHash hashOne key)
  rw [hscan g (mem_of_getElem? hg)] at hb
  obtain ⟨pos, hpos, rfl⟩ := Option.map_eq_some_iff.1 hb
  refine ⟨⟨setSlot t.map e pos (aggHash hashOne key, ks.length % 2 ^ 32), t.mapModBits, ks ++ [key]⟩, ?_,
    length_setSlot _ _ _ _, fun hlt => ?_⟩
  · rw [h.keys] at hprobe
    simp only [Table.upsertOne, h.keys, hprobe, bind_some]
  · refine ⟨rfl, ?_, (length_setSlot _ _ _ _).trans h.length_map, length_of_mem_setSlot h.size _ _ _, ?_, ?_⟩
    · refine nodup_append.2 ⟨h.nodup, nodup_singleton _, ?_⟩
      rintro a ha b hb rfl
      exact hkey (mem_singleton.1 hb ▸ ha)
    · exact h.placed.set hg hpos (aggHash_ne_zero key) hway
    · rw [slotsOf_append, Nat.mod_eq_of_lt hlt]
      exact (entries_setSlot hg hpos (aggHash_ne_zero key)).trans
        ((h.slots.cons _).trans (perm_append_singleton _ _).symm)

end Upsert

/-! ### Batches -/

lemma rehash_spec {map : List (SlotGroup ℕ)} (hslots : (entries map).Perm (slotsOf hashOne ks)) (hnodup : ks.Nodup)
    {bits : ℕ} (hroom : ks.length < 2 ^ bits * 8) (old : ℕ) :
    ∃ t', Table.rehash ⟨map, old, ks⟩ bits = some t' ∧ t'.mapModBits = bits ∧ Filled hashOne t' ks := by
  obtain ⟨map', hfold, hplaced, hlen, hperm, hsize⟩ :=
    (placed_replicate 0 (mod_shl32_lt bits) 8).foldlM_insertEntry (entries map)
      (fun s hs => (mem_entries.1 hs).2)
      (fun g hg => by rw [eq_of_mem_replicate hg])
      (by rwa [entries_replicate, length_nil, zero_add, hslots.length_eq, length_slotsOf, length_replicate])
  rw [entries_replicate, append_nil] at hperm
  rw [length_replicate] at hlen
  refine ⟨⟨map', bits, ks⟩, ?_, rfl, rfl, hnodup, hlen, hsize, hplaced, hperm.trans hslots⟩
  simp only [Table.rehash, emptyGroup, hfold, map_some]

end Filled

def Holds (hashOne : OwnedKey → ℕ) (t : Table) (ks : List OwnedKey) : Prop :=
  (t = Table.default ∧ ks = []) ∨ Filled hashOne t ks

/-- **There is room** for a batch after `reserve`. -/
theorem Holds.reserve_spec (h : Holds hashOne t ks) (n : ℕ) :
    ∃ t', t.reserve n = some t' ∧ Filled hashOne t' ks ∧ ks.length + n < t'.map.length * 8 := by
  have hroom := lt_slots_tableBits (ks.length + n)
  have hslots : t.keys = ks ∧ ks.Nodup ∧ (entries t.map).Perm (slotsOf hashOne ks) := by
    rcases h with ⟨rfl, rfl⟩ | h
    · exact ⟨rfl, .nil, .refl _⟩
    · exact ⟨h.keys, h.nodup, h.slots⟩
  obtain ⟨hkeys, hnodup, hslots⟩ := hslots
  unfold Table.reserve
  rw [hkeys]
  by_cases hgrow : t.mapModBits < tableBits (ks.length + n)
  · obtain ⟨t', ht', hbits, hfilled⟩ := Filled.rehash_spec hslots hnodup
      ((Nat.le_add_right _ n).trans_lt hroom) t.mapModBits
    refine ⟨t', ?_, hfilled, ?_⟩
    · rw [if_pos hgrow, ← ht', ← hkeys]
    · rw [hfilled.length_map, hbits]
      exact hroom
  · rw [if_neg hgrow]
    rcases h with ⟨rfl, rfl⟩ | h
    · exact absurd (tableBits_pos _) hgrow
    · refine ⟨t, rfl, h, hroom.trans_le ?_⟩
      rw [h.length_map]
      exact Nat.mul_le_mul_right 8 (Nat.pow_le_pow_right (by omega) (Nat.le_of_not_lt hgrow))

lemma Filled.upsertOne_spec (h : Filled hashOne t ks) (hroom : ks.length < t.map.length * 8) {key : OwnedKey}
    (hlen : (insertNew ks key).length ≤ 2 ^ 32) :
    ∃ t', t.upsertOne hashOne key = some ((insertNew ks key).idxOf key, t') ∧ t'.map.length = t.map.length ∧
      Filled hashOne t' (insertNew ks key) := by
  by_cases hkey : key ∈ ks
  · rw [insertNew_of_mem hkey] at hlen ⊢
    exact ⟨t, h.upsertOne_of_mem hlen hkey, rfl, h⟩
  · rw [insertNew_of_notMem hkey] at hlen ⊢
    have hlt : ks.length < 2 ^ 32 := by
      rw [length_append, length_singleton] at hlen
      omega
    obtain ⟨t', ht', hmap, hfilled⟩ := h.upsertOne_of_notMem hroom hkey
    refine ⟨t', ?_, hmap, hfilled hlt⟩
    rw [ht', Nat.mod_eq_of_lt hlt, idxOf_append_of_notMem hkey, idxOf_cons_self, add_zero]

/-- **A batch** is numbered by first occurrence. -/
theorem Filled.upsertMany_spec (h : Filled hashOne t ks) {batch : List OwnedKey}
    (hroom : ks.length + batch.length ≤ t.map.length * 8) (hlen : (insertAll ks batch).length ≤ 2 ^ 32) :
    ∃ t', t.upsertMany hashOne batch = some (batch.map fun key => (insertAll ks batch).idxOf key, t') ∧
      t'.map.length = t.map.length ∧ Filled hashOne t' (insertAll ks batch) := by
  induction batch generalizing t ks with
  | nil => exact ⟨t, rfl, rfl, h⟩
  | cons key batch ih =>
    have hpre : insertNew ks key <+: insertAll ks (key :: batch) := prefix_insertAll _ batch
    rw [length_cons] at hroom
    obtain ⟨_, ht1, hmap, h1⟩ := h.upsertOne_spec (by omega) (hpre.length_le.trans hlen)
    have hgrow : (insertNew ks key).length ≤ ks.length + 1 := by
      unfold insertNew
      split
      · omega
      · simp
    obtain ⟨t2, ht2, hmap2, h2⟩ := ih h1 (by rw [hmap]; omega) hlen
    refine ⟨t2, ?_, hmap2.trans hmap, h2⟩
    have hidx : (insertAll ks (key :: batch)).idxOf key = (insertNew ks key).idxOf key := by
      obtain ⟨_, hmore⟩ := hpre
      rw [← hmore, idxOf_append_of_mem (mem_insertNew.2 (.inr rfl))]
    rw [Table.upsertMany, ht1, bind_some, ht2, map_cons, hidx]
    rfl

lemma Holds.upsertRecords_spec {seen batch : List OwnedKey} (h : Holds hashOne t (firsts seen))
    (hlen : (seen ++ batch).dedup.length ≤ 2 ^ 32) :
    ∃ t', t.upsertRecords hashOne batch = some (batch.map (firstIndex (seen ++ batch)), t') ∧
      Holds hashOne t' (firsts (seen ++ batch)) := by
  rw [← length_firsts] at hlen
  obtain ⟨_, ht1, h1, hroom1⟩ := h.reserve_spec batch.length
  rw [firsts_append] at hlen
  obtain ⟨t2, ht2, -, h2⟩ := h1.upsertMany_spec (le_of_lt hroom1) hlen
  rw [← firsts_append] at ht2 h2
  refine ⟨t2, ?_, .inr h2⟩
  rw [Table.upsertRecords, ht1, bind_some, ht2]
  congr 2
  exact map_congr_left fun key hkey => idxOf_firsts (mem_append_right _ hkey)

/-- **A map whose keys have been taken** is as good as new. -/
theorem Holds.takeKeys_spec (h : Holds hashOne t ks) : t.takeKeys.1 = ks ∧ Holds hashOne t.takeKeys.2 [] := by
  rcases h with ⟨rfl, rfl⟩ | h
  · exact ⟨rfl, .inl ⟨rfl, rfl⟩⟩
  · refine ⟨h.keys, .inr ⟨rfl, .nil, ?_, ?_, ?_, ?_⟩⟩
    · exact length_replicate.trans h.length_map
    · intro g hg
      rw [eq_of_mem_replicate hg, emptyGroup, length_replicate]
    · exact placed_replicate 0 h.placed.home_lt 8
    · rw [Table.takeKeys, emptyGroup, entries_replicate]
      exact .refl _

end Hash

/-! ### Whole runs -/

inductive Op where
  | upsertRecords (keys : List OwnedKey)
  | takeKeys

inductive Out where
  | indices (idxs : List ℕ)
  | keys (keys : List OwnedKey)
deriving DecidableEq

def Table.call (hashOne : OwnedKey → ℕ) (t : Table) : Op → Option (Out × Table)
  | .upsertRecords keys => (t.upsertRecords hashOne keys).map fun r => (.indices r.1, r.2)
  | .takeKeys => some (.keys t.takeKeys.1, t.takeKeys.2)

def Table.calls (hashOne : OwnedKey → ℕ) (t : Table) : List Op → Option (List Out × Table)
  | [] => some ([], t)
  | op :: ops => (t.call hashOne op).bind fun r => (r.2.calls hashOne ops).map fun rs => (r.1 :: rs.1, rs.2)

def seenAfter (seen : List OwnedKey) : List Op → List OwnedKey
  | [] => seen
  | .upsertRecords keys :: ops => seenAfter (seen ++ keys) ops
  | .takeKeys :: ops => seenAfter [] ops

/-- What the calls are to return: the numbers of the keys by first occurrence, and the keys at their numbers. -/
def numbering (seen : List OwnedKey) : List Op → List Out
  | [] => []
  | .upsertRecords keys :: ops => .indices (keys.map (firstIndex (seen ++ keys))) :: numbering (seen ++ keys) ops
  | .takeKeys :: ops => .keys (firsts seen) :: numbering [] ops

/-- The numbers are 32 bits wide. -/
def Within (seen : List OwnedKey) : List Op → Prop
  | [] => True
  | .upsertRecords keys :: ops => (seen ++ keys).dedup.length ≤ 2 ^ 32 ∧ Within (seen ++ keys) ops
  | .takeKeys :: ops => Within [] ops

lemma Holds.calls_spec {hashOne : OwnedKey → ℕ} {ops : List Op} {t : Table} {seen : List OwnedKey}
    (h : Holds hashOne t (firsts seen)) (hwithin : Within seen ops) :
    ∃ t', t.calls hashOne ops = some (numbering seen ops, t') ∧ Holds hashOne t' (firsts (seenAfter seen ops)) := by
  induction ops generalizing t seen with
  | nil => exact ⟨t, rfl, h⟩
  | cons op ops ih =>
    cases op with
    | upsertRecords keys =>
      obtain ⟨hlen, hwithin⟩ := hwithin
      obtain ⟨_, ht1, h1⟩ := h.upsertRecords_spec hlen
      obtain ⟨t2, ht2, h2⟩ := ih h1 hwithin
      refine ⟨t2, ?_, h2⟩
      rw [Table.calls, Table.call, ht1, map_some, bind_some, ht2]
      rfl
    | takeKeys =>
      obtain ⟨hkeys, h1⟩ := h.takeKeys_spec
      have hnew : Holds hashOne t.takeKeys.2 (firsts []) := h1
      obtain ⟨t2, ht2, h2⟩ := ih hnew hwithin
      refine ⟨t2, ?_, h2⟩
      rw [Table.calls, Table.call, bind_some, ht2, hkeys]
      rfl

/-- **The map numbers keys by first occurrence**, for any hash function and any calls, as long as there are at most 2³²
keys: every call ends; an upsert returns the number of distinct keys before the first occurrence of each key since the
keys were last taken, and taking the keys returns each key at its number. -/
theorem calls_number_by_first_occurrence (hashOne : OwnedKey → ℕ) (ops : List Op) (hwithin : Within [] ops) :
    (∃ t, Table.default.calls hashOne ops = some (numbering [] ops, t) ∧ t.intoKeys = firsts (seenAfter [] ops)) ∧
      (∀ (seen : List OwnedKey) key i, (firsts seen)[i]? = some key ↔ key ∈ seen ∧ firstIndex seen key = i) ∧
      ∀ (seen more : List OwnedKey) key, key ∈ seen → firstIndex (seen ++ more) key = firstIndex seen key := by
  refine ⟨?_, fun seen key i => getElem?_firsts_iff, fun seen more key hkey => firstIndex_append hkey more⟩
  have hnew : Holds hashOne Table.default (firsts []) := .inl ⟨rfl, rfl⟩
  obtain ⟨t, ht, hholds⟩ := hnew.calls_spec hwithin
  refine ⟨t, ht, ?_⟩
  rcases hholds with ⟨rfl, hnil⟩ | hfilled
  · rw [hnil]
    rfl
  · exact hfilled.keys

/-- Two batches with keys in common, whose hashes all collide. -/
theorem calls_number_by_first_occurrence_two :
    ∃ t, Table.default.calls (fun _ => 0) [.upsertRecords [[7], [], [7]], .upsertRecords [[9], []], .takeKeys] =
      some ([.indices [0, 1, 0], .indices [2, 1], .keys [[7], [], [9]]], t) := by
  obtain ⟨⟨t, ht, -⟩, -⟩ := calls_number_by_first_occurrence (fun _ => 0)
    [.upsertRecords [[7], [], [7]], .upsertRecords [[9], []], .takeKeys]
    ⟨by decide, by decide, trivial⟩
  exact ⟨t, ht⟩

lemma Table.upsertMany_append {hashOne : OwnedKey → ℕ} {keys more : List OwnedKey} {t t1 t2 : Table}
    {idxs idxs' : List ℕ} (h : t.upsertMany hashOne keys = some (idxs, t1))
    (h' : t1.upsertMany hashOne more = some (idxs', t2)) :
    t.upsertMany hashOne (keys ++ more) = some (idxs ++ idxs', t2) := by
  induction keys generalizing t idxs with
  | nil =>
    obtain ⟨rfl, rfl⟩ := Prod.mk.inj (Option.some.inj h)
    exact h'
  | cons key keys ih =>
    obtain ⟨r, hr, h⟩ := Option.bind_eq_some_iff.1 h
    obtain ⟨_, hrs, heq⟩ := Option.map_eq_some_iff.1 h
    obtain ⟨rfl, rfl⟩ := Prod.mk.inj heq
    rw [cons_append, upsertMany, hr, bind_some, ih hrs]
    rfl

lemma upsertRecords_wraps (hashOne : OwnedKey → ℕ) {ks : List OwnedKey} {key : OwnedKey} (hnodup : (ks ++ [key]).Nodup)
    (hlen : ks.length = 2 ^ 32) :
    ∃ t, Table.default.upsertRecords hashOne (ks ++ [key]) = some (ks.map (ks.idxOf ·) ++ [0], t) := by
  have hfirsts : insertAll [] ks = ks := by
    have hall : ([] ++ ks).Nodup := (nodup_append.1 hnodup).1
    exact insertAll_of_nodup hall
  have hkey : key ∉ ks := fun hkey => (nodup_append.1 hnodup).2.2 key hkey key mem_cons_self rfl
  have hall : (ks ++ [key]).length = 2 ^ 32 + 1 := by
    rw [length_append, hlen, length_singleton]
  have hnew : Holds hashOne Table.default [] := .inl ⟨rfl, rfl⟩
  obtain ⟨t1, ht1, h1, _⟩ := hnew.reserve_spec (ks ++ [key]).length
  have hroom1 : ([] : List OwnedKey).length + ks.length ≤ t1.map.length * 8 := by
    rw [hlen]
    omega
  obtain ⟨t2, ht2, hmap, h2⟩ := h1.upsertMany_spec hroom1 (by rw [hfirsts, hlen])
  rw [hfirsts] at ht2 h2
  obtain ⟨t3, ht3, -⟩ := h2.upsertOne_of_notMem (by rw [hmap]; omega) hkey
  rw [hlen] at ht3
  have hlast : t2.upsertMany hashOne [key] = some ([0], t3) := by
    rw [Table.upsertMany, ht3]
    rfl
  refine ⟨t3, ?_⟩
  rw [Table.upsertRecords, ht1]
  exact Table.upsertMany_append ht2 hlast

/-- Keys of at most five bytes. -/
def lenKeys (n : ℕ) : List OwnedKey := (range n).map writeLen

lemma nodup_lenKeys (n : ℕ) : (lenKeys n).Nodup := by
  refine nodup_range.map fun i j hij => ?_
  have hread := (readLen_writeLen i []).symm.trans (hij ▸ readLen_writeLen j [])
  exact (Prod.mk.inj (Except.ok.inj hread)).1

/-- **The key behind 2³² others shares the number of the first one.** -/
theorem first_and_last_share_index :
    ∃ idxs t, Table.default.upsertRecords (fun _ => 0) (lenKeys (2 ^ 32) ++ [[]]) = some (idxs ++ [0], t) ∧
      idxs[0]? = some 0 ∧ (lenKeys (2 ^ 32))[0]? = some (writeLen 0) := by
  have hnodup : (lenKeys (2 ^ 32) ++ [[]]).Nodup := by
    refine nodup_append.2 ⟨nodup_lenKeys _, nodup_singleton _, ?_⟩
    rintro a ha b hb rfl
    obtain ⟨i, -, hi⟩ := mem_map.1 ha
    exact writeLen_ne_nil i (hi.trans (mem_singleton.1 hb))
  have hlen : (lenKeys (2 ^ 32)).length = 2 ^ 32 := by
    rw [lenKeys, List.length_map, length_range]
  obtain ⟨t, ht⟩ := upsertRecords_wraps (fun _ => 0) hnodup hlen
  refine ⟨_, t, ht, ?_⟩
  generalize hn : 2 ^ 32 = n
  obtain ⟨m, rfl⟩ : ∃ m, n = m + 1 := ⟨n - 1, by omega⟩
  rw [lenKeys, range_succ_eq_map, map_cons]
  exact ⟨by simp, rfl⟩

end Auron.Agg
