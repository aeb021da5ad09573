import Auron.Io.BatchRoundTrip
import Auron.Joins.JoinHashMap

/-!
# The hash table of the hash joins, written and read back (`joins/join_hash_map.rs`)

The groups are written as they lie in memory: the eight hashes of a group, then its eight values, as little-endian words.
The other numbers are written with `write_len`.  A table whose numbers fit their types reads back as it was
(`parses_readFrom`), so lookups in it are as exact as in the table that was built.
-/

namespace Auron.Joins

open Auron.Lib Auron.Io Auron.Io.BatchSerde List

namespace Table

/-- The memory of a `MapValueGroup`. -/
def groupBytes (g : SlotGroup MapValue) : Bytes :=
  (g.map fun s => UInt32.ofNat s.1).flatMap le32 ++ (g.map fun s => UInt32.ofNat s.2.bits).flatMap le32

def writeTo (t : Table) : Bytes :=
  writeLen t.numValidItems ++ (writeLen t.mapModBits ++ (t.map.flatMap groupBytes ++
    (writeLen t.mappedIndices.length ++ t.mappedIndices.flatMap writeLen)))

def groupOf (bytes : Bytes) : SlotGroup MapValue :=
  zipWith (fun h v => (h.toNat, ⟨v.toNat⟩)) (le32s (bytes.take 32)) (le32s (bytes.drop 32))

def groupsOf : ℕ → Bytes → List (SlotGroup MapValue)
  | 0, _ => []
  | n + 1, bytes => groupOf (bytes.take 64) :: groupsOf n (bytes.drop 64)

/-- The numbers of `mapped_indices`, as `u32`. -/
def readIndices : ℕ → ReadBytes (List ℕ)
  | 0 => pure []
  | n + 1 => do
    let v ← readLen
    let rest ← readIndices n
    pure (v % 2 ^ 32 :: rest)

/-- `read_from`; the shift that gives the number of groups wraps. -/
def readFrom : ReadBytes Table := do
  let numValidItems ← readLen
  let mapModBits ← readLen
  let mapModBits := mapModBits % 2 ^ 32
  let numGroups := 2 ^ (mapModBits % 64)
  let raw ← Reads.exact (64 * numGroups)
  let mappedIndicesLen ← readLen
  let mappedIndices ← readIndices mappedIndicesLen
  pure ⟨numValidItems, mapModBits, groupsOf numGroups raw, mappedIndices⟩

lemma length_groupBytes {g : SlotGroup MapValue} (h : g.length = 8) : (groupBytes g).length = 64 := by
  rw [groupBytes, length_append, length_flatMap_le32, length_flatMap_le32, length_map, length_map, h]

lemma groupOf_groupBytes {g : SlotGroup MapValue} (hlen : g.length = 8)
    (hlt : ∀ s ∈ g, s.1 < 2 ^ 32 ∧ s.2.bits < 2 ^ 32) : groupOf (groupBytes g) = g := by
  have hhashes : ((g.map fun s => UInt32.ofNat s.1).flatMap le32).length = 32 := by
    rw [length_flatMap_le32, length_map, hlen]
  rw [groupOf, groupBytes, take_left' hhashes, drop_left' hhashes, le32s_flatMap, le32s_flatMap,
    zipWith_map, zipWith_self]
  conv_rhs => rw [← map_id g]
  refine map_congr_left fun s hs => ?_
  obtain ⟨hhash, hbits⟩ := hlt s hs
  rw [UInt32.toNat_ofNat_of_lt' hhash, UInt32.toNat_ofNat_of_lt' hbits]
  rfl

lemma groupsOf_flatMap {map : List (SlotGroup MapValue)} (hlen : ∀ g ∈ map, g.length = 8)
    (hlt : ∀ g ∈ map, ∀ s ∈ g, s.1 < 2 ^ 32 ∧ s.2.bits < 2 ^ 32) :
    (map.flatMap groupBytes).length = 64 * map.length ∧ groupsOf map.length (map.flatMap groupBytes) = map := by
  induction map with
  | nil => exact ⟨rfl, rfl⟩
  | cons g map ih =>
    rw [forall_mem_cons] at hlen hlt
    obtain ⟨_, hgroups⟩ := ih hlen.2 hlt.2
    have hg := length_groupBytes hlen.1
    refine ⟨?_, ?_⟩
    · rw [flatMap_cons, length_append, length_cons]
      omega
    · rw [length_cons, groupsOf, flatMap_cons, take_left' hg, drop_left' hg, hgroups,
        groupOf_groupBytes hlen.1 hlt.1]

lemma parses_readIndices {idxs : List ℕ} (h : ∀ x ∈ idxs, x < 2 ^ 31) :
    (readIndices idxs.length).Parses (idxs.flatMap writeLen) idxs := by
  induction idxs with
  | nil => exact .pure _
  | cons x idxs ih =>
    rw [forall_mem_cons] at h
    refine (parses_readLen (by omega)).bind ((ih h.2).bind_last ?_)
    rw [Nat.mod_eq_of_lt (by omega)]
    exact .pure _

/-- **A table reads back.** -/
theorem parses_readFrom {t : Table} (h : t.Small) : readFrom.Parses t.writeTo t := by
  obtain ⟨_, _, hlen, hsize, hslots, _, hidx⟩ := h
  obtain ⟨hbytes, hgroups⟩ := groupsOf_flatMap hsize hslots
  have hraw : (Reads.exact (64 * 2 ^ t.mapModBits) : ReadBytes Bytes).Parses (t.map.flatMap groupBytes)
      (t.map.flatMap groupBytes) := by
    rw [← hlen, ← hbytes]
    exact .exact _
  refine (parses_readLen (by omega)).bind ((parses_readLen (by omega)).bind ?_)
  simp only [Nat.mod_eq_of_lt (show t.mapModBits < 2 ^ 32 by omega), Nat.mod_eq_of_lt (show t.mapModBits < 64 by omega)]
  refine hraw.bind ((parses_readLen (by omega)).bind ((parses_readIndices hidx).bind_last ?_))
  rw [← hlen, hgroups]
  exact .pure _

/-- **Lookups are exact.**  For fewer than 2³⁰ rows, whatever rows are valid and whatever their hashes are, the table is
built; looking up hashes in it, or in the table that is read back from its bytes, ends with a value for each: the empty one
for a hash of no valid row, the row for a hash of one, and otherwise a range that holds the rows of the hash, ascending. -/
theorem lookupMany_exact (keyIsValid : ℕ → Bool) (hashes : List ℕ) (hlen : hashes.length < 2 ^ 30)
    (hhash : ∀ h ∈ hashes, h ≠ 0 ∧ h < 2 ^ 32) :
    ∃ t, create keyIsValid hashes = some t ∧ t.mappedIndices.length < 2 ^ 31 ∧ (∀ x ∈ t.mappedIndices, x < 2 ^ 31) ∧
      (∀ e rest, readFrom.run (Source.list e) (t.writeTo ++ rest) = .ok (t, rest)) ∧
      ∀ hs : List ℕ, (∀ h ∈ hs, h ≠ 0) → ∃ vs, t.lookupMany hs = some vs ∧
        Forall₂ (fun h v => v.Encodes t.mappedIndices (rowsOf keyIsValid hashes h)) hs vs := by
  obtain ⟨t, ht, -, hsmall, hlookup⟩ := create_spec keyIsValid hashes hlen fun h hh => (hhash h hh).1
  have hsmall := hsmall fun h hh => (hhash h hh).2
  refine ⟨t, ht, hsmall.length_mappedIndices, hsmall.mappedIndices_lt, parses_readFrom hsmall, fun hs hne => ?_⟩
  induction hs with
  | nil => exact ⟨[], rfl, .nil⟩
  | cons h hs ih =>
    rw [forall_mem_cons] at hne
    obtain ⟨v, hv, hencodes⟩ := hlookup h hne.1
    obtain ⟨vs, hvs, hall⟩ := ih hne.2
    refine ⟨v :: vs, ?_, .cons hencodes hall⟩
    rw [lookupMany] at hvs
    rw [lookupMany, collect, hv, hvs]

/-- Three rows, two of one hash; the hash of the second row gives that row. -/
theorem lookupMany_exact_three :
    ∃ t v, create (fun _ => true) [5, 7, 5] = some t ∧ t.lookupMany [7] = some [v] ∧
      v.isSingle = true ∧ v.getSingle = 1 := by
  obtain ⟨t, ht, -, -, -, hlookup⟩ := lookupMany_exact (fun _ => true) [5, 7, 5] (by decide) (by decide)
  obtain ⟨_, hvs, hall⟩ := hlookup [7] (by decide)
  obtain ⟨v, _, hv, hrest, rfl⟩ := forall₂_cons_left_iff.1 hall
  obtain rfl := forall₂_nil_left_iff.1 hrest
  exact ⟨t, v, ht, hvs, (hv.single_iff 1).2 (by decide)⟩

end Table

end Auron.Joins
