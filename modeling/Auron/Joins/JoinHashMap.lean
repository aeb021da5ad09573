import Auron.Joins.Params
import Auron.Lib.Chunks
import Auron.Lib.Gather
import Auron.Lib.OpenAddressing

/-!
# The hash table of the hash joins (`joins/join_hash_map.rs`)

The table maps a hash to the build rows with that hash.  A value is packed into 32 bits: a single row index with the top
bit set, or the start of a range in `mappedIndices`, whose length stands before it.  Rows with a null key are left out.

`create` sorts the valid rows by hash, packs each chunk of equal hashes and puts it into groups of eight slots.
`Table.create_spec` is what the joins rely on: whatever the hashes collide on, looking up a hash gives exactly the valid rows
with that hash.

A function returns `none` where the source panics, or would not end.
-/

namespace Auron.Joins

open Auron.Lib List

/-! ### Packed values -/

/-- `MapValue`: 32 bits. -/
structure MapValue where
  bits : ℕ
  deriving DecidableEq, Repr

namespace MapValue

def empty : MapValue := ⟨0⟩

def newSingle (idx : ℕ) : MapValue := ⟨2 ^ 31 ||| idx⟩

def newRange (start : ℕ) : MapValue := ⟨start⟩

section Bits

variable (v : MapValue)

def isEmpty : Bool := v.bits == 0

def isSingle : Bool := v.bits >>> 31 == 1

def isRange : Bool := v.bits >>> 31 == 0 && !v.isEmpty

def getSingle : ℕ := v.bits &&& (2 ^ 31 - 1)

/-- `get_range`: the row indexes at `start`, as many as the length before them says. -/
def getRange (mappedIndices : List ℕ) : Option (List ℕ) := do
  let start := v.bits
  let len ← mappedIndices[start - 1]?
  if start + len ≤ mappedIndices.length then some ((mappedIndices.drop start).take len) else none

end Bits

/-- The row indexes a value stands for: how the joiners read it. -/
def rows (mappedIndices : List ℕ) (v : MapValue) : Option (List ℕ) :=
  if v.isSingle then some [v.getSingle] else if v.isRange then v.getRange mappedIndices else some []

lemma bits_newSingle {idx : ℕ} (h : idx < 2 ^ 31) : (newSingle idx).bits = 2 ^ 31 + idx := by
  have := Nat.two_pow_add_eq_or_of_lt h 1
  exact this.symm

/-- The value is the one of a list of rows: the three kinds of values are not confused. -/
structure Encodes (mappedIndices rows : List ℕ) (v : MapValue) : Prop where
  empty_iff : v.isEmpty = true ↔ rows = []
  single_iff : ∀ i, v.isSingle = true ∧ v.getSingle = i ↔ rows = [i]
  range_iff : v.isRange = true ↔ 2 ≤ rows.length
  range : v.isRange = true → v.getRange mappedIndices = some rows
  bits_lt : v.bits < 2 ^ 32

lemma encodes_empty (mappedIndices : List ℕ) : Encodes mappedIndices [] empty where
  empty_iff := by decide
  single_iff := by simp [isSingle, empty]
  range_iff := by decide
  range h := by cases h
  bits_lt := by decide

lemma encodes_newSingle (mappedIndices : List ℕ) {idx : ℕ} (h : idx < 2 ^ 31) :
    Encodes mappedIndices [idx] (newSingle idx) := by
  have hbits := bits_newSingle h
  have hshift : (newSingle idx).bits >>> 31 = 1 := by
    omega
  have hget : (newSingle idx).getSingle = idx := by
    unfold getSingle
    rw [Nat.and_two_pow_sub_one_eq_mod]
    omega
  have hrange : (newSingle idx).isRange = false := by
    rw [isRange, hshift]
    rfl
  refine ⟨?_, fun i => ?_, ?_, ?_, by omega⟩
  · rw [isEmpty, hbits]
    simp
  · rw [isSingle, hshift, hget]
    simp
  · simp [hrange]
  · simp [hrange]

lemma encodes_newRange (mappedIndices idxs rest : List ℕ) (h : mappedIndices.length + 1 < 2 ^ 31)
    (hidxs : 2 ≤ idxs.length) :
    Encodes (mappedIndices ++ idxs.length :: idxs ++ rest) idxs (newRange (mappedIndices.length + 1)) := by
  have hbits : (newRange (mappedIndices.length + 1)).bits = mappedIndices.length + 1 := rfl
  have hshift : (newRange (mappedIndices.length + 1)).bits >>> 31 = 0 := by
    omega
  have hempty : (newRange (mappedIndices.length + 1)).isEmpty = false := by
    simp [isEmpty, newRange]
  have hrange : (newRange (mappedIndices.length + 1)).isRange = true := by
    rw [isRange, hshift]
    rfl
  refine ⟨?_, fun i => ?_, ?_, fun _ => ?_, ?_⟩
  · rw [hempty]
    simp only [Bool.false_eq_true, false_iff]
    rintro rfl
    simp at hidxs
  · rw [isSingle, hshift]
    simp only [Nat.reduceBEq, Bool.false_eq_true, false_and, false_iff]
    rintro rfl
    simp at hidxs
  · simp [hrange, hidxs]
  · simp [getRange, newRange]
    omega
  · rw [hbits]
    omega

lemma Encodes.rows_eq {mappedIndices idxs : List ℕ} {v : MapValue} (h : Encodes mappedIndices idxs v) :
    v.rows mappedIndices = some idxs := by
  unfold rows
  by_cases hsingle : v.isSingle = true
  · rw [if_pos hsingle, (h.single_iff v.getSingle).1 ⟨hsingle, rfl⟩]
  · rw [if_neg hsingle]
    by_cases hrange : v.isRange = true
    · rw [if_pos hrange, h.range hrange]
    · rw [if_neg hrange]
      match idxs, h with
      | [], _ => rfl
      | [i], h => exact absurd ((h.single_iff i).2 rfl).1 hsingle
      | i :: j :: l, h => exact absurd (h.range_iff.2 (by simp)) hrange

end MapValue

/-! ### The table -/

structure Table where
  numValidItems : ℕ
  mapModBits : ℕ
  /-- `1 << map_mod_bits` groups. -/
  map : List (SlotGroup MapValue)
  mappedIndices : List ℕ

namespace Table

def itemLe (a b : ℕ × ℕ) : Bool := a.1 < b.1 || (a.1 == b.1 && a.2 ≤ b.2)

def validItems (keyIsValid : ℕ → Bool) (hashes : List ℕ) : List (ℕ × ℕ) :=
  hashes.zipIdx.filter fun item => keyIsValid item.2

/-- One chunk of rows with equal hash: extends `mapped_indices` and the map items. -/
def addChunk (acc : List ℕ × List (ℕ × MapValue)) (chunk : List (ℕ × ℕ)) : List ℕ × List (ℕ × MapValue) :=
  let hash := (chunk.head?.map Prod.fst).getD 0
  let pos := acc.1.length
  let mapped := acc.1 ++ 0 :: chunk.map Prod.snd
  let start := pos + 1
  let len := mapped.length - start
  let mapped := mapped.set pos len
  if len = 1 then (mapped.dropLast.dropLast, acc.2 ++ [(hash, .newSingle (mapped.getLast?.getD 0))])
  else (mapped, acc.2 ++ [(hash, .newRange start)])

def create (keyIsValid : ℕ → Bool) (hashes : List ℕ) : Option Table := do
  if hashes.length < 1073741824 then
    let items := validItems keyIsValid hashes
    let (mappedIndices, mapItems) := (chunkBy Prod.fst (items.mergeSort itemLe)).foldl addChunk ([], [])
    let mapModBits := tableBits mapItems.length
    let map ← mapItems.foldlM (insertEntry (· % 2 ^ mapModBits))
      (replicate (2 ^ mapModBits) (replicate 8 (0, MapValue.empty)))
    some ⟨items.length, mapModBits, map, mappedIndices⟩
  else none

/-- `(hash_matched | empty).first_set()`: the value of the first slot of a group that has the hash or is empty. -/
def matchedOrEmpty (hash : ℕ) (g : SlotGroup MapValue) : Option MapValue :=
  (g.find? fun s => s.1 == hash || s.1 == 0).map Prod.snd

def lookup (t : Table) (hash : ℕ) : Option MapValue :=
  (probe (matchedOrEmpty hash) t.map t.map.length (hash % 2 ^ t.mapModBits)).map Prod.snd

def lookupMany (t : Table) (hashes : List ℕ) : Option (List MapValue) := collect t.lookup hashes

/-! ### Packing -/

lemma addChunk_single (m : List ℕ) (its : List (ℕ × MapValue)) (h i : ℕ) :
    addChunk (m, its) [(h, i)] = (m, its ++ [(h, .newSingle i)]) := by
  simp [addChunk]

lemma addChunk_range (m : List ℕ) (its : List (ℕ × MapValue)) (a b : ℕ × ℕ) (c : List (ℕ × ℕ)) :
    addChunk (m, its) (a :: b :: c) =
      (m ++ (a :: b :: c).length :: (a :: b :: c).map Prod.snd, its ++ [(a.1, .newRange (m.length + 1))]) := by
  have hlen : m.length + (c.length + 1 + 1 + 1) - (m.length + 1) = c.length + 1 + 1 := by omega
  simp [addChunk, hlen]

structure Packed (mappedIndices : List ℕ) (chunk : List (ℕ × ℕ)) (item : ℕ × MapValue) : Prop where
  hash : ∀ a ∈ chunk, a.1 = item.1
  encodes : item.2.Encodes mappedIndices (chunk.map Prod.snd)

/-- **The chunks are packed**, each index into less than one and a half places, all below 2³¹. -/
theorem foldl_addChunk (chunks : List (List (ℕ × ℕ))) (hne : ∀ c ∈ chunks, c ≠ [])
    (hkey : ∀ c ∈ chunks, ∀ a ∈ c, ∀ b ∈ c, a.1 = b.1) (hidx : ∀ c ∈ chunks, ∀ a ∈ c, a.2 < 2 ^ 31) (m : List ℕ)
    (its : List (ℕ × MapValue)) (hm : ∀ x ∈ m, x < 2 ^ 31)
    (hbound : 2 * m.length + 3 * chunks.flatten.length ≤ 3 * 2 ^ 30) :
    ∃ m' its', chunks.foldl addChunk (m, its) = (m', its ++ its') ∧ m <+: m' ∧
      Forall₂ (Packed m') chunks its' ∧ (∀ x ∈ m', x < 2 ^ 31) ∧ 2 * m'.length ≤ 3 * 2 ^ 30 := by
  induction chunks generalizing m its with
  | nil => exact ⟨m, [], by simp, prefix_rfl, .nil, hm, by simpa using hbound⟩
  | cons c chunks ih =>
    rw [forall_mem_cons] at hne hkey hidx
    have hrec := ih hne.2 hkey.2 hidx.2
    rw [flatten_cons, length_append] at hbound
    match c, hne.1 with
    | [a], _ =>
      obtain ⟨m', its', hfold, hpre, hpacked, hsmall⟩ := hrec m (its ++ [(a.1, .newSingle a.2)]) hm
        (by rw [length_singleton] at hbound; omega)
      refine ⟨m', (a.1, .newSingle a.2) :: its', ?_, hpre, .cons ⟨by simp, ?_⟩ hpacked, hsmall⟩
      · rw [foldl_cons, addChunk_single, hfold, append_assoc]
        rfl
      · exact MapValue.encodes_newSingle m' (hidx.1 a mem_cons_self)
    | a :: b :: c, _ =>
      have hm' : ∀ x ∈ m ++ (a :: b :: c).length :: (a :: b :: c).map Prod.snd, x < 2 ^ 31 := by
        intro x hx
        rcases mem_append.1 hx with hx | hx
        · exact hm x hx
        · rcases mem_cons.1 hx with rfl | hx
          · omega
          · obtain ⟨z, hz, rfl⟩ := mem_map.1 hx
            exact hidx.1 z hz
      obtain ⟨m', its', hfold, ⟨_, hmore⟩, hpacked, hsmall⟩ :=
        hrec (m ++ (a :: b :: c).length :: (a :: b :: c).map Prod.snd) (its ++ [(a.1, .newRange (m.length + 1))]) hm' (by
          simp only [length_append, length_cons, List.length_map] at hbound ⊢
          omega)
      refine ⟨m', (a.1, .newRange (m.length + 1)) :: its', ?_, ?_, .cons ⟨?_, ?_⟩ hpacked, hsmall⟩
      · rw [foldl_cons, addChunk_range, hfold, append_assoc]
        rfl
      · rw [← hmore, append_assoc]
        exact prefix_append _ _
      · intro z hz
        exact hkey.1 z hz a mem_cons_self
      · rw [← hmore]
        have hlen : (a :: b :: c).length = ((a :: b :: c).map Prod.snd).length := (List.length_map _).symm
        rw [hlen]
        refine MapValue.encodes_newRange _ _ _ (by omega) ?_
        simp

/-! ### Searching -/

lemma matchedOrEmpty_eq_none_iff {hash : ℕ} {g : SlotGroup MapValue} :
    matchedOrEmpty hash g = none ↔ ∀ s ∈ g, s.1 ≠ hash ∧ s.1 ≠ 0 := by
  simp [matchedOrEmpty]

/-- **A hash is found** if it is there, and the empty value otherwise. -/
theorem lookup_spec (t : Table) (hp : Placed (· % 2 ^ t.mapModBits) MapValue.empty t.map)
    (hnd : ((entries t.map).map Prod.fst).Nodup) (hopen : ∃ g ∈ t.map, ¬Full g) {hash : ℕ} (hne : hash ≠ 0) :
    (∀ v, (hash, v) ∈ entries t.map → t.lookup hash = some v) ∧
    ((∀ v, (hash, v) ∉ entries t.map) → t.lookup hash = some .empty) := by
  unfold lookup
  constructor
  · intro v hv
    obtain ⟨⟨e, g, hg, hs⟩, -⟩ := mem_entries.1 hv
    have hfind : g.find? (fun s => s.1 == hash || s.1 == 0) = some (hash, v) := by
      obtain ⟨i, hi⟩ := getElem?_of_mem hs
      cases hf : g.find? (fun s => s.1 == hash || s.1 == 0) with
      | none => exact absurd (find?_eq_none.1 hf _ hs) (by simp)
      | some s =>
        -- the first match is not empty, for the slots before an occupied one are occupied
        obtain ⟨hmatch, pre, _, heq, hbefore⟩ := find?_eq_some_iff_append.1 hf
        have hsg : s ∈ g := by simp [heq]
        have hs0 : s.1 ≠ 0 := by
          have hle : pre.length ≤ i := by
            by_contra hlt
            have hmem : (hash, v) ∈ pre := by
              rw [heq, getElem?_append_left (by omega)] at hi
              exact mem_of_getElem? hi
            simpa using hbefore _ hmem
          exact hp.front g (mem_of_getElem? hg) pre.length i s (hash, v) hle (by simp [heq]) hi hne
        have hhash : s.1 = hash := by simpa [hs0] using hmatch
        have hse : s ∈ entries t.map := mem_entries.2 ⟨⟨e, g, hg, hsg⟩, hs0⟩
        exact congrArg some (inj_on_of_nodup_map hnd hse hv hhash)
    have hprobe := hp.probe_of_mem (matchedOrEmpty hash) hg hs hne (by rw [matchedOrEmpty, hfind]; rfl)
      fun _ _ hee hg' hfull => matchedOrEmpty_eq_none_iff.2 fun s hs' =>
        ⟨ne_of_nodup_entries hnd hee hg' hg hs' hs (hfull s hs') hne, hfull s hs'⟩
    rw [hprobe]
    rfl
  · intro habsent
    have hno : ∀ g ∈ t.map, ∀ s ∈ g, s.1 ≠ 0 → s.1 ≠ hash := by
      rintro g hg s hs hs0 rfl
      obtain ⟨e, he⟩ := getElem?_of_mem hg
      exact habsent s.2 (mem_entries.2 ⟨⟨e, g, he, hs⟩, hs0⟩)
    obtain ⟨e, g, b, hg, hb, -, hprobe⟩ := hp.probe_of_full (matchedOrEmpty hash)
      (fun g hg hfull => matchedOrEmpty_eq_none_iff.2 fun s hs => ⟨hno g hg s hs (hfull s hs), hfull s hs⟩)
      (fun g hg hng => Option.ne_none_iff_exists'.1 fun hnone =>
        hng fun s hs => (matchedOrEmpty_eq_none_iff.1 hnone s hs).2)
      hopen hash
    rw [hprobe]
    obtain ⟨s, hs, rfl⟩ := Option.map_eq_some_iff.1 hb
    have hsg : s ∈ g := mem_of_find?_eq_some hs
    have hs0 : s.1 = 0 := by
      have hmatch := find?_some hs
      by_contra hs0
      exact hno g (mem_of_getElem? hg) s hsg hs0 (by simpa [hs0] using hmatch)
    exact congrArg some (hp.default g (mem_of_getElem? hg) s hsg hs0)

/-! ### The table of a build side -/

lemma itemLe_iff {a b : ℕ × ℕ} : itemLe a b = true ↔ a.1 < b.1 ∨ a.1 = b.1 ∧ a.2 ≤ b.2 := by
  simp [itemLe]

lemma pairwise_itemLe (items : List (ℕ × ℕ)) : (items.mergeSort itemLe).Pairwise fun a b => itemLe a b = true :=
  pairwise_mergeSort
    (by
      intro a b c
      simp only [itemLe_iff]
      omega)
    (by
      intro a b
      simp only [Bool.or_eq_true, itemLe_iff]
      omega) items

lemma pairwise_sorted (items : List (ℕ × ℕ)) : (items.mergeSort itemLe).Pairwise fun a b => a.1 ≤ b.1 := by
  refine (pairwise_itemLe items).imp fun {a b} hab => ?_
  rw [itemLe_iff] at hab
  omega

lemma pairwise_of_packed {mapped : List ℕ} {chunks : List (List (ℕ × ℕ))} {its : List (ℕ × MapValue)}
    (hpacked : Forall₂ (Packed mapped) chunks its) (hne : ∀ c ∈ chunks, c ≠ [])
    (hpair : chunks.Pairwise fun c c' => ∀ a ∈ c, ∀ b ∈ c', a.1 < b.1) : (its.map Prod.fst).Pairwise (· < ·) := by
  induction hpacked with
  | nil => exact .nil
  | @cons c s chunks its hc hrest ih =>
    rw [forall_mem_cons] at hne
    rw [pairwise_cons] at hpair
    rw [map_cons, pairwise_cons]
    refine ⟨?_, ih hne.2 hpair.2⟩
    intro h hh
    obtain ⟨_, hs', rfl⟩ := mem_map.1 hh
    obtain ⟨c', hc', hpc'⟩ := exists_left_of_forall₂ hrest hs'
    obtain ⟨a, c, rfl⟩ := exists_cons_of_ne_nil hne.1
    obtain ⟨b, c', rfl⟩ := exists_cons_of_ne_nil (hne.2 c' hc')
    rw [← hc.hash a mem_cons_self, ← hpc'.hash b mem_cons_self]
    exact hpair.1 _ hc' a mem_cons_self b mem_cons_self

lemma mem_validItems {keyIsValid : ℕ → Bool} {hashes : List ℕ} {a : ℕ × ℕ} (ha : a ∈ validItems keyIsValid hashes) :
    hashes[a.2]? = some a.1 ∧ keyIsValid a.2 = true := by
  rw [validItems, mem_filter, mk_mem_zipIdx_iff_getElem?] at ha
  exact ha

def rowsOf (keyIsValid : ℕ → Bool) (hashes : List ℕ) (h : ℕ) : List ℕ :=
  ((validItems keyIsValid hashes).filter fun a => a.1 = h).map Prod.snd

lemma rowsOf_pairwise (keyIsValid : ℕ → Bool) (hashes : List ℕ) (h : ℕ) :
    (rowsOf keyIsValid hashes h).Pairwise (· < ·) := by
  have hrange : (hashes.zipIdx.map Prod.snd).Pairwise (· < ·) := by
    rw [zipIdx_map_snd]
    exact pairwise_lt_range' 1 one_pos
  exact hrange.sublist ((filter_sublist.trans filter_sublist).map Prod.snd)

lemma mem_rowsOf {keyIsValid : ℕ → Bool} {hashes : List ℕ} {h i : ℕ} :
    i ∈ rowsOf keyIsValid hashes h ↔ hashes[i]? = some h ∧ keyIsValid i = true := by
  simp [rowsOf, validItems, mk_mem_zipIdx_iff_getElem?]

variable (keyIsValid : ℕ → Bool)

lemma sorted_filter_eq (hashes : List ℕ) (h : ℕ) :
    (((validItems keyIsValid hashes).mergeSort itemLe).filter fun a => a.1 = h).map Prod.snd =
      rowsOf keyIsValid hashes h := by
  have hperm := (mergeSort_perm (validItems keyIsValid hashes) itemLe).filter fun a => a.1 = h
  refine (hperm.map Prod.snd).eq_of_pairwise (fun _ _ _ _ => le_antisymm) ?_
    ((rowsOf_pairwise keyIsValid hashes h).imp le_of_lt)
  rw [pairwise_map]
  refine ((pairwise_itemLe _).filter _).imp_of_mem fun {a b} ha hb hab => ?_
  have haeq := of_decide_eq_true (mem_filter.1 ha).2
  have hbeq := of_decide_eq_true (mem_filter.1 hb).2
  rw [itemLe_iff] at hab
  omega

/-- The map items of a build side: one for each hash, which encodes the rows with the hash. -/
structure Items (hashes mappedIndices : List ℕ) (its : List (ℕ × MapValue)) : Prop where
  ascending : (its.map Prod.fst).Pairwise (· < ·)
  encodes : ∀ s ∈ its, s.2.Encodes mappedIndices (rowsOf keyIsValid hashes s.1)
  complete : ∀ h, rowsOf keyIsValid hashes h ≠ [] ↔ h ∈ its.map Prod.fst
  indices_lt : ∀ x ∈ mappedIndices, x < 2 ^ 31
  length_lt : mappedIndices.length < 2 ^ 31

/-- **The map items** that `create` packs. -/
theorem items_spec (hashes : List ℕ) (hlen : hashes.length < 2 ^ 30) :
    ∃ mapped its, (chunkBy Prod.fst ((validItems keyIsValid hashes).mergeSort itemLe)).foldl addChunk ([], []) =
      (mapped, its) ∧ Items keyIsValid hashes mapped its := by
  have hsorted := pairwise_sorted (validItems keyIsValid hashes)
  have hperm := mergeSort_perm (validItems keyIsValid hashes) itemLe
  have hrows := sorted_filter_eq keyIsValid hashes
  generalize (validItems keyIsValid hashes).mergeSort itemLe = sorted at hsorted hperm hrows
  have hmem : ∀ c ∈ chunkBy Prod.fst sorted, ∀ a ∈ c, a ∈ validItems keyIsValid hashes := by
    intro c hc a ha
    refine hperm.subset ?_
    rw [← flatten_chunkBy Prod.fst sorted]
    exact mem_flatten.2 ⟨c, hc, ha⟩
  have hcount : sorted.length ≤ hashes.length := by
    rw [hperm.length_eq]
    exact (length_filter_le _ _).trans (by simp)
  obtain ⟨mapped, its, hfold, -, hpacked, hsmall, _⟩ := foldl_addChunk (chunkBy Prod.fst sorted)
    (fun c hc => ne_nil_of_mem_chunkBy hc) (fun c hc => key_eq_of_mem_chunkBy hc)
    (by
      intro c hc a ha
      have := (List.getElem?_eq_some_iff.1 (mem_validItems (hmem c hc a ha)).1).1
      omega) [] [] (by simp)
    (by rw [flatten_chunkBy, length_nil]; omega)
  refine ⟨mapped, its, hfold, ?_, ?_, ?_, hsmall, by omega⟩
  · exact pairwise_of_packed hpacked (fun c hc => ne_nil_of_mem_chunkBy hc) (pairwise_chunkBy hsorted)
  · intro s hs
    obtain ⟨c, hc, hpc⟩ := exists_left_of_forall₂ hpacked hs
    have hc' := hpc.encodes
    rwa [mem_chunkBy_eq_filter hsorted hc hpc.hash, hrows] at hc'
  · intro h
    constructor
    · -- a row with the hash is in a chunk, which has a map item
      intro hne
      obtain ⟨i, hi⟩ := exists_mem_of_ne_nil _ hne
      rw [← hrows] at hi
      obtain ⟨a, ha, -⟩ := mem_map.1 hi
      obtain ⟨ha, hah⟩ := mem_filter.1 ha
      rw [← flatten_chunkBy Prod.fst sorted] at ha
      obtain ⟨c, hc, hac⟩ := mem_flatten.1 ha
      obtain ⟨s, hs, hpc⟩ := exists_right_of_forall₂ hpacked hc
      refine mem_map.2 ⟨s, hs, ?_⟩
      rw [← hpc.hash a hac]
      simpa using hah
    · intro hh
      obtain ⟨s, hs, rfl⟩ := mem_map.1 hh
      obtain ⟨c, hc, hpc⟩ := exists_left_of_forall₂ hpacked hs
      rw [← hrows, ← mem_chunkBy_eq_filter hsorted hc hpc.hash, Ne, map_eq_nil_iff]
      exact ne_nil_of_mem_chunkBy hc

structure Small (t : Table) : Prop where
  numValidItems_lt : t.numValidItems < 2 ^ 30
  mapModBits_lt : t.mapModBits < 32
  length_map : t.map.length = 2 ^ t.mapModBits
  size : ∀ g ∈ t.map, g.length = 8
  slots_lt : ∀ g ∈ t.map, ∀ s ∈ g, s.1 < 2 ^ 32 ∧ s.2.bits < 2 ^ 32
  length_mappedIndices : t.mappedIndices.length < 2 ^ 31
  mappedIndices_lt : ∀ x ∈ t.mappedIndices, x < 2 ^ 31

/-- **The table of a build side**: there is one, and looking up a hash in it gives the valid rows with that hash. -/
theorem create_spec (hashes : List ℕ) (hlen : hashes.length < 2 ^ 30) (hhash : ∀ h ∈ hashes, h ≠ 0) :
    ∃ t, create keyIsValid hashes = some t ∧ t.numValidItems = (validItems keyIsValid hashes).length ∧
      ((∀ h ∈ hashes, h < 2 ^ 32) → t.Small) ∧
      ∀ h ≠ 0, ∃ v, t.lookup h = some v ∧ v.Encodes t.mappedIndices (rowsOf keyIsValid hashes h) := by
  obtain ⟨mapped, its, hfold, hits⟩ := items_spec keyIsValid hashes hlen
  have hof : ∀ s ∈ its, s.1 ∈ hashes := by
    intro s hs
    obtain ⟨i, hi⟩ := exists_mem_of_ne_nil _ ((hits.complete s.1).2 (mem_map_of_mem hs))
    exact mem_of_getElem? (mem_rowsOf.1 hi).1
  have hvalid : (validItems keyIsValid hashes).length ≤ hashes.length :=
    (length_filter_le _ _).trans (by simp)
  have hcount : its.length ≤ hashes.length := by
    have hnd : (its.map Prod.fst).Nodup := hits.ascending.imp ne_of_lt
    have hsub : its.map Prod.fst ⊆ hashes := by
      intro h hh
      obtain ⟨s, hs, rfl⟩ := mem_map.1 hh
      exact hof s hs
    have hle := (subperm_of_subset hnd hsub).length_le
    rwa [List.length_map] at hle
  -- the filled groups
  obtain ⟨map, hmap, hplaced, hmaplen, hentries, hsize⟩ :=
    (placed_replicate MapValue.empty (Nat.mod_lt · (Nat.two_pow_pos (tableBits its.length))) 8).foldlM_insertEntry its
    (fun s hs => hhash _ (hof s hs))
    (by
      intro g hg
      rw [eq_of_mem_replicate hg, length_replicate])
    (by
      rw [entries_replicate, length_replicate, length_nil]
      have := lt_slots_tableBits its.length
      omega)
  rw [entries_replicate, append_nil] at hentries
  rw [length_replicate] at hmaplen
  refine ⟨⟨(validItems keyIsValid hashes).length, tableBits its.length, map, mapped⟩, ?_, rfl, fun h32 => ?_, ?_⟩
  · unfold create
    simp only [hfold, hmap, Option.bind_eq_bind, Option.bind_some]
    rw [if_pos (by omega)]
  · refine ⟨hvalid.trans_lt hlen, tableBits_lt (by omega), hmaplen, hsize, fun g hg s hs => ?_,
    hits.length_lt, hits.indices_lt⟩
    obtain ⟨e, he⟩ := getElem?_of_mem hg
    by_cases hs0 : s.1 = 0
    · rw [hs0, hplaced.default g hg s hs hs0]
      decide
    · have hin := hentries.mem_iff.1 (mem_entries.2 ⟨⟨e, g, he, hs⟩, hs0⟩)
      exact ⟨h32 _ (hof s hin), (hits.encodes s hin).bits_lt⟩
  · intro h hne
    have hopen : ∃ g ∈ map, ¬Full g := by
      apply exists_not_full hsize
      rw [hentries.length_eq, hmaplen]
      exact lt_slots_tableBits its.length
    have hnd : ((entries map).map Prod.fst).Nodup :=
      (hentries.map Prod.fst).nodup_iff.2 (hits.ascending.imp ne_of_lt)
    obtain ⟨hfound, habsent⟩ := lookup_spec ⟨(validItems keyIsValid hashes).length, tableBits its.length, map, mapped⟩
      hplaced hnd hopen hne
    by_cases hex : h ∈ its.map Prod.fst
    · obtain ⟨s, hs, rfl⟩ := mem_map.1 hex
      exact ⟨s.2, hfound s.2 (hentries.mem_iff.2 hs), hits.encodes s hs⟩
    · have hnone : rowsOf keyIsValid hashes h = [] := by
        by_contra hrows
        exact hex ((hits.complete h).1 hrows)
      rw [hnone]
      refine ⟨.empty, habsent fun v hv => hex ?_, MapValue.encodes_empty _⟩
      exact mem_map.2 ⟨_, hentries.mem_iff.1 hv, rfl⟩

end Table

/-! ### The map of a build side -/

section Map

variable {n : ℕ} {κ : Fin n → Type} {α : Type} {w : ℕ}

/-- What the hash joins use of keys: `join_create_hashes`, which is never 0, and `EqComparator`. -/
structure KeyComparator (κ : Fin n → Type) where
  hash : Key κ → ℕ
  hash_ne_zero : ∀ k, hash k ≠ 0
  eq : Key κ → Key κ → Bool

/-- A comparator that decides the equality of keys without nulls.  The one of floats does not, for `NaN` is not equal to
itself. -/
structure KeyHash (κ : Fin n → Type) extends KeyComparator κ where
  eq_iff : ∀ k k', k.hasNull = false → k'.hasNull = false → (eq k k' = true ↔ k = k')

instance KeyHash.coe : Coe (KeyHash κ) (KeyComparator κ) := ⟨KeyHash.toKeyComparator⟩

def KeyHash.colliding [∀ i, DecidableEq (κ i)] : KeyHash κ where
  hash _ := 42
  hash_ne_zero _ := by decide
  eq k k' := decide (k = k')
  eq_iff k k' _ _ := decide_eq_true_iff

def KeyHash.collidingBytes : KeyHash (fun _ : Fin 1 => UInt8) := .colliding

/-- `JoinHashMap`: the rows of the build side with their keys, and the table. -/
structure JoinHashMap (κ : Fin n → Type) (α : Type) (w : ℕ) where
  dataBatch : List (Key κ × Row α w)
  table : Table

namespace JoinHashMap

def keyIsValid (dataBatch : List (Key κ × Row α w)) (idx : ℕ) : Bool :=
  dataBatch[idx]?.any fun x => !x.1.hasNull

def create (H : KeyComparator κ) (dataBatch : List (Key κ × Row α w)) : Option (JoinHashMap κ α w) := do
  let table ← Table.create (keyIsValid dataBatch) (dataBatch.map fun x => H.hash x.1)
  some ⟨dataBatch, table⟩

def isAllNulls (m : JoinHashMap κ α w) : Bool := m.table.numValidItems == 0

/-- The build rows a map value stands for whose key the comparator finds equal. -/
def matchedIndices (H : KeyComparator κ) (m : JoinHashMap κ α w) (k : Key κ) (v : MapValue) : Option (List ℕ) := do
  let idxs ← v.rows m.table.mappedIndices
  let eqs ← collect (fun idx => m.dataBatch[idx]?.map fun x => (idx, H.eq k x.1)) idxs
  some ((eqs.filter Prod.snd).map Prod.fst)

def partnerIndices [∀ i, DecidableEq (κ i)] (dataBatch : List (Key κ × Row α w)) (k : Key κ) : List ℕ :=
  (dataBatch.zipIdx.filter fun x => partners k x.1.1).map Prod.snd

/-- What the joiners rely on: the map has the rows of the build side, and the rows it finds equal to one of the `keys`
without nulls are the partners of the key. -/
structure Maps [∀ i, DecidableEq (κ i)] (H : KeyComparator κ) (keys : Key κ → Prop) (build : List (Key κ × Row α w))
    (m : JoinHashMap κ α w) : Prop where
  data : m.dataBatch = build
  allNulls : m.isAllNulls = build.all fun x => x.1.hasNull
  lookup : ∀ k, keys k → k.hasNull = false → ∃ v idxs, m.table.lookup (H.hash k) = some v ∧
    m.matchedIndices H k v = some idxs ∧ idxs.Perm (partnerIndices build k)

lemma validItems_eq (H : KeyComparator κ) (build : List (Key κ × Row α w)) :
    Table.validItems (keyIsValid build) (build.map fun x => H.hash x.1) =
      (build.zipIdx.filter fun x => !x.1.1.hasNull).map fun x => (H.hash x.1.1, x.2) := by
  unfold Table.validItems
  rw [zipIdx_map, filter_map]
  congr 1
  refine filter_congr fun x hx => ?_
  simp [keyIsValid, mk_mem_zipIdx_iff_getElem?.1 hx]

variable [∀ i, DecidableEq (κ i)]

lemma partnerIndices_eq (H : KeyComparator κ) (build : List (Key κ × Row α w)) {k : Key κ} (hk : k.hasNull = false)
    (hagree : ∀ y ∈ build, y.1.hasNull = false → (H.eq k y.1 = true ↔ k = y.1)) :
    ((((Table.validItems (keyIsValid build) (build.map fun x => H.hash x.1)).filter fun a => a.1 = H.hash k).map
      Prod.snd).filter fun idx => build[idx]?.any fun x => H.eq k x.1) = partnerIndices build k := by
  rw [validItems_eq, filter_map, filter_map, filter_map, map_map, filter_filter, filter_filter]
  refine congrArg₂ List.map rfl (filter_congr fun x hx => ?_)
  have hget := mk_mem_zipIdx_iff_getElem?.1 hx
  rw [Bool.eq_iff_iff]
  simp only [Function.comp_apply, hget, partners, Bool.and_eq_true, decide_eq_true_eq,
    Bool.not_eq_true', hk]
  constructor
  · rintro ⟨⟨heq, -⟩, hnull⟩
    exact ⟨⟨trivial, hnull⟩, (hagree x.1 (mem_of_getElem? hget) hnull).1 heq⟩
  · rintro ⟨⟨-, hnull⟩, heq⟩
    exact ⟨⟨(hagree x.1 (mem_of_getElem? hget) hnull).2 heq, by rw [heq]⟩, hnull⟩

/-- **The map of a build side**, for the keys on which the comparator decides the equality with the keys of the side. -/
theorem create_maps_of_agree (H : KeyComparator κ) (build : List (Key κ × Row α w)) (hlen : build.length < 2 ^ 30)
    {keys : Key κ → Prop} (hagree : ∀ k, keys k → k.hasNull = false → ∀ y ∈ build, y.1.hasNull = false →
      (H.eq k y.1 = true ↔ k = y.1)) : ∃ m, create H build = some m ∧ Maps H keys build m := by
  obtain ⟨t, ht, hcount, -, hlookup⟩ := Table.create_spec (keyIsValid build) (build.map fun x => H.hash x.1)
    (by rwa [List.length_map])
    (by
      intro h hh
      obtain ⟨x, -, rfl⟩ := mem_map.1 hh
      exact H.hash_ne_zero x.1)
  refine ⟨⟨build, t⟩, by simp [create, ht], rfl, ?_, ?_⟩
  · rw [validItems_eq, List.length_map] at hcount
    unfold isAllNulls
    rw [hcount, Bool.eq_iff_iff]
    simp only [beq_iff_eq, length_eq_zero_iff, filter_eq_nil_iff, all_eq_true]
    constructor
    · intro h x hx
      obtain ⟨i, hi⟩ := getElem?_of_mem hx
      simpa using h (x, i) (mk_mem_zipIdx_iff_getElem?.2 hi)
    · intro h x hx
      simpa using h x.1 (mem_of_getElem? (mk_mem_zipIdx_iff_getElem?.1 hx))
  · intro k hkey hk
    obtain ⟨v, hv, hencodes⟩ := hlookup (H.hash k) (H.hash_ne_zero k)
    have hrows := hencodes.rows_eq
    generalize hidxs : Table.rowsOf (keyIsValid build) (build.map fun x => H.hash x.1) (H.hash k) = idxs at hrows
    have hcollect : collect (fun idx => build[idx]?.map fun x => (idx, H.eq k x.1)) idxs =
        some (idxs.map fun idx => (idx, build[idx]?.any fun x => H.eq k x.1)) := by
      refine collect_eq_map fun idx hidx => ?_
      rw [← hidxs] at hidx
      obtain ⟨hget, -⟩ := Table.mem_rowsOf.1 hidx
      rw [getElem?_map, Option.map_eq_some_iff] at hget
      obtain ⟨x, hx, -⟩ := hget
      simp [hx]
    refine ⟨v, idxs.filter fun idx => build[idx]?.any fun x => H.eq k x.1, hv, ?_, ?_⟩
    · unfold matchedIndices
      simp only [hrows, hcollect, Option.bind_eq_bind, Option.bind_some, filter_map, map_map]
      congr 1
      exact map_id _
    · rw [← partnerIndices_eq H build hk (hagree k hkey hk), ← hidxs, Table.rowsOf]

lemma create_maps (H : KeyHash κ) (build : List (Key κ × Row α w)) (hlen : build.length < 2 ^ 30) :
    ∃ m, create H build = some m ∧ Maps H (fun _ => True) build m :=
  create_maps_of_agree H build hlen fun k _ hk y _ hy => H.eq_iff k y.1 hk hy

end JoinHashMap

end Map

end Auron.Joins
