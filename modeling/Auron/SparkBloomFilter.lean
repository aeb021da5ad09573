import Auron.Io.BatchSerde
import Auron.Hash.Mur

/-!
# The Bloom filter of `spark_bloom_filter.rs` over the bits of `spark_bit_array.rs`

An item is hashed twice and the two hashes are combined to one position for each hash function; putting the item sets
the bits at these positions, and asking for it looks whether they are all set.  A filter of `2 ^ m` bits asks at the
combined hash modulo `2 ^ m`, so that folding it to a smaller power of two keeps every answer (`Holds.shrinkToFit`).

The words of the array have 64 bits.  `shrink_to_fit` takes a power of two it computes from the number of set bits, and
below 64 the array it then makes is larger than what it folds to: `might_contain` asks at positions the fold never sets
(`shrink_loses_item`).  As long as no fold goes below one word, nothing that was put is ever lost, over the whole life of
a filter (`contains_of_life`).
-/

namespace Auron

open Lib Io BatchSerde List

/-! ### Numbers on the wire, the highest byte first -/

/-- The lowest `n` bytes of a number. -/
def beBytes : ℕ → ℕ → Bytes
  | 0, _ => []
  | n + 1, v => UInt8.ofNat (v / 256 ^ n % 256) :: beBytes n v

def ofBe (bytes : Bytes) : ℕ := bytes.foldl (fun a b => a * 256 + b.toNat) 0

/-- `read_i32::<BE>` and `read_i64::<BE>`, without the sign. -/
def readBe (n : ℕ) : ReadBytes ℕ := do
  let bytes ← Reads.exact n
  pure (ofBe bytes)

lemma length_beBytes (n v : ℕ) : (beBytes n v).length = n := by
  induction n with
  | zero => rfl
  | succ n ih => rw [beBytes, length_cons, ih]

lemma ofBe_beBytes (n v : ℕ) : ofBe (beBytes n v) = v % 256 ^ n := by
  have hfold : ∀ a, (beBytes n v).foldl (fun a b => a * 256 + b.toNat) a = a * 256 ^ n + v % 256 ^ n := by
    induction n with
    | zero => intro a; simp [beBytes, Nat.mod_one]
    | succ n ih =>
      intro a
      rw [beBytes, foldl_cons, ih, UInt8.toNat_ofNat_of_lt' (Nat.mod_lt _ (by decide)), Nat.mod_pow_succ]
      ring
  rw [ofBe, hfold, zero_mul, zero_add]

lemma parses_readBe (n v : ℕ) : (readBe n).Parses (beBytes n v) (v % 256 ^ n) := by
  have h : (Reads.exact n : ReadBytes Bytes).Parses (beBytes n v) (beBytes n v) := by
    have h := Reads.Parses.exact (ε := IoErr) (beBytes n v)
    rwa [length_beBytes] at h
  exact h.bind_last (by rw [← ofBe_beBytes]; exact .pure _)

def i32AsUsize (v : ℕ) : ℕ := if v < 2 ^ 31 then v else v + (2 ^ 64 - 2 ^ 32)

/-! ### The bit array -/

structure SparkBitArray where
  data : List (BitVec 64)
  deriving DecidableEq

namespace SparkBitArray

def newWithNumBits (numBits : ℕ) : Option SparkBitArray :=
  if 0 < numBits ∧ numBits ≤ 2 ^ 31 - 1 then some ⟨replicate ((numBits + 63) / 64) 0⟩ else none

def bitSize (a : SparkBitArray) : ℕ := a.data.length * 64

def get (a : SparkBitArray) (index : ℕ) : Bool := getBit a.data index

def trueCount (a : SparkBitArray) : ℕ := (a.data.map fun datum => (range 64).countP datum.getLsbD).sum

def putAll (a b : SparkBitArray) : Option SparkBitArray :=
  if a.data.length = b.data.length then some ⟨zipWith (· ||| ·) a.data b.data⟩ else none

def writeTo (a : SparkBitArray) : Bytes :=
  beBytes 4 a.data.length ++ a.data.flatMap fun datum => beBytes 8 datum.toNat

/-- The words of `read_from`. -/
def readWords : ℕ → ReadBytes (List (BitVec 64))
  | 0 => pure []
  | n + 1 => do
    let datum ← readBe 8
    let rest ← readWords n
    pure (BitVec.ofNat 64 datum :: rest)

/-- `read_from`.  No vector has room for the negative lengths. -/
def readFrom : ReadBytes SparkBitArray := do
  let len ← readBe 4
  if len < 2 ^ 31 then
    let data ← readWords len
    pure ⟨data⟩
  else .fail .other

variable {a : SparkBitArray}

lemma newWithNumBits_pow {m : ℕ} (hlow : 6 ≤ m) (ha : newWithNumBits (2 ^ m) = some a) :
    m ≤ 30 ∧ a.bitSize = 2 ^ m := by
  unfold newWithNumBits at ha
  split at ha
  case isFalse => cases ha
  case isTrue hsize =>
    cases ha
    obtain ⟨n, rfl⟩ := Nat.exists_eq_add_of_le' hlow
    constructor
    · by_contra hm
      have := Nat.pow_le_pow_right (show 0 < 2 by decide) (show 31 ≤ n + 6 by omega)
      omega
    · rw [bitSize, length_replicate, Nat.pow_add]
      omega

variable {b c : SparkBitArray}

section PutAll

variable (h : a.putAll b = some c)

include h

lemma bitSize_eq_of_putAll : a.bitSize = b.bitSize := by
  unfold putAll at h
  split at h
  case isFalse => cases h
  case isTrue hlen => rw [bitSize, hlen, bitSize]

lemma bitSize_putAll : c.bitSize = a.bitSize := by
  unfold putAll at h
  split at h
  case isFalse => cases h
  case isTrue hlen =>
    cases h
    rw [bitSize, length_zipWith, ← hlen, min_self, bitSize]

lemma get_putAll (i : ℕ) : c.get i = (a.get i || b.get i) := by
  unfold putAll at h
  split at h
  case isFalse => cases h
  case isTrue hlen =>
    cases h
    simp only [get, getBit, getD_eq_getElem?_getD, getElem?_zipWith]
    by_cases hi : i / 64 < a.data.length
    · rw [getElem?_eq_getElem hi, getElem?_eq_getElem (hlen ▸ hi)]
      simp
    · rw [getElem?_eq_none (Nat.le_of_not_lt hi), getElem?_eq_none (hlen ▸ Nat.le_of_not_lt hi)]
      simp

end PutAll

lemma parses_readWords (data : List (BitVec 64)) :
    (readWords data.length).Parses (data.flatMap fun datum => beBytes 8 datum.toNat) data := by
  induction data with
  | nil => exact .pure _
  | cons datum data ih =>
    refine (parses_readBe 8 datum.toNat).bind (ih.bind_last ?_)
    rw [Nat.mod_eq_of_lt (show datum.toNat < 256 ^ 8 from datum.isLt), BitVec.ofNat_toNat]
    exact .pure _

lemma parses_readFrom (ha : a.data.length < 2 ^ 31) : readFrom.Parses a.writeTo a := by
  refine (parses_readBe 4 a.data.length).bind ?_
  rw [Nat.mod_eq_of_lt (by omega), if_pos ha]
  exact (parses_readWords a.data).bind_last (.pure _)

end SparkBitArray

/-! ### The filter -/

inductive Item where
  | long (v : BitVec 64)
  | binary (v : Bytes)
  deriving DecidableEq

def Item.hash : Item → BitVec 32 → BitVec 32
  | .long v => Hash.hashLong v
  | .binary v => Hash.hash v

/-- The combined hash of round `i`, all its bits flipped if it is negative. -/
def combinedHash (h1 h2 i : BitVec 32) : BitVec 32 :=
  let combined := h1 + i * h2
  combined ^^^ -(if combined.slt 0#32 then 1#32 else 0#32)

/-- `(combined_hash % bit_size) as usize`. -/
def position (bitSize : ℕ) (h1 h2 i : BitVec 32) : ℕ := ((combinedHash h1 h2 i).srem (BitVec.ofNat 32 bitSize)).toNat

/-- The numbers of `1..=num_hash_functions as i32`. -/
def rounds (numHashFunctions : ℕ) : List (BitVec 32) :=
  let last := numHashFunctions % 2 ^ 32
  (range (if last < 2 ^ 31 then last else 0)).map fun i => BitVec.ofNat 32 (i + 1)

/-- `next_power_of_two`, which wraps around to zero. -/
def nextPowerOfTwo (n : ℕ) : ℕ := (((range 64).map (2 ^ ·)).find? (n ≤ ·)).getD 0

structure SparkBloomFilter where
  bits : SparkBitArray
  numHashFunctions : ℕ
  deriving DecidableEq

namespace SparkBloomFilter

def newWithNumHashFunctions (numHashFunctions numBits : ℕ) : Option SparkBloomFilter :=
  (SparkBitArray.newWithNumBits numBits).map fun bits => ⟨bits, numHashFunctions⟩

section Hashes

variable (f : SparkBloomFilter)

def put (hash : BitVec 32 → BitVec 32) : SparkBloomFilter :=
  let h1 := hash 0
  let h2 := hash h1
  { f with bits := ⟨setWhere (fun _ => true) (position f.bits.bitSize h1 h2) (rounds f.numHashFunctions) f.bits.data⟩ }

def putLong (item : BitVec 64) : SparkBloomFilter := f.put (Hash.hashLong item)

def putBinary (item : Bytes) : SparkBloomFilter := f.put (Hash.hash item)

def mightContain (h1 h2 : BitVec 32) : Bool :=
  (rounds f.numHashFunctions).all fun i => f.bits.get (position f.bits.bitSize h1 h2 i)

def mightContainLong (item : BitVec 64) : Bool :=
  let h1 := Hash.hashLong item 0
  f.mightContain h1 (Hash.hashLong item h1)

def mightContainBinary (item : Bytes) : Bool :=
  let h1 := Hash.hash item 0
  f.mightContain h1 (Hash.hash item h1)

/-- `might_contain_longs`: the answers are bits of a buffer of bytes. -/
def mightContainLongs (values : List (BitVec 64)) : List Bool :=
  let h1s := values.map fun v => Hash.hashLong v 0
  let h2s := zipWith Hash.hashLong values h1s
  let buffer := setWhere (fun x : (BitVec 32 × BitVec 32) × ℕ => f.mightContain x.1.1 x.1.2) Prod.snd
    (h1s.zip h2s).zipIdx (replicate ((values.length + 7) / 8) (0 : BitVec 8))
  (range values.length).map (getBit buffer)

end Hashes

def putAll (f other : SparkBloomFilter) : Option SparkBloomFilter :=
  if f.numHashFunctions = other.numHashFunctions then
    (f.bits.putAll other.bits).map fun bits => { f with bits }
  else none

section Format

variable (f : SparkBloomFilter)

/-- `write_to`, with the version in front. -/
def writeTo : Bytes :=
  beBytes 4 1 ++ (beBytes 4 f.numHashFunctions ++ f.bits.writeTo)

def readFrom : ReadBytes SparkBloomFilter := do
  let version ← readBe 4
  if version ≠ 1 then .fail .other
  else
    let numHashFunctions ← readBe 4
    let bits ← SparkBitArray.readFrom
    pure ⟨bits, i32AsUsize numHashFunctions⟩

def shrinkedNumBits : ℕ :=
  nextPowerOfTwo (max (f.numHashFunctions * f.bits.trueCount * 2 % 2 ^ 64) 1)

def shrinkToFit : Option SparkBloomFilter :=
  if f.bits.bitSize ≤ f.shrinkedNumBits then some f
  else
    (SparkBitArray.newWithNumBits f.shrinkedNumBits).map fun bits =>
      { f with
        bits := ⟨setWhere f.bits.get (· % f.shrinkedNumBits) (range f.bits.bitSize) bits.data⟩ }

def contains : Item → Bool
  | .long v => f.mightContainLong v
  | .binary v => f.mightContainBinary v

def putItem : Item → SparkBloomFilter
  | .long v => f.putLong v
  | .binary v => f.putBinary v

end Format

/-- The life of a filter, with the items put into it or into a filter merged into it; `shrinks` says which filters
`shrink_to_fit` is called on. -/
inductive Life (shrinks : SparkBloomFilter → Prop) : SparkBloomFilter → List Item → Prop
  | new {k m : ℕ} {f : SparkBloomFilter} (hk : 1 ≤ k) (hm : 6 ≤ m) (hf : newWithNumHashFunctions k (2 ^ m) = some f) :
      Life shrinks f []
  | put {f : SparkBloomFilter} {items : List Item} (h : Life shrinks f items) (item : Item) :
      Life shrinks (f.putItem item) (item :: items)
  | putAll {f g r : SparkBloomFilter} {items others : List Item} (hf : Life shrinks f items)
      (hg : Life shrinks g others) (hr : f.putAll g = some r) : Life shrinks r (items ++ others)
  | reload {f g : SparkBloomFilter} {items : List Item} (hf : Life shrinks f items)
      (hg : readFrom.run (Source.list .unexpectedEof) f.writeTo = .ok (g, [])) : Life shrinks g items
  | shrinkToFit {f g : SparkBloomFilter} {items : List Item} (hf : Life shrinks f items) (hs : shrinks f)
      (hg : f.shrinkToFit = some g) : Life shrinks g items

/-! ### Positions -/

lemma msb_combinedHash (h1 h2 i : BitVec 32) : (combinedHash h1 h2 i).msb = false := by
  unfold combinedHash
  generalize h1 + i * h2 = c
  dsimp only
  rw [BitVec.slt_zero_eq_msb]
  cases hc : c.msb with
  | false => simpa using hc
  | true =>
    have hones : -(1#32) = BitVec.allOnes 32 := by decide
    rw [if_pos rfl, hones, BitVec.xor_allOnes]
    simp [hc]

lemma position_eq {bitSize : ℕ} (hsize : bitSize < 2 ^ 31) (h1 h2 i : BitVec 32) :
    position bitSize h1 h2 i = (combinedHash h1 h2 i).toNat % bitSize := by
  have hlt : bitSize < 2 ^ 32 := by omega
  have hmsb : (BitVec.ofNat 32 bitSize).msb = false := by
    rw [BitVec.msb_eq_false_iff_two_mul_lt, BitVec.toNat_ofNat]
    omega
  rw [position, BitVec.srem_eq, msb_combinedHash, hmsb]
  rw [BitVec.toNat_umod, BitVec.toNat_ofNat, Nat.mod_eq_of_lt hlt]

lemma nextPowerOfTwo_eq (n : ℕ) : nextPowerOfTwo n = 0 ∨ ∃ t, nextPowerOfTwo n = 2 ^ t := by
  unfold nextPowerOfTwo
  cases hfind : ((range 64).map (2 ^ ·)).find? (n ≤ ·) with
  | none => exact .inl rfl
  | some p =>
    obtain ⟨t, -, rfl⟩ := mem_map.1 (mem_of_find?_eq_some hfind)
    exact .inr ⟨t, rfl⟩

lemma rounds_i32AsUsize (k : ℕ) : rounds (i32AsUsize (k % 256 ^ 4)) = rounds k := by
  have hmod : i32AsUsize (k % 256 ^ 4) % 2 ^ 32 = k % 2 ^ 32 := by
    unfold i32AsUsize
    split <;> omega
  rw [rounds, rounds, hmod]

section Items

variable (f : SparkBloomFilter)

lemma contains_eq (item : Item) : f.contains item = f.mightContain (item.hash 0) (item.hash (item.hash 0)) := by
  cases item <;> rfl

lemma putItem_eq (item : Item) : f.putItem item = f.put item.hash := by
  cases item <;> rfl

/-- **The vectorised question gives the answers to the single ones.** -/
theorem mightContainLongs_eq (values : List (BitVec 64)) :
    f.mightContainLongs values = values.map f.mightContainLong := by
  have hpairs : (values.map fun v => Hash.hashLong v 0).zip
      (zipWith Hash.hashLong values (values.map fun v => Hash.hashLong v 0)) =
        values.map fun v => (Hash.hashLong v 0, Hash.hashLong v (Hash.hashLong v 0)) := by
    apply ext_getElem <;> simp
  set pairs := values.map fun v => (Hash.hashLong v 0, Hash.hashLong v (Hash.hashLong v 0)) with hdef
  have hlen : pairs.length = values.length := length_map _
  have hbound : ∀ x ∈ pairs.zipIdx, f.mightContain x.1.1 x.1.2 = true →
      x.2 < 8 * (replicate ((values.length + 7) / 8) (0 : BitVec 8)).length := by
    intro x hx _
    have := (mem_zipIdx' hx).1
    rw [length_replicate]
    omega
  unfold mightContainLongs
  dsimp only
  rw [hpairs]
  apply ext_getElem
  · simp
  · intro j hj _
    rw [length_map, length_range] at hj
    rw [getElem_map, getElem_range, getBit_setWhere (by decide) hbound, getBit_replicate_zero, Bool.false_or,
      Bool.eq_iff_iff, any_eq_true]
    constructor
    · rintro ⟨x, hx, hask⟩
      rw [Bool.and_eq_true, beq_iff_eq] at hask
      obtain ⟨_, hxeq⟩ := mem_zipIdx' hx
      obtain ⟨hask, rfl⟩ := hask
      rw [hxeq] at hask
      simpa [hdef, mightContainLong] using hask
    · intro hask
      refine ⟨(pairs.get ⟨j, hlen.symm ▸ hj⟩, j), ?_, ?_⟩
      · exact mk_mem_zipIdx_iff_getElem?.2 (by simp [hlen, hj])
      · simpa [hdef, mightContainLong] using hask

/-! ### The invariant -/

/-- The number of bits is a power of two, at least one word and at most what an `i32` holds, and the items that were put
are found. -/
structure Holds (items : List Item) : Prop where
  size : ∃ m, 6 ≤ m ∧ m ≤ 30 ∧ f.bits.bitSize = 2 ^ m
  found : ∀ item ∈ items, f.contains item = true

end Items

variable {f : SparkBloomFilter} {items : List Item}

lemma Holds.bitSize_lt (h : Holds f items) : f.bits.bitSize < 2 ^ 31 := by
  obtain ⟨m, -, _, hsize⟩ := h.size
  rw [hsize]
  exact Nat.pow_lt_pow_right (by decide) (by omega)

lemma Holds.bitSize_pos (h : Holds f items) : 0 < f.bits.bitSize := by
  obtain ⟨m, -, -, hsize⟩ := h.size
  rw [hsize]
  exact Nat.two_pow_pos m

lemma mightContain_iff (hsize : f.bits.bitSize < 2 ^ 31) {h1 h2 : BitVec 32} :
    f.mightContain h1 h2 = true ↔ ∀ i ∈ rounds f.numHashFunctions,
      f.bits.get ((combinedHash h1 h2 i).toNat % f.bits.bitSize) = true := by
  rw [mightContain, all_eq_true]
  simp only [position_eq hsize]

lemma Holds.put (h : Holds f items) (item : Item) : Holds (f.putItem item) (item :: items) := by
  rw [putItem_eq]
  set g := f.put item.hash with hg
  have hsize : g.bits.bitSize = f.bits.bitSize := by simp [hg, SparkBloomFilter.put, SparkBitArray.bitSize]
  have hget : ∀ j, g.bits.get j = (f.bits.get j || (rounds f.numHashFunctions).any fun i =>
      position f.bits.bitSize (item.hash 0) (item.hash (item.hash 0)) i == j) := by
    intro j
    have hbound : ∀ i ∈ rounds f.numHashFunctions, true = true →
        position f.bits.bitSize (item.hash 0) (item.hash (item.hash 0)) i < 64 * f.bits.data.length := by
      intro i _ _
      rw [position_eq h.bitSize_lt, mul_comm]
      exact Nat.mod_lt _ h.bitSize_pos
    exact (getBit_setWhere (by decide) hbound j).trans (by simp [SparkBitArray.get])
  refine ⟨by rw [hsize]; exact h.size, ?_⟩
  intro other hother
  rw [contains_eq, mightContain, all_eq_true, hsize]
  intro i hi
  rw [hget, Bool.or_eq_true]
  rcases mem_cons.1 hother with rfl | hother
  · exact .inr (any_eq_true.2 ⟨i, hi, beq_self_eq_true _⟩)
  · have hfound := h.found other hother
    rw [contains_eq, mightContain, all_eq_true] at hfound
    exact .inl (hfound i hi)

variable {g : SparkBloomFilter}

lemma Holds.putAll {r : SparkBloomFilter} {others : List Item} (hf : Holds f items) (hg : Holds g others)
    (hr : f.putAll g = some r) : Holds r (items ++ others) := by
  unfold SparkBloomFilter.putAll at hr
  split at hr
  case isFalse => cases hr
  case isTrue hk =>
    obtain ⟨_, hbits, rfl⟩ := Option.map_eq_some_iff.1 hr
    have hlen : f.bits.bitSize = g.bits.bitSize := SparkBitArray.bitSize_eq_of_putAll hbits
    have hsize := SparkBitArray.bitSize_putAll hbits
    have hget := SparkBitArray.get_putAll hbits
    refine ⟨by rw [hsize]; exact hf.size, ?_⟩
    intro item hitem
    rw [contains_eq, mightContain, all_eq_true]
    intro i hi
    rw [hsize, hget, Bool.or_eq_true]
    rcases mem_append.1 hitem with hitem | hitem
    · have hfound := hf.found item hitem
      rw [contains_eq, mightContain, all_eq_true] at hfound
      exact .inl (hfound i hi)
    · have hfound := hg.found item hitem
      rw [contains_eq, mightContain, all_eq_true, ← hlen, ← hk] at hfound
      exact .inr (hfound i hi)

/-- **What is written is read back**, with a number of hash functions that gives the same rounds. -/
theorem parses_readFrom (hlen : f.bits.data.length < 2 ^ 31) :
    readFrom.Parses f.writeTo ⟨f.bits, i32AsUsize (f.numHashFunctions % 256 ^ 4)⟩ := by
  refine (parses_readBe 4 1).bind ?_
  refine (parses_readBe 4 f.numHashFunctions).bind ?_
  exact (SparkBitArray.parses_readFrom hlen).bind_last (.pure _)

lemma run_readFrom (hsize : f.bits.bitSize < 2 ^ 31) : readFrom.run (Source.list .unexpectedEof) f.writeTo =
      .ok (⟨f.bits, i32AsUsize (f.numHashFunctions % 256 ^ 4)⟩, []) := by
  have hlen : f.bits.data.length < 2 ^ 31 := by
    unfold SparkBitArray.bitSize at hsize
    omega
  have h := parses_readFrom hlen .unexpectedEof []
  rwa [append_nil] at h

lemma Holds.reload (h : Holds f items) (hg : readFrom.run (Source.list .unexpectedEof) f.writeTo = .ok (g, [])) :
    Holds g items := by
  rw [run_readFrom h.bitSize_lt] at hg
  cases hg
  refine ⟨h.size, fun item hitem => ?_⟩
  have hfound := h.found item hitem
  rw [contains_eq, mightContain] at hfound ⊢
  rwa [rounds_i32AsUsize]

/-- Bits that have every set bit of the old ones at its position modulo a smaller power of two keep every answer. -/
lemma Holds.fold (h : Holds f items) {folded : SparkBitArray} {t : ℕ} (ht : 6 ≤ t) (hdvd : 2 ^ t ∣ f.bits.bitSize)
    (hsize : folded.bitSize = 2 ^ t)
    (hget : ∀ i < f.bits.bitSize, f.bits.get i = true → folded.get (i % 2 ^ t) = true) :
    Holds ⟨folded, f.numHashFunctions⟩ items := by
  obtain ⟨m, -, hm, hold⟩ := h.size
  have htm : t ≤ m := by
    rw [hold] at hdvd
    exact (Nat.pow_dvd_pow_iff_le_right (by decide)).1 hdvd
  have hlt : (⟨folded, f.numHashFunctions⟩ : SparkBloomFilter).bits.bitSize < 2 ^ 31 := by
    rw [hsize]
    exact Nat.pow_lt_pow_right (by decide) (by omega)
  refine ⟨⟨t, ht, htm.trans hm, hsize⟩, fun item hitem => ?_⟩
  have hfound := h.found item hitem
  rw [contains_eq, mightContain_iff h.bitSize_lt] at hfound
  rw [contains_eq, mightContain_iff hlt]
  intro i hi
  have hset := hget _ (Nat.mod_lt _ h.bitSize_pos) (hfound i hi)
  rwa [Nat.mod_mod_of_dvd _ hdvd, ← hsize] at hset

/-- **Folding to a power of two of at least one word keeps every answer.** -/
theorem Holds.shrinkToFit (h : Holds f items) (hword : 64 ≤ f.shrinkedNumBits) (hg : f.shrinkToFit = some g) :
    Holds g items := by
  unfold SparkBloomFilter.shrinkToFit at hg
  split at hg
  case isTrue =>
    cases hg
    exact h
  case isFalse hsmall =>
    obtain ⟨bits, hbits, rfl⟩ := Option.map_eq_some_iff.1 hg
    obtain ⟨m, -, -, hsize⟩ := h.size
    obtain hzero | ⟨t, ht⟩ := nextPowerOfTwo_eq (max (f.numHashFunctions * f.bits.trueCount * 2 % 2 ^ 64) 1)
    · rw [shrinkedNumBits] at hword
      omega
    replace ht : f.shrinkedNumBits = 2 ^ t := ht
    rw [ht] at hbits hword hsmall ⊢
    have htm : t < m := by
      rw [hsize, not_le] at hsmall
      exact (Nat.pow_lt_pow_iff_right (by decide)).1 hsmall
    have ht6 : 6 ≤ t := (Nat.pow_le_pow_iff_right (by decide)).1 (show 2 ^ 6 ≤ 2 ^ t from hword)
    obtain ⟨-, hnew⟩ := SparkBitArray.newWithNumBits_pow ht6 hbits
    have hbound : ∀ i ∈ range f.bits.bitSize, f.bits.get i = true → i % 2 ^ t < 64 * bits.data.length := by
      intro i _ _
      rw [mul_comm]
      exact (Nat.mod_lt _ (Nat.two_pow_pos t)).trans_eq hnew.symm
    refine h.fold ht6 (hsize ▸ Nat.pow_dvd_pow 2 htm.le) ?_ ?_
    · rw [← hnew, SparkBitArray.bitSize, length_setWhere, SparkBitArray.bitSize]
    · intro i hlt hi
      rw [SparkBitArray.get, getBit_setWhere (by decide) hbound, Bool.or_eq_true]
      refine .inr (any_eq_true.2 ⟨i, mem_range.2 hlt, ?_⟩)
      rw [hi, Bool.true_and, beq_self_eq_true]

lemma Life.holds (h : Life (fun f => 64 ≤ f.shrinkedNumBits) f items) : Holds f items := by
  induction h with
  | new hk hm hf =>
    obtain ⟨_, hbits, rfl⟩ := Option.map_eq_some_iff.1 hf
    obtain ⟨hm', hsize⟩ := SparkBitArray.newWithNumBits_pow hm hbits
    exact ⟨⟨_, hm, hm', hsize⟩, fun item hitem => by cases hitem⟩
  | put _ item ih => exact ih.put item
  | putAll _ _ hr ihf ihg => exact ihf.putAll ihg hr
  | reload _ hg ih => exact ih.reload hg
  | shrinkToFit _ hs hg ih => exact ih.shrinkToFit hs hg

/-- **No false negatives.**  As long as `shrink_to_fit` is called on filters only whose new size is at least one word, at
every point of the life of a filter what was put into it is reported present by all three questions, by the vectorised one
wherever it stands among the values asked for, and what the filter writes can be read. -/
theorem contains_of_life {f : SparkBloomFilter} {items : List Item}
    (h : Life (fun f => 64 ≤ f.shrinkedNumBits) f items) :
    (∀ v, .long v ∈ items → f.mightContainLong v = true) ∧
      (∀ v, .binary v ∈ items → f.mightContainBinary v = true) ∧
      (∀ (values : List (BitVec 64)) (i : ℕ) v, values[i]? = some v → .long v ∈ items →
        (f.mightContainLongs values)[i]? = some true) ∧
      ∃ g, readFrom.run (Source.list .unexpectedEof) f.writeTo = .ok (g, []) := by
  have hf := h.holds
  refine ⟨fun v hv => hf.found _ hv, fun v hv => hf.found _ hv, ?_, _, run_readFrom hf.bitSize_lt⟩
  intro values i v hi hv
  rw [mightContainLongs_eq, getElem?_map, hi]
  exact congrArg some (hf.found _ hv)

/-- Six hash functions and one number make a filter of 256 bits fold to 128, and the number is still found. -/
theorem contains_of_life_folded : ∃ f : SparkBloomFilter, f.bits.bitSize = 128 ∧ f.mightContainLong 7#64 = true ∧
    (f.mightContainLongs [8#64, 7#64])[1]? = some true := by
  let f : SparkBloomFilter := ⟨⟨[0, 0, 0, 0]⟩, 6⟩
  have hnew : newWithNumHashFunctions 6 (2 ^ 8) = some f := by decide
  have hput : Life (fun f => 64 ≤ f.shrinkedNumBits) (f.putLong 7#64) [.long 7#64] :=
    (Life.new (by decide) (by decide) hnew).put (.long 7#64)
  have hsize : (f.putLong 7#64).shrinkToFit.map (fun g => g.bits.bitSize) = some 128 := by decide +kernel
  obtain ⟨g, hg, hgsize⟩ := Option.map_eq_some_iff.1 hsize
  have hall := contains_of_life (.shrinkToFit hput (by decide +kernel) hg)
  exact ⟨g, hgsize, hall.1 7#64 (by simp), hall.2.2.1 [8#64, 7#64] 1 7#64 rfl (by simp)⟩

/-- **One number is lost.**  With one hash function and one bit set, the new size is two bits; the position of the number
is folded to one of them, and asked for among 64. -/
theorem shrink_loses_item : ∃ f : SparkBloomFilter,
    Life (fun _ => True) f [.long 1#64] ∧ f.mightContainLong 1#64 = false := by
  let f : SparkBloomFilter := ⟨⟨[0]⟩, 1⟩
  have hnew : newWithNumHashFunctions 1 (2 ^ 6) = some f := by decide
  refine ⟨⟨⟨[2]⟩, 1⟩, .shrinkToFit ((Life.new (by decide) (by decide) hnew).put (.long 1#64)) trivial ?_, ?_⟩
  · decide +kernel
  · decide +kernel

end SparkBloomFilter

end Auron
