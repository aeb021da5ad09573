import Auron.Io.Bytes

/-!
# Key collectors and the squeezed key codec of `sort_exec.rs`

A sorted block keeps its encoded keys beside its rows.  In memory they are an `InMemRowsKeyCollector`: one buffer and
the offsets between which each key lies.  In a spill they are squeezed: `SortedKeysWriter` writes a key as the part in
which it differs from the key before, and a single byte `0` stands for "the same key again".

* `InMemRowsKeyCollector.key_ofKeys`: the collector built from a list of keys returns each of them.
* `SortedKeysReader.nextKey_writeKey`: what one `write_key` wrote, one `next_key` reads back, provided the key does not
  precede the writer's last key and the reader stands on that key or on a key that does not matter.  The byte `0` is
  written for *every* prefix of the last key, so without the order the codec would not be lossless.
* `readSpill_lossless`: the writer starts afresh with every batch and the reader does not; `ReaderAt` is the relation of
  the two that survives this, and over all batches of a spill one reader reads back a sorted run of keys.
-/

namespace Auron.Sort

open Auron.Io List

/-! ### The collector in memory -/

structure InMemRowsKeyCollector where
  buffer : Bytes := []
  offsets : List ℕ := []
  deriving DecidableEq

namespace InMemRowsKeyCollector

section Collector

variable (c : InMemRowsKeyCollector)

/-- `key`, where it stays inside the offsets. -/
def key? (i : ℕ) : Option Bytes :=
  match c.offsets[i]?, c.offsets[i + 1]? with
  | some start, some stop => some ((c.buffer.take stop).drop start)
  | _, _ => none

/-- `key`.  The code does not check the bounds: outside them it reads whatever lies behind, for which `[]` stands here and
of which nothing is proved.  `Auron.Sort.KeyAccess` lists the accesses and says when all of them are inside. -/
def key (i : ℕ) : Bytes := (c.key? i).getD []

def addKey (key : Bytes) : InMemRowsKeyCollector :=
  ⟨c.buffer ++ key, c.offsets ++ [c.buffer.length]⟩

def freeze : InMemRowsKeyCollector := { c with offsets := c.offsets ++ [c.buffer.length] }

def rows : List Bytes := (range (c.offsets.length - 1)).map c.key

/-- `into_rows`: the assertion on the number of rows, then the buffer and the offsets as they are. -/
def intoRows (numRows : ℕ) : Option (List Bytes) :=
  if c.offsets ≠ [] ∧ c.offsets.length - 1 = numRows then some c.rows else none

end Collector

section Collected

variable (keys : List Bytes)

/-- The collector after a sequence of `add_key` and the final `freeze`. -/
def ofKeys : InMemRowsKeyCollector := (keys.foldl addKey {}).freeze

lemma buffer_foldl_addKey : ∀ c : InMemRowsKeyCollector, (keys.foldl addKey c).buffer = c.buffer ++ keys.flatten := by
  induction keys with
  | nil => intro c; simp
  | cons k keys ih => intro c; rw [foldl_cons, ih]; simp [addKey]

lemma offsets_foldl_addKey : ∀ c : InMemRowsKeyCollector,
    (keys.foldl addKey c).offsets =
      c.offsets ++ (range keys.length).map fun i => c.buffer.length + (keys.take i).flatten.length := by
  induction keys with
  | nil => intro c; simp
  | cons k keys ih =>
    intro c
    rw [foldl_cons, ih, length_cons, range_succ_eq_map]
    simp [addKey, add_assoc]

lemma offsets_ofKeys :
    (ofKeys keys).offsets = (range (keys.length + 1)).map fun i => (keys.take i).flatten.length := by
  rw [ofKeys, freeze, offsets_foldl_addKey, buffer_foldl_addKey, range_succ, map_append, map_singleton]
  simp

@[simp] lemma buffer_ofKeys : (ofKeys keys).buffer = keys.flatten := by
  simp [ofKeys, freeze, buffer_foldl_addKey]

@[simp] lemma length_offsets_ofKeys : (ofKeys keys).offsets.length = keys.length + 1 := by
  simp [offsets_ofKeys]

end Collected

variable {keys : List Bytes} {i : ℕ} {k : Bytes}

lemma flatten_take_drop (h : keys[i]? = some k) :
    (keys.flatten.take (keys.take (i + 1)).flatten.length).drop (keys.take i).flatten.length = k := by
  obtain ⟨hi, rfl⟩ := List.getElem?_eq_some_iff.1 h
  have hsplit : keys = keys.take i ++ keys[i] :: keys.drop (i + 1) := by simp
  have htake : (keys.take (i + 1)).flatten = (keys.take i).flatten ++ keys[i] := by
    rw [take_succ_eq_append_getElem hi, flatten_append, flatten_singleton]
  have hflat : keys.flatten = (keys.take i).flatten ++ keys[i] ++ (keys.drop (i + 1)).flatten := by
    conv_lhs => rw [hsplit, flatten_append, flatten_cons, ← append_assoc]
  rw [hflat, htake, take_left, drop_left]

/-- **A collector returns the keys it was given.** -/
theorem key?_ofKeys (h : keys[i]? = some k) : (ofKeys keys).key? i = some k := by
  have hi : i < keys.length := (List.getElem?_eq_some_iff.1 h).1
  have h1 : (ofKeys keys).offsets[i]? = some (keys.take i).flatten.length := by
    rw [offsets_ofKeys, getElem?_map, getElem?_range (by omega)]
    rfl
  have h2 : (ofKeys keys).offsets[i + 1]? = some (keys.take (i + 1)).flatten.length := by
    rw [offsets_ofKeys, getElem?_map, getElem?_range (by omega)]
    rfl
  rw [key?, h1, h2, buffer_ofKeys]
  exact congrArg some (flatten_take_drop h)

lemma key_ofKeys (h : keys[i]? = some k) : (ofKeys keys).key i = k := by
  rw [key, key?_ofKeys h]
  rfl

lemma rows_ofKeys (keys : List Bytes) : (ofKeys keys).rows = keys := by
  refine ext_getElem? fun i => ?_
  rw [rows, length_offsets_ofKeys, Nat.add_sub_cancel, getElem?_map]
  rcases lt_or_ge i keys.length with hi | hi
  · rw [getElem?_range hi, Option.map_some, getElem?_eq_getElem hi,
      key_ofKeys (getElem?_eq_getElem hi)]
  · rw [getElem?_eq_none (by simpa using hi), getElem?_eq_none hi]
    rfl

lemma intoRows_ofKeys (keys : List Bytes) : (ofKeys keys).intoRows keys.length = some keys := by
  have hne : (ofKeys keys).offsets ≠ [] := by
    intro h
    have := length_offsets_ofKeys keys
    rw [h] at this
    simp at this
  rw [intoRows, if_pos ⟨hne, by simp⟩, rows_ofKeys]

end InMemRowsKeyCollector

/-! ### The squeezed keys -/

/-- The `nb` bytes at `off`, as `read_unaligned` reads them. -/
def pread (v : Bytes) (off nb : ℕ) : Bytes := (v.drop off).take nb

/-- The loop of `common_prefix_len` over words of eight bytes. -/
def commonPrefixWords (a b : Bytes) (minLen : ℕ) : ℕ → ℕ → ℕ
  | 0, lcp => lcp
  | fuel + 1, lcp =>
    if lcp + 8 ≤ minLen ∧ pread a lcp 8 = pread b lcp 8 then commonPrefixWords a b minLen fuel (lcp + 8) else lcp

/-- One further step of `common_prefix_len`, over `nb` bytes. -/
def commonPrefixStep (a b : Bytes) (minLen nb lcp : ℕ) : ℕ :=
  lcp + if lcp + nb ≤ minLen ∧ pread a lcp nb = pread b lcp nb then nb else 0

def commonPrefixLen (a b : Bytes) : ℕ :=
  let minLen := min a.length b.length
  let lcp := commonPrefixWords a b minLen minLen 0
  let lcp := commonPrefixStep a b minLen 4 lcp
  let lcp := commonPrefixStep a b minLen 2 lcp
  commonPrefixStep a b minLen 1 lcp

/-- `pread!` where a read past the end of the string is undefined. -/
def pread? (v : Bytes) (off nb : ℕ) : Option Bytes := if off + nb ≤ v.length then some (pread v off nb) else none

/-- The test before each step of `common_prefix_len`, with its two reads. -/
def agreeAt? (a b : Bytes) (minLen nb lcp : ℕ) : Option Bool :=
  if lcp + nb ≤ minLen then (pread? a lcp nb).bind fun x => (pread? b lcp nb).map fun y => x = y else some false

def commonPrefixWords? (a b : Bytes) (minLen : ℕ) : ℕ → ℕ → Option ℕ
  | 0, lcp => some lcp
  | fuel + 1, lcp =>
    (agreeAt? a b minLen 8 lcp).bind fun agree =>
      if agree then commonPrefixWords? a b minLen fuel (lcp + 8) else some lcp

def commonPrefixStep? (a b : Bytes) (minLen nb lcp : ℕ) : Option ℕ :=
  (agreeAt? a b minLen nb lcp).map fun agree => lcp + if agree then nb else 0

/-- `common_prefix_len` on memory, where nothing but the two strings may be read. -/
def commonPrefixLen? (a b : Bytes) : Option ℕ :=
  let minLen := min a.length b.length
  (commonPrefixWords? a b minLen minLen 0).bind fun lcp =>
    (commonPrefixStep? a b minLen 4 lcp).bind fun lcp =>
      (commonPrefixStep? a b minLen 2 lcp).bind fun lcp => commonPrefixStep? a b minLen 1 lcp

structure SortedKeysWriter where
  curKey : Bytes := []
  deriving DecidableEq

/-- `SortedKeysWriter::write_key`: the bytes written and the writer after it. -/
def SortedKeysWriter.writeKey (w : SortedKeysWriter) (key : Bytes) : Bytes × SortedKeysWriter :=
  let prefixLen := commonPrefixLen w.curKey key
  let suffixLen := key.length - prefixLen
  if prefixLen = key.length ∧ suffixLen = 0 then (writeLen 0, w)
  else
    (writeLen (suffixLen + 1) ++ writeLen prefixLen ++ key.drop prefixLen,
      ⟨w.curKey.take prefixLen ++ key.drop prefixLen⟩)

structure SortedKeysReader where
  curKey : Bytes := []
  isEqualToPrev : Bool := false
  deriving DecidableEq

/-- `SortedKeysReader::next_key`: the reader and the bytes left.  On an error the stream has been read to its end. -/
def SortedKeysReader.nextKey (r : SortedKeysReader) (input : Bytes) : Except IoErr Unit × SortedKeysReader × Bytes :=
  match readLen input with
  | .error e => (.error e, r, [])
  | .ok (b, input) =>
    if 0 < b then
      match readLen input with
      | .error e => (.error e, { r with isEqualToPrev := false }, [])
      | .ok (prefixLen, input) =>
        match readExact (b - 1) input with
        | .error e => (.error e, { r with isEqualToPrev := false }, [])
        | .ok (suffix, input) => (.ok (), ⟨r.curKey.take prefixLen ++ suffix, false⟩, input)
    else (.ok (), { r with isEqualToPrev := true }, input)

structure SqueezeKeyCollector where
  sortedKeyWriter : SortedKeysWriter := {}
  store : Bytes := []
  deriving DecidableEq

def SqueezeKeyCollector.addKey (c : SqueezeKeyCollector) (key : Bytes) : SqueezeKeyCollector :=
  let (bytes, w) := c.sortedKeyWriter.writeKey key
  ⟨w, c.store ++ bytes⟩

/-- The collector after a sequence of `add_key`; `freeze` only shrinks the capacity of its store. -/
def SqueezeKeyCollector.ofKeys (keys : List Bytes) : SqueezeKeyCollector := keys.foldl addKey {}

/-! ### Common prefixes -/

def CommonPrefix (a b : Bytes) (n : ℕ) : Prop := n ≤ min a.length b.length ∧ a.take n = b.take n

variable {a b : Bytes}

lemma CommonPrefix.mono {m n : ℕ} (h : CommonPrefix a b n) (hm : m ≤ n) : CommonPrefix a b m := by
  refine ⟨hm.trans h.1, ?_⟩
  rw [← min_eq_left hm, ← take_take, ← take_take, h.2]

/-- The test before a step finds out whether the prefix reaches that far. -/
lemma CommonPrefix.add_iff {n : ℕ} (h : CommonPrefix a b n) (nb : ℕ) :
    CommonPrefix a b (n + nb) ↔ n + nb ≤ min a.length b.length ∧ pread a n nb = pread b n nb := by
  refine and_congr_right fun _ => ?_
  rw [take_add, take_add, h.2]
  exact append_right_inj _

/-- The common prefix is known up to `nb` bytes. -/
def CommonPrefixWithin (a b : Bytes) (n nb : ℕ) : Prop :=
  CommonPrefix a b n ∧ ∀ m, CommonPrefix a b m → m < n + nb

lemma CommonPrefix.within {n nb : ℕ} (h : CommonPrefix a b n)
    (hc : ¬(n + nb ≤ min a.length b.length ∧ pread a n nb = pread b n nb)) : CommonPrefixWithin a b n nb :=
  ⟨h, fun _ hm => not_le.1 fun hle => hc ((h.add_iff nb).1 (hm.mono hle))⟩

lemma CommonPrefix.words (fuel : ℕ) {n : ℕ} (h : CommonPrefix a b n) (hfuel : min a.length b.length < n + 8 * (fuel + 1)) :
    CommonPrefixWithin a b (commonPrefixWords a b (min a.length b.length) fuel n) 8 := by
  induction fuel generalizing n with
  | zero => exact ⟨h, fun m hm => hm.1.trans_lt hfuel⟩
  | succ fuel ih =>
    rw [commonPrefixWords]
    split
    case isTrue hc => exact ih ((h.add_iff 8).2 hc) (by omega)
    case isFalse hc => exact h.within hc

/-- **A step halves what is left to find.** -/
lemma CommonPrefixWithin.step {n : ℕ} (nb : ℕ) (h : CommonPrefixWithin a b n (nb + nb)) :
    CommonPrefixWithin a b (commonPrefixStep a b (min a.length b.length) nb n) nb := by
  unfold commonPrefixStep
  split
  case isTrue hc =>
    refine ⟨(h.1.add_iff nb).2 hc, fun m hm => ?_⟩
    rw [add_assoc]
    exact h.2 m hm
  case isFalse hc => exact h.1.within hc

lemma commonPrefixWithin_commonPrefixLen (a b : Bytes) : CommonPrefixWithin a b (commonPrefixLen a b) 1 := by
  have h0 : CommonPrefix a b 0 := ⟨Nat.zero_le _, rfl⟩
  exact (((h0.words _ (by omega)).step 4).step 2).step 1

lemma commonPrefix_commonPrefixLen (a b : Bytes) : CommonPrefix a b (commonPrefixLen a b) :=
  (commonPrefixWithin_commonPrefixLen a b).1

lemma agreeAt?_eq (a b : Bytes) (nb lcp : ℕ) : agreeAt? a b (min a.length b.length) nb lcp =
    some (lcp + nb ≤ min a.length b.length ∧ pread a lcp nb = pread b lcp nb : Bool) := by
  rw [agreeAt?]
  split
  case isTrue hc =>
    rw [pread?, if_pos (hc.trans (min_le_left _ _)), pread?, if_pos (hc.trans (min_le_right _ _))]
    simp [hc]
  case isFalse hc => simp [hc]

lemma commonPrefixWords?_eq (fuel lcp : ℕ) : commonPrefixWords? a b (min a.length b.length) fuel lcp =
    some (commonPrefixWords a b (min a.length b.length) fuel lcp) := by
  induction fuel generalizing lcp with
  | zero => rfl
  | succ fuel ih =>
    rw [commonPrefixWords?, agreeAt?_eq, Option.bind_some, ih, commonPrefixWords]
    simp only [decide_eq_true_eq, apply_ite some]

/-- **The prefix length**: the longest common prefix is found, and no read goes past the shorter string. -/
theorem commonPrefixLen_isGreatest (a b : Bytes) :
    commonPrefixLen? a b = some (commonPrefixLen a b) ∧
      IsGreatest {n | n ≤ a.length ∧ n ≤ b.length ∧ a.take n = b.take n} (commonPrefixLen a b) := by
  refine ⟨?_, ?_⟩
  · simp only [commonPrefixLen?, commonPrefixWords?_eq, commonPrefixStep?, agreeAt?_eq, Option.bind_some, Option.map_some,
      decide_eq_true_eq]
    rfl
  · have hset : {n | n ≤ a.length ∧ n ≤ b.length ∧ a.take n = b.take n} = {n | CommonPrefix a b n} := by
      simp only [CommonPrefix, le_min_iff, and_assoc]
    obtain ⟨h, hlt⟩ := commonPrefixWithin_commonPrefixLen a b
    rw [hset]
    exact ⟨h, fun m hm => Nat.lt_succ_iff.1 (hlt m hm)⟩

/-! ### Reading back what was written -/

lemma nil_le (a : Bytes) : [] ≤ a := not_lt.1 (not_lt_nil a)

lemma take_le (a : Bytes) (n : ℕ) : a.take n ≤ a := by
  induction a generalizing n with
  | nil => simp
  | cons x a ih =>
    cases n with
    | zero => exact nil_le _
    | succ n => exact cons_le_cons x (ih n)

lemma SortedKeysWriter.curKey_writeKey {w : SortedKeysWriter} {key : Bytes} (h : w.curKey ≤ key) :
    (w.writeKey key).2 = ⟨key⟩ := by
  obtain ⟨_, h2⟩ := commonPrefix_commonPrefixLen w.curKey key
  unfold writeKey
  dsimp only
  split
  · rename_i hc
    rw [hc.1, take_length] at h2
    have hkey : key = w.curKey := le_antisymm (h2 ▸ take_le _ _) h
    cases w
    simp_all
  · simp only [h2, take_append_drop]

/-- How a reader may stand to a writer: on the writer's key, or the writer has just started afresh and the reader is
on an earlier key. -/
def ReaderAt (r : SortedKeysReader) (w : SortedKeysWriter) (next : Bytes) : Prop :=
  w.curKey ≤ next ∧ (r.curKey = w.curKey ∨ (w.curKey = [] ∧ r.curKey ≤ next))

/-- **One key reads back**, and it is reported equal to the key before only if it is. -/
theorem SortedKeysReader.nextKey_writeKey {r : SortedKeysReader} {w : SortedKeysWriter} {key : Bytes}
    (h : ReaderAt r w key) (rest : Bytes) :
    ∃ r', r.nextKey ((w.writeKey key).1 ++ rest) = (.ok (), r', rest) ∧ r'.curKey = key ∧
      (r'.isEqualToPrev = true → r.curKey = key) := by
  obtain ⟨hle, hr⟩ := h
  obtain ⟨h1, h2⟩ := commonPrefix_commonPrefixLen w.curKey key
  have hlen : commonPrefixLen w.curKey key ≤ key.length := le_trans h1 (min_le_right _ _)
  unfold SortedKeysWriter.writeKey
  dsimp only
  split
  · -- the key is a prefix of the writer's, hence equal to it
    rename_i hc
    rw [hc.1, take_length] at h2
    have hkey : key = w.curKey := le_antisymm (h2 ▸ take_le _ _) hle
    have hcur : r.curKey = key := by
      rcases hr with hr | ⟨hw, hr⟩
      · rw [hr, hkey]
      · rw [hkey, hw] at hr ⊢
        exact le_antisymm hr (nil_le _)
    refine ⟨{ r with isEqualToPrev := true }, ?_, hcur, fun _ => hcur⟩
    simp [nextKey, readLen_writeLen]
  · rename_i hc
    refine ⟨⟨key, false⟩, ?_, rfl, by simp⟩
    -- whatever the reader stands on, it agrees with the writer on the common prefix
    have htake : r.curKey.take (commonPrefixLen w.curKey key) = key.take (commonPrefixLen w.curKey key) := by
      rcases hr with hr | ⟨hw, -⟩
      · rw [hr, h2]
      · have : commonPrefixLen w.curKey key = 0 := by
          rw [hw] at h1 ⊢
          simpa using h1
        rw [this, take_zero, take_zero]
    have hdrop : key.length - commonPrefixLen w.curKey key = (key.drop (commonPrefixLen w.curKey key)).length := by simp
    simp only [nextKey, append_assoc, readLen_writeLen, Nat.succ_pos, if_true, Nat.add_sub_cancel]
    rw [hdrop, readExact_append]
    simp only [htake, take_append_drop]

/-! ### Whole runs -/

def squeeze : SortedKeysWriter → List Bytes → Bytes
  | _, [] => []
  | w, k :: ks => (w.writeKey k).1 ++ squeeze (w.writeKey k).2 ks

lemma store_foldl_addKey (ks : List Bytes) : ∀ c : SqueezeKeyCollector,
    (ks.foldl SqueezeKeyCollector.addKey c).store = c.store ++ squeeze c.sortedKeyWriter ks := by
  induction ks with
  | nil => intro c; simp [squeeze]
  | cons k ks ih => intro c; rw [foldl_cons, ih]; simp [SqueezeKeyCollector.addKey, squeeze]

lemma store_ofKeys (ks : List Bytes) : (SqueezeKeyCollector.ofKeys ks).store = squeeze {} ks := by
  rw [SqueezeKeyCollector.ofKeys, store_foldl_addKey]
  rfl

/-- What one reader reports for a number of keys: each key, with `is_equal_to_prev` at that time. -/
def SortedKeysReader.readKeys : ℕ → SortedKeysReader → Bytes →
    Except IoErr (List (Bytes × Bool) × SortedKeysReader × Bytes)
  | 0, r, input => .ok ([], r, input)
  | n + 1, r, input =>
    match r.nextKey input with
    | (.error e, _, _) => .error e
    | (.ok (), r, input) =>
      match readKeys n r input with
      | .error e => .error e
      | .ok (out, r', input) => .ok ((r.curKey, r.isEqualToPrev) :: out, r', input)

/-- The stream of a spill: the bytes of each batch and behind them its keys, squeezed by a writer of their own. -/
def spillBytes (batches : List (Bytes × List Bytes)) : Bytes :=
  batches.flatMap fun b => b.1 ++ (SqueezeKeyCollector.ofKeys b.2).store

/-- The same reader over all batches of a spill, given the number of bytes and of keys of each. -/
def SortedKeysReader.readSpill : SortedKeysReader → List (ℕ × ℕ) → Bytes →
    Except IoErr (List (Bytes × Bool) × Bytes)
  | _, [], input => .ok ([], input)
  | r, (width, numKeys) :: shape, input =>
    match readExact width input with
    | .error e => .error e
    | .ok (_, input) =>
      match r.readKeys numKeys input with
      | .error e => .error e
      | .ok (out, r, input) =>
        match r.readSpill shape input with
        | .error e => .error e
        | .ok (out', input) => .ok (out ++ out', input)

/-- Each reported key is the next one of the sequence, and reported equal only to the key in front of it. -/
def Faithful : Bytes → List Bytes → List (Bytes × Bool) → Prop
  | _, [], out => out = []
  | prev, k :: ks, out => ∃ eq out', out = (k, eq) :: out' ∧ (eq = true → prev = k) ∧ Faithful k ks out'

variable {ks : List Bytes}

lemma Faithful.append {ks' : List Bytes} : ∀ {prev : Bytes} {out out' : List (Bytes × Bool)},
    Faithful prev ks out → Faithful (ks.getLast?.getD prev) ks' out' → Faithful prev (ks ++ ks') (out ++ out') := by
  induction ks with
  | nil =>
    rintro prev out out' rfl h'
    exact h'
  | cons k ks ih =>
    rintro _ _ out' ⟨eq, out, rfl, heq, h⟩ h'
    refine ⟨eq, out ++ out', rfl, heq, ih h ?_⟩
    rw [getLast?_cons] at h'
    exact h'

lemma Faithful.keys_eq : ∀ {prev : Bytes} {out : List (Bytes × Bool)},
    Faithful prev ks out → out.map Prod.fst = ks := by
  induction ks with
  | nil =>
    rintro prev out rfl
    rfl
  | cons k ks ih =>
    rintro _ _ ⟨_, _, rfl, -, h⟩
    rw [map_cons, ih h]

lemma Faithful.prev_eq : ∀ {prev : Bytes} {out : List (Bytes × Bool)} {i : ℕ} {k : Bytes},
    Faithful prev ks out → out[i]? = some (k, true) → (prev :: ks)[i]? = some k := by
  induction ks with
  | nil =>
    rintro prev out i k rfl hi
    simp at hi
  | cons k₀ ks ih =>
    rintro _ _ i k ⟨eq, _, rfl, heq, h⟩ hi
    cases i with
    | zero =>
      obtain ⟨rfl, rfl⟩ : k₀ = k ∧ eq = true := by simpa using hi
      simp [heq rfl]
    | succ i => exact ih h (by simpa using hi)

/-- One batch: the writer stands on the reader's key or at its start, and no key precedes the reader's. -/
lemma SortedKeysReader.readKeys_squeeze : ∀ {r : SortedKeysReader} {w : SortedKeysWriter},
    (w.curKey = [] ∨ w.curKey = r.curKey) → (r.curKey :: ks).Pairwise (· ≤ ·) → ∀ rest : Bytes,
    ∃ out r', r.readKeys ks.length (squeeze w ks ++ rest) = .ok (out, r', rest) ∧ Faithful r.curKey ks out ∧
      r'.curKey = ks.getLast?.getD r.curKey := by
  induction ks with
  | nil => exact fun _ _ rest => ⟨[], _, rfl, rfl, rfl⟩
  | cons k ks ih =>
    intro r w hw hsorted rest
    obtain ⟨hle, htail⟩ := pairwise_cons.1 hsorted
    have hk : r.curKey ≤ k := hle k mem_cons_self
    have hat : ReaderAt r w k := by
      rcases hw with hw | hw
      · exact ⟨hw ▸ nil_le k, .inr ⟨hw, hk⟩⟩
      · exact ⟨hw ▸ hk, .inl hw.symm⟩
    obtain ⟨r', hread, hcur, heq⟩ := nextKey_writeKey hat (squeeze (w.writeKey k).2 ks ++ rest)
    have hw' : (w.writeKey k).2.curKey = r'.curKey := by rw [SortedKeysWriter.curKey_writeKey hat.1, hcur]
    obtain ⟨out, r'', hreads, hfaith, hlast⟩ := ih (.inr hw') (hcur.symm ▸ htail) rest
    refine ⟨(r'.curKey, r'.isEqualToPrev) :: out, r'', ?_, ⟨_, out, by rw [hcur], heq, hcur ▸ hfaith⟩, ?_⟩
    · rw [length_cons, readKeys, squeeze, append_assoc, hread]
      simp only [hreads]
    · rw [hlast, hcur, getLast?_cons]
      rfl

/-- All batches, from whatever key the reader stands on: it is the writers that start afresh. -/
lemma SortedKeysReader.readSpill_spillBytes (batches : List (Bytes × List Bytes)) : ∀ {r : SortedKeysReader},
    (r.curKey :: batches.flatMap Prod.snd).Pairwise (· ≤ ·) → ∀ rest : Bytes,
    ∃ out, r.readSpill (batches.map fun b => (b.1.length, b.2.length)) (spillBytes batches ++ rest) = .ok (out, rest) ∧
      Faithful r.curKey (batches.flatMap Prod.snd) out := by
  induction batches with
  | nil => exact fun _ rest => ⟨[], rfl, rfl⟩
  | cons b batches ih =>
    obtain ⟨data, ks⟩ := b
    intro r hsorted rest
    rw [flatMap_cons] at hsorted
    have hks : (r.curKey :: ks).Pairwise (· ≤ ·) := (pairwise_append.1 (show
      ((r.curKey :: ks) ++ batches.flatMap Prod.snd).Pairwise (· ≤ ·) from hsorted)).1
    obtain ⟨out, r', hread, hfaith, hlast⟩ :=
      readKeys_squeeze (w := {}) (.inl rfl) hks (spillBytes batches ++ rest)
    -- the reader now stands on the last key of the batch, which no later key precedes
    have hsorted' : (r'.curKey :: batches.flatMap Prod.snd).Pairwise (· ≤ ·) := by
      rw [hlast]
      refine hsorted.sublist ?_
      cases hks' : ks.getLast? with
      | none =>
        obtain rfl := getLast?_eq_none_iff.1 hks'
        exact Sublist.refl _
      | some k =>
        obtain ⟨_, rfl⟩ := getLast?_eq_some_iff.1 hks'
        refine (Sublist.trans ?_ (sublist_cons_self _ _))
        simp
    obtain ⟨out', hspill, hfaith'⟩ := ih hsorted' rest
    refine ⟨out ++ out', ?_, hfaith.append (hlast ▸ hfaith')⟩
    have hbytes : spillBytes ((data, ks) :: batches) ++ rest =
        data ++ (squeeze {} ks ++ (spillBytes batches ++ rest)) := by
      simp [spillBytes, store_ofKeys]
    rw [map_cons, readSpill, hbytes, readExact_append]
    simp only [hread, hspill]

/-- **The squeezed codec is lossless on sorted runs.**  However a non-decreasing sequence of keys is cut into batches,
each squeezed by a fresh writer, one reader reads all of them back and nothing behind them; a key it reports equal to
the key before it is equal to it, where the empty key stands before the first. -/
theorem readSpill_lossless (batches : List (Bytes × List Bytes)) (rest : Bytes)
    (hsorted : (batches.flatMap Prod.snd).Pairwise (· ≤ ·)) :
    ∃ out, ({} : SortedKeysReader).readSpill (batches.map fun b => (b.1.length, b.2.length))
        (spillBytes batches ++ rest) = .ok (out, rest) ∧
      out.map Prod.fst = batches.flatMap Prod.snd ∧
      ∀ (i : ℕ) (k : Bytes), out[i]? = some (k, true) → ([] :: batches.flatMap Prod.snd)[i]? = some k := by
  have h0 : (({} : SortedKeysReader).curKey :: batches.flatMap Prod.snd).Pairwise (· ≤ ·) :=
    pairwise_cons.2 ⟨fun k _ => nil_le k, hsorted⟩
  obtain ⟨out, hread, hfaith⟩ := SortedKeysReader.readSpill_spillBytes batches h0 rest
  exact ⟨out, hread, hfaith.keys_eq, fun _ _ hi => hfaith.prev_eq hi⟩

/-- Two batches that meet in the middle of a run of equal keys; the second starts with the first's last key. -/
theorem readSpill_lossless_two_batches :
    ∃ out, ({} : SortedKeysReader).readSpill [(1, 3), (0, 2)]
        (spillBytes [([7], [[], [1], [1]]), ([], [[1], [1, 2]])] ++ [9]) = .ok (out, [9]) ∧
      out.map Prod.fst = [[], [1], [1], [1], [1, 2]] ∧
      ∀ (i : ℕ) (k : Bytes), out[i]? = some (k, true) → [[], [], [1], [1], [1], [1, 2]][i]? = some k :=
  readSpill_lossless [([7], [[], [1], [1]]), ([], [[1], [1, 2]])] [9] (by decide)

end Auron.Sort
