import Auron.Io.BatchSerde

/-!
# What is written is read back

Each writer of `io/batch_serde.rs` against its reader: the parts that all arrays share first (lengths, bits, transposed
values, offsets), then arrays by induction on their type, then batches.
-/

namespace Auron.Io

open Auron.Lib List ArrayRef Reads

namespace BatchSerde

/-! ### Lengths -/

lemma parses_readU8 (v : UInt8) : readU8.Parses [v] v := by
  intro e _
  unfold readU8
  rw [run_bind, run_exact]
  simp [Source.list]

variable {n : ℕ}

lemma parses_readLenLoop_last (h : n < 128) (bytes len factor : ℕ) :
    (readLenLoop (bytes + 1) len factor).Parses [UInt8.ofNat n] (len + n * factor) := by
  refine (parses_readU8 _).bind_last ?_
  rw [if_pos (ends h).1, (ends h).2]
  exact .pure _

lemma parses_readLenLoop_more (h : n < 128) {bytes len factor total : ℕ} {rest : Bytes}
    (hrest : (readLenLoop bytes (len + n * factor) (factor * 128)).Parses rest total) :
    (readLenLoop (bytes + 1) len factor).Parses (UInt8.ofNat (128 + n) :: rest) total := by
  refine (parses_readU8 _).bind ?_
  rw [if_neg (continues h).1, (continues h).2]
  exact hrest

lemma parses_readLenLoop (bytes : ℕ) : ∀ fuel n len factor : ℕ, n ≤ fuel → n < 128 ^ (bytes + 1) →
    (readLenLoop (bytes + 1) len factor).Parses (writeLenAux fuel n) (len + n * factor) := by
  induction bytes with
  | zero =>
    intro fuel n len factor hn hlt
    cases fuel with
    | zero => exact parses_readLenLoop_last hlt 0 len factor
    | succ fuel =>
      rw [writeLenAux, if_neg (by omega)]
      exact parses_readLenLoop_last hlt 0 len factor
  | succ bytes ih =>
    intro fuel n len factor _ hlt
    cases fuel with
    | zero => exact parses_readLenLoop_last (by omega) (bytes + 1) len factor
    | succ fuel =>
      rw [writeLenAux]
      split
      · apply parses_readLenLoop_more (Nat.mod_lt _ (by omega))
        rw [← add_digits n]
        refine ih fuel (n / 128) _ _ (by omega) ?_
        rw [pow_succ] at hlt
        exact Nat.div_lt_of_lt_mul (by rwa [mul_comm] at hlt)
      · exact parses_readLenLoop_last (by omega) (bytes + 1) len factor

/-- **A length is read back.** -/
theorem parses_readLen (h : n < 2 ^ 64) : readLen.Parses (writeLen n) n := by
  have hlt : n < 128 ^ (9 + 1) := lt_of_lt_of_le h (by decide)
  have hparses := parses_readLenLoop 9 n n 0 1 le_rfl hlt
  rwa [zero_add, mul_one] at hparses

/-! ### Bits -/

variable {i : ℕ}

/-- **The bits written are the bits of the buffer from its offset on.** -/
theorem bitAt_writeBitsBuffer (b : BitBuffer) (hi : i < b.len) : bitAt (writeBitsBuffer b) i = b.get i :=
  bitAt_packBits b.get hi

lemma parses_readBitsBuffer (b : BitBuffer) : (readBitsBuffer b.len).Parses (writeBitsBuffer b) (writeBitsBuffer b) := by
  unfold readBitsBuffer
  rw [← length_packBits b.len b.get]
  exact .exact _

def readBackNulls (nulls : Option BitBuffer) (numRows : ℕ) : Option BitBuffer :=
  nulls.map fun b => ⟨writeBitsBuffer b, 0, numRows⟩

variable {nulls : Option BitBuffer}

lemma parses_readNulls (h : NullsHold nulls n) : (readNulls n).Parses (writeNulls nulls) (readBackNulls nulls n) := by
  cases nulls with
  | none =>
    exact (parses_readLen (by norm_num)).bind_last (.pure _)
  | some b =>
    obtain ⟨rfl, -⟩ := h b rfl
    refine (parses_readLen (by norm_num)).bind ?_
    exact (parses_readBitsBuffer b).bind_last (.pure _)

lemma nullAt_readBackNulls (h : NullsHold nulls n) (hi : i < n) :
    nullAt (readBackNulls nulls n) i = nullAt nulls i := by
  cases nulls with
  | none => rfl
  | some b =>
    obtain ⟨rfl, -⟩ := h b rfl
    have hget : BitBuffer.get ⟨writeBitsBuffer b, 0, b.len⟩ i = b.get i := by
      rw [BitBuffer.get, zero_add, bitAt_writeBitsBuffer b hi]
    simp [nullAt, readBackNulls, hget]

/-! ### Values of a width -/

/-- Writer and reader either both transpose, with buffers that hold values of a width, or neither does. -/
def Enough (w r : TransposeOpt) (width num : ℕ) : Prop :=
  match w, r with
  | .disabled, .disabled => True
  | .transpose size, .transpose size' => width * num ≤ size ∧ width * num ≤ size'
  | _, _ => False

variable {w r : TransposeOpt} {width : ℕ}

lemma Enough.mono {width' num : ℕ} (h : Enough w r width num) (hle : width' ≤ width) : Enough w r width' num := by
  have hmul : width' * num ≤ width * num := Nat.mul_le_mul_right _ hle
  cases w with
  | disabled => cases r with
    | disabled => trivial
    | transpose size' => exact h
  | transpose size => cases r with
    | disabled => exact h
    | transpose size' => exact ⟨le_trans hmul h.1, le_trans hmul h.2⟩

lemma writeRaw_spec {num : ℕ} {raw : Bytes} (hlen : raw.length = width * num)
    (henough : 1 < width → Enough w r width num) :
    ∃ bytes, writeRaw w width num raw = some bytes ∧ (readRaw r width num).Parses bytes raw := by
  have hexact : (exact (width * num) : ReadBytes Bytes).Parses raw raw := hlen ▸ Reads.Parses.exact raw
  by_cases hw : 1 < width
  · have henough := henough hw
    cases w with
    | disabled => cases r with
      | disabled => exact ⟨raw, rfl, hexact⟩
      | transpose size' => exact henough.elim
    | transpose size => cases r with
      | disabled => exact henough.elim
      | transpose size' =>
        refine ⟨transpose raw width num, by simp [writeRaw, hw, henough.1], ?_⟩
        have hread : (exact (width * num) : ReadBytes Bytes).Parses (transpose raw width num)
            (transpose raw width num) := by
          have hexact := Reads.Parses.exact (ε := IoErr) (transpose raw width num)
          rwa [length_transpose] at hexact
        simp only [readRaw, if_pos hw, if_pos henough.2]
        refine hread.bind_last ?_
        rw [transpose_transpose hlen]
        exact .pure _
  · -- single bytes are not transposed
    refine ⟨raw, ?_, ?_⟩
    · cases w <;> simp [writeRaw, hw]
    · cases r with
      | disabled => exact hexact
      | transpose size' =>
        simp only [readRaw, if_neg hw]
        exact hexact

/-! ### Offsets -/

lemma le32s_flatMap (ns : List UInt32) : le32s (ns.flatMap le32) = ns := by
  induction ns with
  | nil => rfl
  | cons n ns ih =>
    have hlt : n.toNat < 2 ^ 32 := n.toNat_lt
    show UInt32.ofNat _ :: le32s (ns.flatMap le32) = _
    rw [← UInt32.ofNat_toNat (x := n)]
    congr 2
    simp only [UInt8.toNat_ofNat', UInt32.ofNat_toNat]
    omega

lemma length_flatMap_le32 (ns : List UInt32) : (ns.flatMap le32).length = 4 * ns.length := by
  induction ns with
  | nil => rfl
  | cons n ns ih =>
    simp [le32]
    omega

def rebase (offsets : List ℕ) : List ℕ := offsets.map (· - offsetAt offsets 0)

lemma accumulate_offsetLens : ∀ (offset : ℕ) (offsets : List ℕ) (first : ℕ), first ≤ offset →
    (offset :: offsets).Pairwise (· ≤ ·) →
    accumulate (UInt32.ofNat (offset - first)) (offsetLens (offset :: offsets) ++ [0]) =
      (offset :: offsets).map fun o => UInt32.ofNat (o - first)
  | offset, [], first, _, _ => by simp [offsetLens, accumulate]
  | offset, next :: offsets, first, hfirst, hsorted => by
    have hle : offset ≤ next := (pairwise_cons.1 hsorted).1 next mem_cons_self
    have hsum : UInt32.ofNat (offset - first) + UInt32.ofNat (next - offset) = UInt32.ofNat (next - first) := by
      rw [← UInt32.ofNat_add]
      congr 1
      omega
    have ih := accumulate_offsetLens next offsets first (by omega) (pairwise_cons.1 hsorted).2
    have hlens : offsetLens (offset :: next :: offsets) =
        UInt32.ofNat (next - offset) :: offsetLens (next :: offsets) := rfl
    rw [hlens, cons_append, accumulate, hsum, ih, map_cons, map_cons]
    congr 1
    rw [← hsum, UInt32.add_sub_cancel]

section Offsets

variable {offsets : List ℕ} {bound : ℕ}

variable {i : ℕ}

lemma offsetAt_mem (hi : i < offsets.length) : offsetAt offsets i ∈ offsets := by
  rw [offsetAt, getD_eq_getElem _ _ hi]
  exact getElem_mem hi

lemma offsetAt_mono (h : OffsetsHold offsets bound) {j : ℕ} (hij : i ≤ j) (hj : j < offsets.length) :
    offsetAt offsets i ≤ offsetAt offsets j := by
  rw [offsetAt, offsetAt, getD_eq_getElem _ _ (by omega), getD_eq_getElem _ _ hj]
  rcases Nat.eq_or_lt_of_le hij with rfl | hlt
  · exact le_rfl
  · exact pairwise_iff_getElem.1 h.sorted i j (by omega) hj hlt

lemma offsetAt_rebase (hi : i < offsets.length) :
    offsetAt (rebase offsets) i = offsetAt offsets i - offsetAt offsets 0 := by
  have hi' : i < (rebase offsets).length := by simpa [rebase] using hi
  have hget : offsetAt offsets i = offsets[i] := getD_eq_getElem _ _ hi
  rw [hget, offsetAt, getD_eq_getElem _ _ hi']
  exact getElem_map _

lemma length_offsetLens : (offsetLens offsets).length = offsets.length - 1 := by
  simp [offsetLens]

variable (h : OffsetsHold offsets bound)

include h

lemma accumulate_rebase : accumulate 0 (offsetLens offsets ++ [0]) = (rebase offsets).map UInt32.ofNat := by
  cases offsets with
  | nil => exact absurd rfl h.nonempty
  | cons first offsets =>
    have hacc := accumulate_offsetLens first offsets first le_rfl h.sorted
    rw [Nat.sub_self] at hacc
    rw [rebase, map_map]
    exact hacc

lemma rebase_small {o : ℕ} (ho : o ∈ rebase offsets) : o < 2 ^ 31 := by
  obtain ⟨o', ho', rfl⟩ := mem_map.1 ho
  exact lt_of_le_of_lt (Nat.sub_le _ _) (h.small o' ho')

lemma map_toNat_rebase : ((rebase offsets).map UInt32.ofNat).map UInt32.toNat = rebase offsets := by
  rw [map_map]
  conv_rhs => rw [← map_id (rebase offsets)]
  exact map_congr_left fun o ho => UInt32.toNat_ofNat_of_lt' ((rebase_small h ho).trans (by decide))

/-- **Offsets are read back from zero on.** -/
theorem writeOffsets_spec {w r : TransposeOpt} (henough : Enough w r 4 (offsets.length - 1)) :
    ∃ bytes, writeOffsets w offsets = some bytes ∧
      (readOffsets r (offsets.length - 1)).Parses bytes ((rebase offsets).map UInt32.ofNat) := by
  have henough' : 1 < 4 → Enough w r 4 (offsetLens offsets).length := fun _ => by rwa [length_offsetLens]
  obtain ⟨bytes, hwrite, hread⟩ := writeRaw_spec (length_flatMap_le32 (offsetLens offsets)) henough'
  refine ⟨bytes, hwrite, ?_⟩
  rw [length_offsetLens] at hread
  refine hread.bind_last ?_
  rw [le32s_flatMap, accumulate_rebase h]
  exact .pure _

lemma parses_lastOffset : (lastOffset ((rebase offsets).map UInt32.ofNat)).Parses [] (offsetRange offsets).2 := by
  have hpos := h.length_pos
  have hlen : (rebase offsets).length = offsets.length := by simp [rebase]
  have hlast : ((rebase offsets).map UInt32.ofNat).getLastD 0 = UInt32.ofNat (offsetRange offsets).2 := by
    rw [getLastD_eq_getLast?, getLast?_eq_getElem?, length_map, getElem?_map, hlen,
      getElem?_eq_getElem (by omega)]
    have hat := offsetAt_rebase (show offsets.length - 1 < offsets.length by omega)
    rw [offsetAt, getD_eq_getElem _ _ (by omega)] at hat
    exact congrArg UInt32.ofNat hat
  have hsmall : (offsetRange offsets).2 < 2 ^ 31 :=
    lt_of_le_of_lt (Nat.sub_le _ _) (h.small _ (offsetAt_mem (by omega)))
  unfold lastOffset
  rw [hlast, UInt32.toNat_ofNat_of_lt' (hsmall.trans (by decide)), if_pos hsmall]
  exact .pure _

lemma offsetsValid_rebase : offsetsValid ((rebase offsets).map UInt32.ofNat) (offsetRange offsets).2 = true := by
  unfold offsetsValid
  rw [Bool.and_eq_true, all_eq_true, decide_eq_true_eq]
  constructor
  · intro o ho
    rw [decide_eq_true_eq]
    have ho' : o.toNat ∈ rebase offsets := by
      rw [← map_toNat_rebase h]
      exact mem_map_of_mem ho
    refine ⟨rebase_small h ho', ?_⟩
    obtain ⟨_, hmem, _⟩ := mem_map.1 ho'
    obtain ⟨i, hi, rfl⟩ := getElem_of_mem hmem
    have hmono := offsetAt_mono h (show i ≤ offsets.length - 1 by omega) (by omega)
    rw [offsetAt, getD_eq_getElem _ _ hi] at hmono
    show o.toNat ≤ offsetAt offsets (offsets.length - 1) - offsetAt offsets 0
    omega
  · have hsorted : (rebase offsets).Pairwise (· ≤ ·) := by
      rw [rebase, pairwise_map]
      exact h.sorted.imp fun hle => by omega
    rw [← map_toNat_rebase h, pairwise_map] at hsorted
    exact hsorted

lemma offsetRange_le : (offsetRange offsets).1 + (offsetRange offsets).2 ≤ bound := by
  have hpos := h.length_pos
  have hmono := offsetAt_mono h (Nat.zero_le (offsets.length - 1)) (by omega)
  have hle := h.le _ (offsetAt_mem (show offsets.length - 1 < offsets.length by omega))
  simp only [offsetRange]
  omega

end Offsets

/-! ### Arrays -/

/-- The arrays are logically equal: they have the same type, the same length, the same nulls and the same values. -/
structure SameRows (b a : ArrayRef) : Prop where
  dataType : b.dataType = a.dataType
  len : b.len = a.len
  isNull : ∀ i < a.len, b.isNull i = a.isNull i
  value : ∀ i < a.len, b.value i = a.value i

lemma unlessNull_congr {nulls' : Option BitBuffer} {v v' : Value} (hn : nullAt nulls' i = nullAt nulls i)
    (hv : v' = v) : unlessNull nulls' i v' = unlessNull nulls i v := by
  rw [unlessNull, unlessNull, hn, hv]

variable (validUtf8 : Bytes → Bool)

/-- The array is written, and what is read back of it is logically equal. -/
def RoundTrips (w r : TransposeOpt) (a : ArrayRef) : Prop :=
  ∃ bytes b, writeArray a.dataType w a = some bytes ∧ (readArray validUtf8 a.dataType r a.len).Parses bytes b ∧
    SameRows b a

lemma roundTrips_null (w r : TransposeOpt) (n : ℕ) : RoundTrips validUtf8 w r (.null n) :=
  ⟨[], .null n, rfl, .pure _, rfl, rfl, fun _ _ => rfl, fun _ _ => rfl⟩

lemma roundTrips_boolean (w r : TransposeOpt) {values : BitBuffer}
    (h : (boolean values nulls).Valid validUtf8) : RoundTrips validUtf8 w r (.boolean values nulls) := by
  obtain ⟨-, hnulls⟩ := h
  refine ⟨_, .boolean ⟨writeBitsBuffer values, 0, values.len⟩ (readBackNulls nulls values.len), rfl, ?_, rfl, rfl, ?_, ?_⟩
  · exact (parses_readNulls hnulls).bind ((parses_readBitsBuffer values).bind_last (.pure _))
  · exact fun i hi => nullAt_readBackNulls hnulls hi
  · intro i hi
    apply unlessNull_congr (nullAt_readBackNulls hnulls hi)
    rw [BitBuffer.get, zero_add, bitAt_writeBitsBuffer values hi]

variable {t : PrimitiveType}

lemma parses_readPrimitive {opt : TransposeOpt} {bytes values : Bytes} (hvalid : t.isValid = true)
    (htz : (DataType.primitive t).noTimezone = true)
    (h : (readPrimitiveArray t opt n).Parses bytes (.primitive t.dataTypeConst values n nulls)) :
    (readPrimitive t opt n).Parses bytes (.primitive t values n nulls) := by
  refine h.bind_last ?_
  cases t with
  | decimal128 precision scale =>
    show (tryNew _ _).Parses _ _
    rw [hvalid, tryNew]
    exact .pure _
  | timestamp unit timezone =>
    cases timezone with
    | none => exact .pure _
    | some timezone => cases htz
  | _ => exact .pure _

lemma roundTrips_primitive {values : Bytes} (h : (primitive t values n nulls).Valid validUtf8)
    (htz : (DataType.primitive t).noTimezone = true) (henough : Enough w r (bytesWidth (.primitive t)) n) :
    RoundTrips validUtf8 w r (.primitive t values n nulls) := by
  obtain ⟨hvalid, hlen, hnulls⟩ := h
  have hwidth : 1 < t.width → Enough w r t.width n := by
    intro _
    rw [bytesWidth, if_neg (by omega)] at henough
    exact henough
  obtain ⟨bytes, hwrite, hread⟩ := writeRaw_spec hlen hwidth
  refine ⟨writeNulls nulls ++ bytes, .primitive t values n (readBackNulls nulls n), ?_, ?_, rfl, rfl, ?_, ?_⟩
  · rw [dataType, writeArray, ← hlen, take_length, hwrite]
    rfl
  · apply parses_readPrimitive hvalid htz
    exact (parses_readNulls hnulls).bind (hread.bind_last (.pure _))
  · exact fun i hi => nullAt_readBackNulls hnulls hi
  · exact fun i hi => unlessNull_congr (nullAt_readBackNulls hnulls hi) rfl

variable {offsets : List ℕ}

lemma length_rebase : (rebase offsets).length = offsets.length := by simp [rebase]

lemma offsetAt_le_offsetAt {bound : ℕ} (h : OffsetsHold offsets bound) (hi : i < offsets.length - 1) :
    offsetAt offsets 0 ≤ offsetAt offsets i ∧ offsetAt offsets i ≤ offsetAt offsets (i + 1) ∧
      offsetAt offsets (i + 1) ≤ offsetAt offsets (offsets.length - 1) :=
  ⟨offsetAt_mono h (Nat.zero_le i) (by omega), offsetAt_mono h (Nat.le_succ i) (by omega),
    offsetAt_mono h (by omega) (by omega)⟩

abbrev dataRange (offsets : List ℕ) (data : Bytes) : Bytes :=
  (data.drop (offsetRange offsets).1).take (offsetRange offsets).2

lemma slot_rebase {data : Bytes} (h : OffsetsHold offsets data.length) (hi : i < offsets.length - 1) :
    slot (rebase offsets) (dataRange offsets data) i = slot offsets data i := by
  obtain ⟨_, _, _⟩ := offsetAt_le_offsetAt h hi
  unfold slot
  rw [offsetAt_rebase (by omega), offsetAt_rebase (by omega), drop_take, take_take, drop_drop]
  simp only [offsetRange]
  congr 1
  · omega
  · congr 1
    omega

lemma roundTrips_bytes {isUtf8 : Bool} {data : Bytes}
    (h : (bytes isUtf8 offsets data nulls).Valid validUtf8) (henough : Enough w r 4 (offsets.length - 1)) :
    RoundTrips validUtf8 w r (.bytes isUtf8 offsets data nulls) := by
  obtain ⟨hoffsets, hnulls, hutf8⟩ := h
  obtain ⟨lens, hwrite, hread⟩ := writeOffsets_spec hoffsets henough
  have hrange := offsetRange_le hoffsets
  have hlen : (dataRange offsets data).length = (offsetRange offsets).2 := by
    rw [length_take, length_drop]
    omega
  refine ⟨writeNulls nulls ++ lens ++ dataRange offsets data, .bytes isUtf8 (rebase offsets)
    (dataRange offsets data) (readBackNulls nulls (offsets.length - 1)), ?_, ?_, rfl, ?_, ?_, ?_⟩
  · have hbytes : writeBytesArray w offsets data nulls = some (writeNulls nulls ++ lens ++ dataRange offsets data) := by
      simp only [writeBytesArray, hwrite]
      exact if_pos hrange
    cases isUtf8 <;> exact hbytes
  · have hparses : (readBytesArray validUtf8 isUtf8 r (offsets.length - 1)).Parses
        (writeNulls nulls ++ lens ++ dataRange offsets data)
        (.bytes isUtf8 (rebase offsets) (dataRange offsets data) (readBackNulls nulls (offsets.length - 1))) := by
      rw [append_assoc]
      refine (parses_readNulls hnulls).bind (hread.bind ((parses_lastOffset hoffsets).bind_first ?_))
      refine (hlen ▸ Reads.Parses.exact _ : (exact (offsetRange offsets).2 : ReadBytes Bytes).Parses _ _).bind_last ?_
      rw [map_toNat_rebase hoffsets, hlen, offsetsValid_rebase hoffsets, tryNew, if_pos]
      · exact .pure _
      · rw [Bool.true_and, Bool.or_eq_true, all_eq_true]
        cases isUtf8 with
        | false => exact .inl rfl
        | true =>
          refine .inr fun i hi => ?_
          rw [slot_rebase hoffsets (mem_range.1 hi)]
          exact hutf8 rfl i (mem_range.1 hi)
    cases isUtf8 <;> exact hparses
  · exact congrArg (· - 1) length_rebase
  · exact fun i hi => nullAt_readBackNulls hnulls hi
  · exact fun i hi => unlessNull_congr (nullAt_readBackNulls hnulls hi) (by rw [slot_rebase hoffsets hi])

lemma map_span_rebase {γ : Type} {bound : ℕ} (h : OffsetsHold offsets bound) {f g : ℕ → γ}
    (hfg : ∀ k < (offsetRange offsets).2, f k = g ((offsetRange offsets).1 + k)) (hi : i < offsets.length - 1) :
    (span (rebase offsets) i).map f = (span offsets i).map g := by
  obtain ⟨_, _, _⟩ := offsetAt_le_offsetAt h hi
  unfold span
  rw [offsetAt_rebase (by omega), offsetAt_rebase (by omega), map_map, map_map]
  have hlen : offsetAt offsets (i + 1) - offsetAt offsets 0 - (offsetAt offsets i - offsetAt offsets 0) =
      offsetAt offsets (i + 1) - offsetAt offsets i := by omega
  rw [hlen]
  refine map_congr_left fun j hj => ?_
  rw [mem_range] at hj
  simp only [offsetRange] at hfg
  have hk := hfg (offsetAt offsets i - offsetAt offsets 0 + j) (by omega)
  show f (offsetAt offsets i - offsetAt offsets 0 + j) = g (offsetAt offsets i + j)
  rw [hk]
  congr 1
  omega

variable {a : ArrayRef} {range : ℕ × ℕ}

lemma RoundTrips.of_slice {validUtf8 : Bytes → Bool} (h : RoundTrips validUtf8 w r (a.slice range.1 range.2))
    (ha : a.Valid validUtf8) (hrange : range.1 + range.2 ≤ a.len) :
    ∃ bytes b, writeArray a.dataType w (a.slice range.1 range.2) = some bytes ∧
      (readArray validUtf8 a.dataType r range.2).Parses bytes b ∧ b.dataType = a.dataType ∧ b.len = range.2 ∧
      (∀ k < range.2, b.isNull k = a.isNull (range.1 + k)) ∧ ∀ k < range.2, b.value k = a.value (range.1 + k) := by
  obtain ⟨bytes, b, hwrite, hread, hsame⟩ := h
  have hlen := len_slice a ha hrange
  rw [dataType_slice] at hwrite hread
  rw [hlen] at hread
  refine ⟨bytes, b, hwrite, hread, by rw [hsame.dataType, dataType_slice], by rw [hsame.len, hlen], ?_, ?_⟩
  · intro k hk
    rw [hsame.isNull k (by rwa [hlen]), isNull_slice]
  · intro k hk
    rw [hsame.value k (by rwa [hlen]), value_slice a hk]

variable {mask : ℕ → Bool}

lemma nonNullable_eq_true (h : ∀ i < a.len, a.isNull i = true → mask i = true) : nonNullable mask a = true := by
  unfold nonNullable
  rw [all_eq_true]
  intro i hi
  cases hnull : a.isNull i with
  | false => rfl
  | true => simp [h i (mem_range.1 hi) hnull]

lemma trySlice_eq (h : range.1 + range.2 ≤ a.len) : trySlice a range = some (a.slice range.1 range.2) := if_pos h

lemma bytesWidth_le {t : DataType} {types : List DataType} (ht : t ∈ types) :
    bytesWidth t ≤ (types.map bytesWidth).foldr max 0 := by
  induction types with
  | nil => cases ht
  | cons t' types ih =>
    rcases mem_cons.1 ht with rfl | ht
    · exact le_max_left _ _
    · exact le_trans (ih ht) (le_max_right _ _)

lemma enough_withTranspose {types types' : List DataType} (h : width ≤ (types.map bytesWidth).foldr max 0)
    (h' : width ≤ (types'.map bytesWidth).foldr max 0) (n : ℕ) :
    Enough (withTranspose n types) (withTranspose n types') width n := by
  constructor
  · rw [mul_comm]
    exact Nat.mul_le_mul_left _ h
  · rw [mul_comm]
    exact Nat.mul_le_mul_left _ h'

variable {name : String} {nullable : Bool}

lemma roundTrips_list {values : ArrayRef} (h : (list name nullable offsets values nulls).Valid validUtf8)
    (henough : Enough w r 4 (offsets.length - 1))
    (hchild : RoundTrips validUtf8 (withTranspose (offsetRange offsets).2 [values.dataType])
      (withTranspose (offsetRange offsets).2 [values.dataType])
      (values.slice (offsetRange offsets).1 (offsetRange offsets).2)) :
    RoundTrips validUtf8 w r (.list name nullable offsets values nulls) := by
  obtain ⟨hoffsets, hnulls, hvalues, hnonnull⟩ := h
  obtain ⟨lens, hwrite, hread⟩ := writeOffsets_spec hoffsets henough
  have hrange := offsetRange_le hoffsets
  obtain ⟨child, b, hwriteChild, hreadChild, htype, hlen, hisNull, hvalue⟩ := hchild.of_slice hvalues hrange
  refine ⟨writeNulls nulls ++ lens ++ child, .list name nullable (rebase offsets) b
    (readBackNulls nulls (offsets.length - 1)), ?_, ?_, ?_, ?_, ?_, ?_⟩
  · simp [dataType, writeArray, hwrite, trySlice_eq hrange, hwriteChild]
  · rw [append_assoc]
    refine (parses_readNulls hnulls).bind (hread.bind ((parses_lastOffset hoffsets).bind_first (hreadChild.bind_last ?_)))
    have hcheck : (nullable || nonNullable (fun _ => false) b) = true := by
      cases nullable with
      | true => rfl
      | false =>
        refine nonNullable_eq_true fun i hi hnull => ?_
        rw [hlen] at hi
        rw [hisNull i hi, hnonnull rfl _ (by omega)] at hnull
        cases hnull
    rw [hlen, offsetsValid_rebase hoffsets, htype, decide_eq_true rfl, hcheck, map_toNat_rebase hoffsets]
    exact .pure _
  · rw [dataType, dataType, htype]
  · exact congrArg (· - 1) length_rebase
  · exact fun i hi => nullAt_readBackNulls hnulls hi
  · intro i hi
    refine unlessNull_congr (nullAt_readBackNulls hnulls hi) ?_
    rw [map_span_rebase hoffsets hvalue hi]

structure SameColumns (cols' cols : Columns) (mask : ℕ → Bool) (n : ℕ) : Prop where
  fields : cols'.fields = cols.fields
  values : ∀ i < n, cols'.values i = cols.values i
  nonNullable : ∀ mask' : ℕ → Bool, (∀ i < n, mask' i = mask i) → columnsNonNullable mask' cols' = true

lemma sameColumns_nil (mask : ℕ → Bool) (n : ℕ) : SameColumns .nil .nil mask n :=
  ⟨rfl, fun _ _ => rfl, fun _ _ => rfl⟩

variable {col : ArrayRef} {cols cols' : Columns}

lemma sameColumns_cons {col' : ArrayRef} (hcol : SameRows col' col)
    (hnonnull : nullable = false → ∀ i < col.len, col.isNull i = true → mask i = true)
    (h : SameColumns cols' cols mask col.len) :
    SameColumns (.cons name nullable col' cols') (.cons name nullable col cols) mask col.len := by
  refine ⟨?_, ?_, ?_⟩
  · rw [Columns.fields, Columns.fields, hcol.dataType, h.fields]
  · intro i hi
    rw [Columns.values, Columns.values, hcol.value i hi, h.values i hi]
  · intro mask' hmask
    rw [columnsNonNullable, h.nonNullable mask' hmask, Bool.and_true]
    cases nullable with
    | true => rfl
    | false =>
      refine nonNullable_eq_true fun i hi hnull => ?_
      rw [hcol.len] at hi
      rw [hcol.isNull i hi] at hnull
      rw [hmask i hi]
      exact hnonnull rfl i hi hnull

lemma SameColumns.structValid {nulls' : Option BitBuffer} (h : SameColumns cols' cols (nullAt nulls) n)
    (hnulls : ∀ i < n, nullAt nulls' i = nullAt nulls i) : structValid cols.fields cols' nulls' = true := by
  unfold BatchSerde.structValid
  rw [h.fields, h.nonNullable _ hnulls]
  simp

variable {isSorted : Bool} {columns : Columns}

def ColumnsRoundTrip (w r : TransposeOpt) (n : ℕ) (cols : Columns) (mask : ℕ → Bool) : Prop :=
  ∃ bytes cols', writeColumns cols.fields w cols = some bytes ∧
    (readColumns validUtf8 cols.fields r n).Parses bytes cols' ∧ SameColumns cols' cols mask n

lemma isPair_of_fields {key value : String} {nk nv : Bool} {keyType valueType : DataType}
    (h : columns.fields = .cons key nk keyType (.cons value nv valueType .nil)) : isPair columns = true := by
  rcases columns with _ | ⟨_, _, _, _ | ⟨_, _, _, _ | _⟩⟩
  · cases h
  · cases h
  · rfl
  · cases h

lemma roundTrips_map (h : (map name nullable isSorted offsets columns nulls).Valid validUtf8)
    (henough : Enough w r 4 (offsets.length - 1))
    (hchild : ColumnsRoundTrip validUtf8
      (withTranspose (offsetRange offsets).2 [.map name nullable (.struct columns.fields) isSorted])
      (withTranspose (offsetRange offsets).2 [.struct columns.fields]) (offsetRange offsets).2
      (columns.slice (offsetRange offsets).1 (offsetRange offsets).2) (fun _ => false)) :
    RoundTrips validUtf8 w r (.map name nullable isSorted offsets columns nulls) := by
  obtain ⟨⟨key, value, nk, nv, keys, values, rfl, hoffsets, hlens⟩, hnulls, -⟩ := h
  have hrange := offsetRange_le hoffsets
  obtain ⟨lens, hwrite, hread⟩ := writeOffsets_spec hoffsets henough
  obtain ⟨children, columns', hwriteChildren, hreadChildren, hsame⟩ := hchild
  have hfields := hsame.fields
  have hcheck : structValid _ columns' none = true := hsame.structValid fun _ _ => rfl
  rw [Columns.fields_slice] at hwriteChildren hreadChildren hfields hcheck
  refine ⟨writeNulls nulls ++ lens ++ children, .map name nullable isSorted (rebase offsets) columns'
    (readBackNulls nulls (offsets.length - 1)), ?_, ?_, ?_, ?_, ?_, ?_⟩
  · -- the writer goes through the columns by name
    simp only [Columns.fields, Columns.slice, writeColumns, Option.bind_eq_bind, Option.bind_eq_some_iff]
      at hwriteChildren
    obtain ⟨keyBytes, hkey, _, ⟨valueBytes, hvalue, _, hnil, hrest⟩, hchildren⟩ := hwriteChildren
    cases hnil
    cases hrest
    cases hchildren
    simp [dataType, Columns.fields, writeArray, hwrite, trySlice_eq hrange, trySlice_eq (hlens.symm ▸ hrange), hkey,
      hvalue]
  · rw [append_assoc]
    refine (parses_readNulls hnulls).bind
      (hread.bind ((parses_lastOffset hoffsets).bind_first (hreadChildren.bind_last ?_)))
    rw [map_toNat_rebase hoffsets, offsetsValid_rebase hoffsets, hcheck, isPair_of_fields hfields]
    exact .pure _
  · rw [dataType, dataType, hfields]
  · exact congrArg (· - 1) length_rebase
  · exact fun i hi => nullAt_readBackNulls hnulls hi
  · intro i hi
    refine unlessNull_congr (nullAt_readBackNulls hnulls hi) (congrArg Value.list (map_span_rebase hoffsets ?_ hi))
    intro k hk
    rw [hsame.values k hk, Columns.values_slice _ hk]

lemma roundTrips_struct (h : (struct n columns nulls).Valid validUtf8)
    (hcolumns : ColumnsRoundTrip validUtf8 w r n columns (nullAt nulls)) :
    RoundTrips validUtf8 w r (.struct n columns nulls) := by
  obtain ⟨hnulls, -, -⟩ := h
  obtain ⟨children, columns', hwrite, hread, hsame⟩ := hcolumns
  refine ⟨writeNulls nulls ++ children, .struct n columns' (readBackNulls nulls n), ?_, ?_, ?_, rfl, ?_, ?_⟩
  · simp [dataType, writeArray, hwrite]
  · refine (parses_readNulls hnulls).bind (hread.bind_last ?_)
    rw [hsame.structValid fun i hi => nullAt_readBackNulls hnulls hi]
    exact .pure _
  · rw [dataType, dataType, hsame.fields]
  · exact fun i hi => nullAt_readBackNulls hnulls hi
  · intro i hi
    refine unlessNull_congr (nullAt_readBackNulls hnulls hi) ?_
    rw [hsame.values i hi]

lemma columnsRoundTrip_cons (hnonnull : nullable = false → ∀ i < col.len, col.isNull i = true → mask i = true)
    (hcol : RoundTrips validUtf8 w r col) (hcols : ColumnsRoundTrip validUtf8 w r col.len cols mask) :
    ColumnsRoundTrip validUtf8 w r col.len (.cons name nullable col cols) mask := by
  obtain ⟨bytes, col', hwrite, hread, hsame⟩ := hcol
  obtain ⟨rest, cols', hwrite', hread', hsame'⟩ := hcols
  refine ⟨bytes ++ rest, .cons name nullable col' cols', ?_, ?_, sameColumns_cons hsame hnonnull hsame'⟩
  · simp [Columns.fields, writeColumns, hwrite, hwrite']
  · exact hread.bind (hread'.bind_last (.pure _))

/-! ### All types -/

/-- Every array of the type is read back, transposed or not. -/
def TypeRoundTrips (t : DataType) : Prop :=
  ∀ {w r : TransposeOpt} {a : ArrayRef}, a.dataType = t → a.Valid validUtf8 → Enough w r (bytesWidth t) a.len →
    RoundTrips validUtf8 w r a

def FieldsRoundTrip : Fields → Prop
  | .nil => True
  | .cons _ _ dataType fields => TypeRoundTrips validUtf8 dataType ∧ FieldsRoundTrip fields

lemma columnsRoundTrip : ∀ (cols : Columns) {w r : TransposeOpt} {n : ℕ} {mask : ℕ → Bool},
    FieldsRoundTrip validUtf8 cols.fields → cols.HaveLen n → cols.Valid validUtf8 mask →
    Enough w r (fieldsBytesWidth cols.fields) n → ColumnsRoundTrip validUtf8 w r n cols mask
  | .nil, _, _, _, _, _, _, _, _ => ⟨[], .nil, rfl, .pure _, sameColumns_nil _ _⟩
  | .cons name nullable col cols, w, r, n, mask, h, hlens, hvalid, henough => by
    obtain ⟨rfl, hlens⟩ := hlens
    obtain ⟨hcol, hnonnull, hcols⟩ := hvalid
    apply columnsRoundTrip_cons validUtf8 hnonnull
    · exact h.1 rfl hcol (henough.mono (le_max_left _ _))
    · exact columnsRoundTrip cols h.2 hlens hcols (henough.mono (le_max_right _ _))

/-- The types within a type round trip. -/
def ChildrenRoundTrip : DataType → Prop
  | .list _ _ item => TypeRoundTrips validUtf8 item
  | .map _ _ (.struct fields) _ => FieldsRoundTrip validUtf8 fields
  | .struct fields => FieldsRoundTrip validUtf8 fields
  | _ => True

lemma typeRoundTrips_of_children {t : DataType} (htz : t.noTimezone = true) (h : ChildrenRoundTrip validUtf8 t) :
    TypeRoundTrips validUtf8 t := by
  rintro w r a rfl hvalid henough
  cases a with
  | null n => exact roundTrips_null validUtf8 w r n
  | boolean _ _ => exact roundTrips_boolean validUtf8 w r hvalid
  | primitive _ _ _ _ => exact roundTrips_primitive validUtf8 hvalid htz henough
  | bytes isUtf8 _ _ _ => exact roundTrips_bytes validUtf8 hvalid (by cases isUtf8 <;> exact henough)
  | list _ _ _ values _ =>
    have hrange := offsetRange_le hvalid.1
    refine roundTrips_list validUtf8 hvalid (henough.mono (le_max_right _ _)) ?_
    apply h (values.dataType_slice _ _) (values.valid_slice hvalid.2.2.1 hrange)
    rw [values.len_slice hvalid.2.2.1 hrange]
    exact enough_withTranspose (bytesWidth_le (mem_singleton_self _)) (bytesWidth_le (mem_singleton_self _)) _
  | map _ _ _ offsets columns _ =>
    refine roundTrips_map validUtf8 hvalid (henough.mono (le_max_right _ _)) ?_
    obtain ⟨⟨_, _, _, _, keys, _, hentries, hoffsets, hlens⟩, -, hcolumns⟩ := hvalid
    have hhave : columns.HaveLen keys.len := by
      rw [hentries]
      exact ⟨rfl, hlens, trivial⟩
    obtain ⟨hlens, hcolumns⟩ := columns.valid_slice hhave hcolumns (fun _ => rfl) (offsetRange_le hoffsets)
    refine columnsRoundTrip validUtf8 _ ((columns.fields_slice _ _).symm ▸ h) hlens hcolumns ?_
    rw [Columns.fields_slice]
    -- the writer makes its buffer for the type of the map, the reader for the type of the entries
    exact enough_withTranspose (le_trans (le_max_left _ _) (le_max_left _ _)) (le_max_left _ _) _
  | struct _ columns _ =>
    exact roundTrips_struct validUtf8 hvalid (columnsRoundTrip validUtf8 columns h hvalid.2.1 hvalid.2.2 henough)

mutual
theorem childrenRoundTrip : ∀ t : DataType, t.noTimezone = true → ChildrenRoundTrip validUtf8 t
  | .null, _ | .boolean, _ | .primitive _, _ | .utf8, _ | .binary, _ | .other _, _ => trivial
  | .list _ _ item, htz => typeRoundTrips_of_children validUtf8 (t := item) htz (childrenRoundTrip item htz)
  | .map _ _ (.struct fields) _, htz => fieldsRoundTrip fields htz
  | .struct fields, htz => fieldsRoundTrip fields htz
  | .map _ _ .null _, _ | .map _ _ .boolean _, _ | .map _ _ (.primitive _) _, _ | .map _ _ .utf8 _, _
  | .map _ _ .binary _, _ | .map _ _ (.list ..) _, _ | .map _ _ (.map ..) _, _ | .map _ _ (.other _) _, _ => trivial
theorem fieldsRoundTrip : ∀ fields : Fields, fields.noTimezone = true → FieldsRoundTrip validUtf8 fields
  | .nil, _ => trivial
  | .cons _ _ dataType fields, htz => by
    rw [Fields.noTimezone, Bool.and_eq_true] at htz
    exact ⟨typeRoundTrips_of_children validUtf8 htz.1 (childrenRoundTrip dataType htz.1), fieldsRoundTrip fields htz.2⟩
end

/-- **Arrays of a type without time zones are read back.** -/
theorem typeRoundTrips {t : DataType} (htz : t.noTimezone = true) : TypeRoundTrips validUtf8 t :=
  typeRoundTrips_of_children validUtf8 htz (childrenRoundTrip validUtf8 t htz)

/-! ### Types with time zones -/

section Results

variable {σ : Type} {S : Source UInt8 IoErr σ} {opt : TransposeOpt} {n : ℕ} {s s' : σ}

lemma run_tryNew_eq_ok {ok : Bool} {a b : ArrayRef} (h : (tryNew ok a).run S s = .ok (b, s')) : ok = true ∧ a = b := by
  cases ok with
  | false => cases h
  | true =>
    cases h
    exact ⟨rfl, rfl⟩

lemma noTimezone_of_readPrimitive {t : PrimitiveType} {b : ArrayRef}
    (h : (readPrimitive t opt n).run S s = .ok (b, s')) (htype : b.dataType = .primitive t) :
    (DataType.primitive t).noTimezone = true := by
  cases t with
  | timestamp unit timezone =>
    cases timezone with
    | none => rfl
    | some timezone =>
      -- what was read is a timestamp without a time zone
      obtain ⟨a, _, ha, hb⟩ := run_bind_eq_ok.1 h
      obtain ⟨_, _, -, ha⟩ := run_bind_eq_ok.1 ha
      obtain ⟨_, _, -, ha⟩ := run_bind_eq_ok.1 ha
      cases ha
      cases hb
      cases htype
  | _ => rfl

mutual
/-- **A time zone is lost**: what is read for a type with a time zone has another type. -/
theorem noTimezone_of_readArray {opt : TransposeOpt} {n : ℕ} {s s' : σ} {b : ArrayRef} : ∀ t : DataType,
    (readArray validUtf8 t opt n).run S s = .ok (b, s') → b.dataType = t → t.noTimezone = true
  | .null, _, _ | .boolean, _, _ | .utf8, _, _ | .binary, _, _ | .other _, _, _ => rfl
  | .primitive t, h, htype => noTimezone_of_readPrimitive h htype
  | .list name nullable item, h, _ => by
    obtain ⟨nulls, s1, -, h⟩ := run_bind_eq_ok.1 h
    obtain ⟨offsets, s2, -, h⟩ := run_bind_eq_ok.1 h
    obtain ⟨_, s3, -, h⟩ := run_bind_eq_ok.1 h
    obtain ⟨_, s4, hvalues, h⟩ := run_bind_eq_ok.1 h
    obtain ⟨hcheck, -⟩ := run_tryNew_eq_ok h
    simp only [Bool.and_eq_true, decide_eq_true_eq] at hcheck
    exact noTimezone_of_readArray item hvalues hcheck.1.2
  | .map name nullable (.struct kvFields) isSorted, h, _ => by
    obtain ⟨nulls, s1, -, h⟩ := run_bind_eq_ok.1 h
    obtain ⟨_, s2, -, h⟩ := run_bind_eq_ok.1 h
    obtain ⟨_, _, -, h⟩ := run_bind_eq_ok.1 h
    obtain ⟨_, _, hread, h⟩ := run_bind_eq_ok.1 h
    obtain ⟨hcheck, -⟩ := run_tryNew_eq_ok h
    simp only [structValid, Bool.and_eq_true, decide_eq_true_eq] at hcheck
    exact noTimezone_of_readColumns kvFields hread hcheck.1.1.1
  | .struct fields, h, _ => by
    obtain ⟨_, _, -, h⟩ := run_bind_eq_ok.1 h
    obtain ⟨_, _, hread, h⟩ := run_bind_eq_ok.1 h
    obtain ⟨hcheck, -⟩ := run_tryNew_eq_ok h
    simp only [structValid, Bool.and_eq_true, decide_eq_true_eq] at hcheck
    exact noTimezone_of_readColumns fields hread hcheck.1
  | .map _ _ .null _, _, _ | .map _ _ .boolean _, _, _ | .map _ _ .utf8 _, _, _ | .map _ _ .binary _, _, _
  | .map _ _ (.other _) _, _, _ => rfl
  | .map _ _ (.primitive _) _, h, _ | .map _ _ (.list ..) _, h, _ | .map _ _ (.map ..) _, h, _ => nomatch h
theorem noTimezone_of_readColumns {opt : TransposeOpt} {n : ℕ} {s s' : σ} {cols : Columns} : ∀ fields : Fields,
    (readColumns validUtf8 fields opt n).run S s = .ok (cols, s') → cols.fields = fields → fields.noTimezone = true
  | .nil, _, _ => rfl
  | .cons name nullable dataType fields, h, hfields => by
    obtain ⟨_, _, hcolumn, h⟩ := run_bind_eq_ok.1 h
    obtain ⟨_, _, hcolumns, h⟩ := run_bind_eq_ok.1 h
    cases h
    rw [Columns.fields, Fields.cons.injEq] at hfields
    rw [Fields.noTimezone, Bool.and_eq_true]
    exact ⟨noTimezone_of_readArray dataType hcolumn hfields.2.2.1, noTimezone_of_readColumns fields hcolumns hfields.2.2.2⟩
end

/-! ### Batches -/

lemma noTimezone_of_readArrays {types : List DataType} {cols : List ArrayRef}
    (h : (readArrays validUtf8 opt n types).run S s = .ok (cols, s')) (htypes : cols.map dataType = types) :
    ∀ t ∈ types, t.noTimezone = true := by
  induction types generalizing s cols with
  | nil => exact fun _ ht => nomatch ht
  | cons t types ih =>
    obtain ⟨_, _, hcol, h⟩ := run_bind_eq_ok.1 h
    obtain ⟨_, _, hcols, h⟩ := run_bind_eq_ok.1 h
    cases h
    obtain ⟨htype, htypes⟩ := cons.inj htypes
    exact forall_mem_cons.2 ⟨noTimezone_of_readArray validUtf8 t hcol htype, ih hcols htypes⟩

end Results

variable {n : ℕ} {cols : List ArrayRef}

lemma arrays_roundTrip {w r : TransposeOpt}
    (h : ∀ col ∈ cols, col.Valid validUtf8 ∧ col.len = n ∧ Enough w r (bytesWidth col.dataType) n)
    (htz : ∀ col ∈ cols, col.dataType.noTimezone = true) :
    ∃ bytes cols', writeArrays w cols = some bytes ∧ Forall₂ SameRows cols' cols ∧
      (readArrays validUtf8 r n (cols.map dataType)).Parses bytes cols' := by
  induction cols with
  | nil => exact ⟨[], [], rfl, .nil, .pure _⟩
  | cons col cols ih =>
    obtain ⟨⟨hvalid, hlen, henough⟩, h⟩ := forall_mem_cons.1 h
    obtain ⟨htz, htzs⟩ := forall_mem_cons.1 htz
    obtain ⟨rest, cols', hwrite', hsame', hread'⟩ := ih h htzs
    obtain ⟨bytes, col', hwrite, hread, hsame⟩ := typeRoundTrips validUtf8 htz rfl hvalid (hlen.symm ▸ henough)
    refine ⟨bytes ++ rest, col' :: cols', by simp [writeArrays, hwrite, hwrite'], .cons hsame hsame', ?_⟩
    rw [hlen] at hread
    exact hread.bind (hread'.bind_last (.pure _))

lemma map_dataType_of_sameRows {cols' : List ArrayRef} (h : Forall₂ SameRows cols' cols) :
    cols'.map dataType = cols.map dataType := by
  induction h with
  | nil => rfl
  | cons hcol _ ih => rw [map_cons, map_cons, hcol.dataType, ih]

lemma arrays_roundTrip_iff {opt : TransposeOpt}
    (h : ∀ col ∈ cols, col.Valid validUtf8 ∧ col.len = n ∧ Enough opt opt (bytesWidth col.dataType) n) :
    (∃ bytes cols', writeArrays opt cols = some bytes ∧ Forall₂ SameRows cols' cols ∧
      (readArrays validUtf8 opt n (cols.map dataType)).Parses bytes cols') ↔
      ∀ col ∈ cols, col.dataType.noTimezone = true := by
  constructor
  · rintro ⟨_, _, -, hsame, hread⟩ _ hcol
    exact noTimezone_of_readArrays validUtf8 (hread .other []) (map_dataType_of_sameRows hsame) _
      (mem_map_of_mem hcol)
  · exact arrays_roundTrip validUtf8 h

lemma readBatch_append {e : IoErr} (hn : n < 2 ^ 64) (schema : List DataType) (input : Bytes) :
    readBatch validUtf8 (Source.list e) schema (writeLen n ++ input) =
      match (readArrays validUtf8 (withTranspose n schema) n schema).run (Source.list e) input with
      | .error e => .error e
      | .ok (cols, input) => .ok (some (n, cols, input)) := by
  unfold readBatch
  rw [parses_readLen hn e input]
  dsimp only
  cases (readArrays validUtf8 (withTranspose n schema) n schema).run (Source.list e) input with
  | error e => rfl
  | ok r => rfl

/-- **A batch is read back exactly if no type has a time zone.**  Reading consumes what was written, whatever comes behind
it.  The columns without transposition are read back under the same condition. -/
theorem batch_roundTrip_iff {n : ℕ} {cols : List ArrayRef} (hn : n < 2 ^ 64)
    (hcols : ∀ col ∈ cols, col.Valid validUtf8 ∧ col.len = n) :
    ((∃ bytes cols', writeBatch n cols = some bytes ∧ Forall₂ SameRows cols' cols ∧
      ∀ e rest, readBatch validUtf8 (Source.list e) (cols.map dataType) (bytes ++ rest) =
        .ok (some (n, cols', rest))) ↔ ∀ col ∈ cols, col.dataType.noTimezone = true) ∧
    ((∃ bytes cols', writeArrays .disabled cols = some bytes ∧ Forall₂ SameRows cols' cols ∧
      (readArrays validUtf8 .disabled n (cols.map dataType)).Parses bytes cols') ↔
      ∀ col ∈ cols, col.dataType.noTimezone = true) := by
  constructor
  · have henough : ∀ col ∈ cols, col.Valid validUtf8 ∧ col.len = n ∧ Enough (withTranspose n (cols.map dataType))
        (withTranspose n (cols.map dataType)) (bytesWidth col.dataType) n := by
      intro col hcol
      have hle := bytesWidth_le (mem_map_of_mem (f := dataType) hcol)
      exact ⟨(hcols col hcol).1, (hcols col hcol).2, enough_withTranspose hle hle n⟩
    rw [← arrays_roundTrip_iff validUtf8 henough]
    constructor
    · rintro ⟨bytes, cols', hwrite, hsame, hread⟩
      obtain ⟨bytes', hwrite', hbytes⟩ := Option.bind_eq_some_iff.1 hwrite
      cases hbytes
      refine ⟨bytes', cols', hwrite', hsame, fun e rest => ?_⟩
      have hread := hread e rest
      rw [append_assoc, readBatch_append validUtf8 hn] at hread
      split at hread
      · cases hread
      · cases hread
        assumption
    · rintro ⟨bytes, cols', hwrite, hsame, hread⟩
      refine ⟨writeLen n ++ bytes, cols', by simp [writeBatch, hwrite], hsame, fun e rest => ?_⟩
      rw [append_assoc, readBatch_append validUtf8 hn, hread e rest]
  · exact arrays_roundTrip_iff validUtf8 fun col hcol => ⟨(hcols col hcol).1, (hcols col hcol).2, trivial⟩

/-- A column of two lists, a slice of a longer one: the second list is null, and the values of the first begin behind
others. -/
def slicedLists : ArrayRef :=
  .list "item" true [1, 3, 4] (.primitive .int16 [1, 2, 3, 4, 5, 6, 7, 8] 4 none) (some ⟨[2], 1, 2⟩)

/-- The round trip of the lists next to a column of strings. -/
theorem batch_roundTrip_iff_lists :
    ∃ bytes cols', writeBatch 2 [slicedLists, .bytes true [0, 1, 1] [65] none] = some bytes ∧
      Forall₂ SameRows cols' [slicedLists, .bytes true [0, 1, 1] [65] none] ∧
      ∀ e rest, readBatch (fun _ => true) (Source.list e) [.list "item" true (.primitive .int16), .utf8] (bytes ++ rest) =
        .ok (some (2, cols', rest)) := by
  have hlists : slicedLists.Valid fun _ => true := by
    refine ⟨⟨by simp, by decide, by decide, by decide⟩, ?_, ⟨rfl, rfl, nofun⟩, nofun⟩
    intro b hb
    cases hb
    exact ⟨rfl, by decide⟩
  have hstrings : (bytes true [0, 1, 1] [65] none).Valid fun _ => true :=
    ⟨⟨by simp, by decide, by decide, by decide⟩, nofun, fun _ _ _ => rfl⟩
  refine (batch_roundTrip_iff (fun _ => true) (by decide) ?_).1.2 ?_
  · intro _ hcol
    rcases mem_cons.1 hcol with rfl | hcol
    · exact ⟨hlists, rfl⟩
    · cases mem_singleton.1 hcol
      exact ⟨hstrings, rfl⟩
  · decide

/-- A column of timestamps with a time zone is read back without, and a column of lists of them is not read back. -/
theorem timezone_not_read_back :
    (∃ bytes, writeBatch 1 [.primitive (.timestamp .second (some "UTC")) [1, 0, 0, 0, 0, 0, 0, 0] 1 none] = some bytes ∧
      readBatch (fun _ => true) (Source.list .unexpectedEof) [.primitive (.timestamp .second (some "UTC"))] bytes =
        .ok (some (1, [.primitive (.timestamp .second none) [1, 0, 0, 0, 0, 0, 0, 0] 1 none], []))) ∧
    ∃ bytes, writeBatch 1 [.list "item" true [0, 1]
        (.primitive (.timestamp .second (some "UTC")) [1, 0, 0, 0, 0, 0, 0, 0] 1 none) none] = some bytes ∧
      readBatch (fun _ => true) (Source.list .unexpectedEof)
        [.list "item" true (.primitive (.timestamp .second (some "UTC")))] bytes = .error .other :=
  ⟨⟨_, rfl, rfl⟩, ⟨_, rfl, rfl⟩⟩

end BatchSerde

end Auron.Io
