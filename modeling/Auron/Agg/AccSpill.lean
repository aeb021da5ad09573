import Auron.Agg.Acc
import Auron.Agg.CollectSet
import Mathlib.Data.List.Nodup

/-!
# What a column spills it reads back

For each kind of column: the bytes that some records are spilled to give these records back, whatever comes behind.
-/

namespace Auron.Agg

open Auron.Io Auron.Io.BatchSerde Auron.Lib List Reads.Parses SparkBitArray

/-! ### Spilled booleans and native values -/

variable {α : Type}

lemma zipWith_replicate_left {β γ : Type} (f : α → β → γ) (a : α) (bs : List β) :
    zipWith f (replicate bs.length a) bs = bs.map (f a) := by
  induction bs with
  | nil => rfl
  | cons b bs ih => rw [length_cons, replicate_succ, zipWith_cons_cons, ih, map_cons]

lemma resized_nil (len : ℕ) (fill : α) : resized [] len fill = replicate len fill := by simp [resized]

lemma AccBooleanColumn.get_unspillSlot (s t : Slot Bool) : (unspillSlot t (spillSlot s)).get = s.get := by
  obtain ⟨valid, value⟩ := s
  cases valid <;> cases value <;> rfl

lemma AccBooleanColumn.parses_unspill (slots : List (Slot Bool)) :
    ∃ col, ((⟨[]⟩ : AccBooleanColumn).unspill slots.length).Parses (slots.map spillSlot) col
      ∧ col.slots.map Slot.get = slots.map Slot.get := by
  have hlen : (slots.map spillSlot).length = slots.length := length_map _
  have hread := exact (ε := IoErr) (slots.map spillSlot)
  refine ⟨_, (hlen ▸ hread).bind_last (.pure _), ?_⟩
  show (zipWith unspillSlot (resized [] slots.length _) _).map Slot.get = _
  rw [resized_nil, ← hlen, zipWith_replicate_left, map_map, map_map]
  exact map_congr_left fun s _ => get_unspillSlot s _

lemma natives_flatMap {width : ℕ} (values : List (Native width)) (rest : Bytes) :
    natives width values.length (values.flatMap Subtype.val ++ rest) = some values := by
  induction values with
  | nil => rfl
  | cons v values ih =>
    have hle : width ≤ ((v :: values).flatMap Subtype.val ++ rest).length := by
      rw [flatMap_cons, append_assoc, length_append, v.2]
      exact Nat.le_add_right _ _
    rw [length_cons, natives, dif_pos hle]
    simp only [flatMap_cons, append_assoc]
    rw [drop_left' v.2, ih, Option.map_some]
    congr 2
    exact Subtype.ext (take_left' v.2)

namespace AccPrimColumn

variable {width : ℕ}

lemma length_validValues (slots : List (Slot (Native width))) : (validValues slots).length = slots.countP Slot.valid := by
  induction slots with
  | nil => rfl
  | cons s slots ih =>
    obtain ⟨valid, _⟩ := s
    cases valid with
    | true => simp [validValues, Slot.get, ← ih]
    | false => simp [validValues, Slot.get, ← ih]

lemma length_flatMap_natives (values : List (Native width)) :
    (values.flatMap Subtype.val).length = values.length * width := by
  induction values with
  | nil => simp
  | cons v values ih => rw [flatMap_cons, length_append, v.2, ih, length_cons, Nat.succ_mul, add_comm]

lemma fillValids_spec (fill : Slot (Native width)) (slots : List (Slot (Native width))) :
    ∃ slots', fillValids (slots.map Slot.valid) (replicate slots.length fill) (validValues slots) = some slots'
      ∧ slots'.map Slot.get = slots.map Slot.get := by
  induction slots with
  | nil => exact ⟨[], rfl, rfl⟩
  | cons s slots ih =>
    obtain ⟨slots', hfill, hget⟩ := ih
    obtain ⟨valid, value⟩ := s
    cases valid with
    | true =>
      refine ⟨⟨true, value⟩ :: slots', ?_, by rw [map_cons, hget, map_cons]⟩
      show (fillValids _ _ (validValues slots)).map _ = _
      rw [hfill, Option.map_some]
    | false =>
      refine ⟨⟨false, fill.value⟩ :: slots', ?_, by rw [map_cons, hget]; rfl⟩
      show (fillValids _ _ (validValues slots)).map _ = _
      rw [hfill, Option.map_some]

lemma map_bitAt_packBits (bits : List Bool) :
    (range bits.length).map (bitAt (packBits bits.length (bits.getD · false))) = bits := by
  apply ext_getElem
  · simp
  · intro i _ hi
    rw [getElem_map, getElem_range, bitAt_packBits _ hi, getD_eq_getElem _ _ hi]

lemma parses_unspill {slots : List (Slot (Native width))} (hlen : slots.length < 2 ^ 64) :
    ∃ col, ((⟨[]⟩ : AccPrimColumn width).unspill slots.length).Parses
      (writeLen (slots.countP Slot.valid) ++ (packBits slots.length (fun i => (slots.map Slot.valid).getD i false)
        ++ (validValues slots).flatMap Subtype.val)) col ∧ col.slots.map Slot.get = slots.map Slot.get := by
  obtain ⟨slots', hfill, hget⟩ := fillValids_spec ⟨false, .default width⟩ slots
  refine ⟨⟨slots'⟩, ?_, hget⟩
  have hcount : slots.countP Slot.valid < 2 ^ 64 := lt_of_le_of_lt countP_le_length hlen
  have hbits := exact (ε := IoErr) (packBits slots.length fun i => (slots.map Slot.valid).getD i false)
  rw [length_packBits] at hbits
  have hraw := exact (ε := IoErr) ((validValues slots).flatMap Subtype.val)
  rw [length_flatMap_natives, length_validValues] at hraw
  have hnatives := natives_flatMap (validValues slots) []
  rw [append_nil, length_validValues] at hnatives
  have hvalids := map_bitAt_packBits (slots.map Slot.valid)
  rw [length_map] at hvalids
  refine (parses_readLen hcount).bind (hbits.bind (hraw.bind_last ?_))
  rw [hnatives, hvalids]
  refine bind_first (.pure _) ?_
  show (orFail (fillValids _ (resized [] _ _) _) >>= _).Parses _ _
  rw [resized_nil, hfill]
  exact bind_first (.pure _) (.pure _)

end AccPrimColumn

/-! ### Spilled byte strings, counts and filters -/

lemma parses_times {β : Type} {p : ReadBytes α} {write : β → Bytes} {reload : β → α} {records : List β}
    (h : ∀ r ∈ records, p.Parses (write r) (reload r)) :
    (p.times records.length).Parses (records.flatMap write) (records.map reload) := by
  have hall : Forall₂ p.Parses (records.map write) (records.map reload) := by
    rw [forall₂_map_left_iff, forall₂_map_right_iff]
    exact forall₂_same.2 h
  have hparses := times hall
  rwa [length_map] at hparses

def AccBytesColumn.reload (item : Option AccBytes) : Option AccBytes := item.map fun v => AccBytes.fromSlice v.bytes

lemma AccBytesColumn.parses_loadValue {item : Option AccBytes} (h : ∀ v ∈ item, v.bytes.length < 2 ^ 63) :
    loadValue.Parses (saveValue item) (reload item) := by
  cases item with
  | none =>
    have hzero : BatchSerde.readLen.Parses [0] 0 := parses_readLen (n := 0) (by decide)
    exact hzero.bind_last (.pure none)
  | some v =>
    have hlen := h v rfl
    refine bind (parses_readLen (by omega)) ?_
    rw [if_neg (by omega), Nat.add_sub_cancel_left]
    exact (exact v.bytes).bind_last (.pure _)

lemma AccBytesColumn.parses_unspill {items : List (Option AccBytes)}
    (h : ∀ item ∈ items, ∀ v ∈ item, v.bytes.length < 2 ^ 63) :
    ((new 0).unspill items.length).Parses (items.flatMap saveValue) (refreshHeapMemUsed (items.map reload)) :=
  (parses_times fun item hitem => parses_loadValue (h item hitem)).bind_last (.pure _)

lemma AccCountColumn.parses_unspill (values : List (BitVec 64)) :
    ((⟨[]⟩ : AccCountColumn).unspill values.length).Parses (values.flatMap fun v => writeLen v.toNat) ⟨values⟩ := by
  have hparses : (BatchSerde.readLen.times values.length).Parses (values.flatMap fun v => writeLen v.toNat)
      (values.map BitVec.toNat) := parses_times fun v _ => parses_readLen v.isLt
  have hmap : (values.map BitVec.toNat).map (BitVec.ofNat 64) = values := by simp [Function.comp_def]
  refine hparses.bind_last ?_
  rw [hmap]
  exact .pure _

/-- The filters of a column: `optimal_num_of_hash_functions` is at most `m * ln 2` for `m` bits, or the largest `usize` when
no items are expected. -/
inductive MadeFilter : SparkBloomFilter → Prop
  | new {k m : ℕ} {f : SparkBloomFilter} (hk : k < 2 ^ 31 ∨ k = 2 ^ 64 - 1)
      (h : SparkBloomFilter.newWithNumHashFunctions k m = some f) : MadeFilter f
  | put {f : SparkBloomFilter} (h : MadeFilter f) (item : Item) : MadeFilter (f.putItem item)
  | putAll {f g r : SparkBloomFilter} (hf : MadeFilter f) (hg : MadeFilter g) (h : f.putAll g = some r) : MadeFilter r
  | shrinkToFit {f g : SparkBloomFilter} (hf : MadeFilter f) (h : f.shrinkToFit = some g) : MadeFilter g
  | read {f : SparkBloomFilter} {bytes rest : Bytes}
      (h : SparkBloomFilter.readFrom.run (Source.list .unexpectedEof) bytes = .ok (f, rest)) : MadeFilter f

/-- A filter is what is read of it: its words can be counted, and the number of its hash functions is that of an `i32`. -/
structure Reloads (f : SparkBloomFilter) : Prop where
  length : f.bits.data.length < 2 ^ 31
  numHashFunctions : i32AsUsize (f.numHashFunctions % 256 ^ 4) = f.numHashFunctions

lemma Reloads.parses_readFrom {f : SparkBloomFilter} (h : Reloads f) : SparkBloomFilter.readFrom.Parses f.writeTo f := by
  have hparses := SparkBloomFilter.parses_readFrom h.length
  rwa [h.numHashFunctions] at hparses

lemma length_newWithNumBits {m : ℕ} {bits : SparkBitArray} (h : newWithNumBits m = some bits) :
    bits.data.length < 2 ^ 31 := by
  unfold newWithNumBits at h
  split at h
  case isFalse => cases h
  case isTrue hm =>
    cases h
    rw [length_replicate]
    omega

lemma ofBe_lt (bytes : Bytes) : ofBe bytes < 256 ^ bytes.length := by
  have hfold : ∀ a, bytes.foldl (fun a b => a * 256 + b.toNat) a < (a + 1) * 256 ^ bytes.length := by
    induction bytes with
    | nil => intro a; simp
    | cons b bytes ih =>
      intro a
      have hb := b.toNat_lt
      calc (b :: bytes).foldl (fun a b => a * 256 + b.toNat) a
          < (a * 256 + b.toNat + 1) * 256 ^ bytes.length := ih _
        _ ≤ ((a + 1) * 256) * 256 ^ bytes.length := Nat.mul_le_mul_right _ (by omega)
        _ = (a + 1) * 256 ^ (b :: bytes).length := by rw [length_cons]; ring
  have h := hfold 0
  rwa [Nat.one_mul] at h

variable {bytes rest : Bytes}

lemma readBe_lt {n v : ℕ} (h : (readBe n).run (Source.list .unexpectedEof) bytes = .ok (v, rest)) : v < 256 ^ n := by
  obtain ⟨_, _, hread, h⟩ := Reads.run_bind_eq_ok.1 h
  cases h
  rw [Reads.run_exact] at hread
  simp only [Source.list] at hread
  split at hread
  case isFalse => cases hread
  case isTrue hn =>
    cases hread
    have hlt := ofBe_lt (bytes.take n)
    rwa [length_take_of_le hn] at hlt

lemma length_readWords {n : ℕ} {data : List (BitVec 64)}
    (h : (readWords n).run (Source.list .unexpectedEof) bytes = .ok (data, rest)) : data.length = n := by
  induction n generalizing data bytes rest with
  | zero =>
    cases h
    rfl
  | succ n ih =>
    obtain ⟨_, _, -, h⟩ := Reads.run_bind_eq_ok.1 h
    obtain ⟨_, _, hwords, h⟩ := Reads.run_bind_eq_ok.1 h
    cases h
    rw [length_cons, ih hwords]

lemma length_of_readFrom {bits : SparkBitArray}
    (h : readFrom.run (Source.list .unexpectedEof) bytes = .ok (bits, rest)) : bits.data.length < 2 ^ 31 := by
  obtain ⟨_, _, -, h⟩ := Reads.run_bind_eq_ok.1 h
  split at h
  case isFalse => cases h
  case isTrue hlen =>
    obtain ⟨_, _, hdata, h⟩ := Reads.run_bind_eq_ok.1 h
    cases h
    rw [length_readWords hdata]
    exact hlen

lemma i32AsUsize_mod {v : ℕ} (h : v < 256 ^ 4) : i32AsUsize (i32AsUsize v % 256 ^ 4) = i32AsUsize v := by
  unfold i32AsUsize
  split <;> split <;> omega

/-- **Every filter of a column is what is read of it.** -/
theorem MadeFilter.reloads {f : SparkBloomFilter} (h : MadeFilter f) : Reloads f := by
  induction h with
  | @new k m f hk hnew =>
    obtain ⟨bits, hbits, rfl⟩ := Option.map_eq_some_iff.1 hnew
    refine ⟨length_newWithNumBits hbits, ?_⟩
    show i32AsUsize (k % 256 ^ 4) = k
    unfold i32AsUsize
    split <;> omega
  | @put f _ item ih =>
    rw [SparkBloomFilter.putItem_eq]
    refine ⟨?_, ih.numHashFunctions⟩
    show (setWhere _ _ _ f.bits.data).length < _
    rw [length_setWhere]
    exact ih.length
  | @putAll f g r _ _ hput ih =>
    unfold SparkBloomFilter.putAll at hput
    split at hput
    case isFalse => cases hput
    case isTrue =>
      obtain ⟨bits, hbits, rfl⟩ := Option.map_eq_some_iff.1 hput
      refine ⟨?_, ih.numHashFunctions⟩
      have hsize := bitSize_putAll hbits
      have hlen := ih.length
      unfold bitSize at hsize
      show bits.data.length < _
      omega
  | @shrinkToFit f g _ hshrink ih =>
    unfold SparkBloomFilter.shrinkToFit at hshrink
    split at hshrink
    case isTrue =>
      cases hshrink
      exact ih
    case isFalse =>
      obtain ⟨bits, hbits, rfl⟩ := Option.map_eq_some_iff.1 hshrink
      refine ⟨?_, ih.numHashFunctions⟩
      rw [length_setWhere]
      exact length_newWithNumBits hbits
  | @read f bytes rest hread =>
    obtain ⟨_, _, -, hread⟩ := Reads.run_bind_eq_ok.1 hread
    split at hread
    case isTrue => cases hread
    case isFalse =>
      obtain ⟨k, _, hk, hread⟩ := Reads.run_bind_eq_ok.1 hread
      obtain ⟨_, _, hbits, hread⟩ := Reads.run_bind_eq_ok.1 hread
      cases hread
      exact ⟨length_of_readFrom hbits, i32AsUsize_mod (readBe_lt hk)⟩

lemma AccBloomFilterColumn.parses_unspill {filters : List (Option SparkBloomFilter)}
    (h : ∀ filter ∈ filters, ∀ f ∈ filter, Reloads f) :
    ((⟨[]⟩ : AccBloomFilterColumn).unspill filters.length).Parses (filters.flatMap spillFilter) ⟨filters⟩ := by
  have hone : ∀ filter ∈ filters, unspillFilter.Parses (spillFilter filter) (id filter) := by
    intro filter hfilter
    cases filter with
    | none => exact (parses_readU8 0).bind_last (.pure none)
    | some f => exact (parses_readU8 1).bind ((h (some f) hfilter f rfl).parses_readFrom.bind_last (.pure _))
  have hparses := parses_times hone
  rw [map_id] at hparses
  exact hparses.bind_last (.pure _)

section Collections

/-- A column loads a record from its bytes, as `R` says. -/
def Loads {Col Rec : Type} (recs : Col → List Rec) (load : Col → ℕ → ReadBytes Col) (part : Bytes) (R : Rec → Prop) : Prop :=
  ∀ col i, i < (recs col).length → ∃ r col', (load col i).Parses part col' ∧ recs col' = (recs col).set i r ∧ R r

variable {Col Rec X : Type} {recs : Col → List Rec} {load : Col → ℕ → ReadBytes Col}

variable {part : X → Bytes} {R : X → Rec → Prop} {xs : List X} {col : Col} {front rest : List Rec}

lemma Loads.step {bytes : Bytes} {P : Rec → Prop} {r : Rec} (h : Loads recs load bytes P)
    (hcol : recs col = front ++ r :: rest) :
    ∃ r' col', (load col front.length).Parses bytes col' ∧ recs col' = (front ++ [r']) ++ rest ∧ P r' := by
  obtain ⟨r', col', hparses, hrecs, hr⟩ := h col front.length (by simp [hcol])
  refine ⟨r', col', hparses, ?_, hr⟩
  rw [hrecs, hcol, set_append_right _ _ le_rfl, Nat.sub_self, set_cons_zero, append_cons]

lemma runCursor_eq {α : Type} {p : ReadBytes α} {bytes : Bytes} {a : α} (h : p.Parses bytes a) :
    runCursor p bytes = some a := by
  have hrun := h .unexpectedEof []
  rw [append_nil] at hrun
  rw [runCursor, hrun]

/-- The records behind those in front are loaded one after the other, from one run of bytes or from one row each. -/
lemma loadAll (h : ∀ x ∈ xs, Loads recs load (part x) (R x)) (hcol : recs col = front ++ rest)
    (hlen : rest.length = xs.length) : ∃ col' loaded,
      ((range' front.length xs.length).foldlM load col).Parses (xs.flatMap part) col' ∧
      ((xs.map part).zipIdx front.length).foldlM (fun col row => runCursor (load col row.2) row.1) col = some col' ∧
      recs col' = front ++ loaded ∧ Forall₂ R xs loaded := by
  induction xs generalizing col front rest with
  | nil =>
    obtain rfl := length_eq_zero_iff.1 hlen
    exact ⟨col, [], .pure col, rfl, hcol, .nil⟩
  | cons x xs ih =>
    obtain ⟨r, rest, rfl⟩ := exists_cons_of_length_eq_add_one hlen
    obtain ⟨hx, hxs⟩ := forall_mem_cons.1 h
    obtain ⟨r', col', hparses, hcol', hr⟩ := hx.step hcol
    obtain ⟨col'', loaded, hrest, hrows, hcol'', hloaded⟩ := ih hxs hcol' (Nat.succ.inj hlen)
    rw [length_append, length_singleton] at hrest hrows
    exact ⟨col'', r' :: loaded, hparses.bind hrest, foldlM_cons_eq_some.2 ⟨col', runCursor_eq hparses, hrows⟩,
      by rw [hcol'', append_assoc, singleton_append], .cons hr hloaded⟩

lemma map_eq_of_forall₂ {f : Rec → X} {rs : List Rec} (h : Forall₂ (fun x r => f r = x) xs rs) : rs.map f = xs := by
  rw [← forall₂_eq_eq_eq, forall₂_map_left_iff]
  exact h.flip

end Collections

def rawRow (raw : Bytes) : Bytes := writeLen raw.length ++ raw

lemma AccListColumn.loads {raw : Bytes} (h : raw.length < 2 ^ 63) :
    Loads list loadRaw (rawRow raw) fun l => l.raw = raw := by
  intro col i hi
  refine ⟨⟨raw, raw.length⟩, ⟨col.list.set i ⟨raw, raw.length⟩, (col.memUsed.sub col.list[i].memSize).add raw.length⟩, ?_,
    rfl, rfl⟩
  unfold loadRaw
  rw [getElem?_eq_getElem hi]
  refine bind_first (.pure _) ((parses_readLen (by omega)).bind ?_)
  exact (exact raw).bind_last (.pure _)

lemma AccListColumn.parses_unspill {raws : List Bytes} (h : ∀ raw ∈ raws, raw.length < 2 ^ 63) :
    ∃ col, (empty.unspill raws.length).Parses (raws.flatMap rawRow) col
      ∧ col.list.map AccList.raw = raws := by
  obtain ⟨col, _, hparses, -, rfl, hloaded⟩ := loadAll (fun raw hraw => loads (h raw hraw))
    (nil_append (empty.resize raws.length).list).symm (by simp [empty, resize])
  rw [length_nil, ← range_eq_range'] at hparses
  exact ⟨col, hparses, map_eq_of_forall₂ hloaded⟩

section Sets

variable {V : Type} (E : CollectEnv) (C : ScalarCodec V)

/-- The bytes are the encodings of some values. -/
def Encoded (raw : Bytes) : Prop := ∃ vs : List V, raw = vs.flatMap C.write

/-- The bytes are the encodings of some values, each of them once. -/
def EachOnce (raw : Bytes) : Prop := ∃ vs : List V, raw = vs.flatMap C.write ∧ vs.Nodup

variable {E C}

/-- A set whose bytes have a value twice is loaded without the second. -/
lemma AccSetColumn.loads {raw : Bytes} (h : Encoded C raw) (hsmall : raw.length < 2 ^ 32) :
    Loads set (loadRaw E C) (rawRow raw) fun s => s.list.raw = raw ↔ EachOnce C raw := by
  obtain ⟨vs, rfl⟩ := h
  intro _ i hi
  rw [flatMap_def] at hsmall ⊢
  obtain ⟨s, _, hholds, hparses⟩ := parses_loadRaw (E := E) (getElem?_eq_getElem hi) hsmall
  refine ⟨s, _, hparses, rfl, fun hraw => ⟨vs, rfl, ?_⟩, ?_⟩
  · have hne : ∀ value ∈ vs.map C.write, value ≠ [] := forall_mem_map.2 fun v _ => C.write_ne_nil v
    have hlen := congrArg length (hholds.raw.symm.trans hraw)
    have hnodup := hholds.nodup
    rw [foldl_addNew_of_length hne (hlen.trans (Nat.zero_add _).symm), nil_append] at hnodup
    exact hnodup.of_map C.write
  · rintro ⟨ws, hws, hnodup⟩
    rw [← flatMap_def] at hws
    obtain rfl : vs = ws := flatMap_write_injective C hws
    rw [hholds.raw, foldl_addNew_of_nodup (hnodup.map C.write_injective), nil_append]

lemma map_eq_iff_of_forall₂ {X Rec : Type} {f : Rec → X} {P : X → Prop} {xs : List X} {rs : List Rec}
    (h : Forall₂ (fun x r => f r = x ↔ P x) xs rs) : rs.map f = xs ↔ ∀ x ∈ xs, P x := by
  induction h with
  | nil => simp
  | cons hx _ ih => rw [map_cons, cons.injEq, hx, ih, forall_mem_cons]

lemma AccSetColumn.parses_unspill (raws : List Bytes) (h : ∀ raw ∈ raws, Encoded C raw)
    (hsmall : ∀ raw ∈ raws, raw.length < 2 ^ 32) :
    ∃ col, (empty.unspill E C raws.length).Parses (raws.flatMap rawRow) col
      ∧ ((col.set.map fun s => s.list.raw) = raws ↔ ∀ raw ∈ raws, EachOnce C raw) := by
  obtain ⟨col, _, hparses, -, rfl, hloaded⟩ := loadAll (fun raw hraw => loads (h raw hraw) (hsmall raw hraw))
    (nil_append (empty.resize E raws.length).set).symm (by simp [empty, resize])
  rw [length_nil, ← range_eq_range'] at hparses
  exact ⟨col, hparses, map_eq_iff_of_forall₂ hloaded⟩

end Sets

end Auron.Agg
