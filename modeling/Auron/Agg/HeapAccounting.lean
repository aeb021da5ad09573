import Auron.Agg.CollectSet
import Auron.Agg.ScalarColumn

/-!
# The heap counters of accumulator columns

A column counts the bytes that its records have on the heap: an operation subtracts what it takes away and adds what it puts
in.  The counter should be the sizes of the records, and no subtraction should go below zero.

That holds for columns of byte strings and of lists in every run.  A column of scalars does not count the nulls that it
puts in, nor does freezing count what it takes away; so it holds if these have no size (`heap_counters_exact_iff`).  A new
record of a set column has a size as well, a record that is read is counted twice, and one that was merged from is not
counted though it keeps its bytes: it holds until the column gets its first record, and `SetColumnRun` has how much the
counter is off from then on.

`spill` and `freeze_to_arrays` leave columns of byte strings, lists and sets as they are.
-/

namespace Auron.Agg

open Auron.Io Auron.Io.BatchSerde Auron.Lib Reads Counter
open Option (bind_eq_some_iff map_eq_some_iff)

/-! ### Byte strings -/

def AccBytesColumn.HeapExact (col : AccBytesColumn) : Prop := col.heapMemUsed.Tracks itemHeapMemUsed col.items

inductive BytesRun : AccBytesColumn → Prop
  | new (numRecords : ℕ) : BytesRun (.new numRecords)
  | resize {col : AccBytesColumn} (len : ℕ) : BytesRun col → BytesRun (col.resize len)
  | set {col col' : AccBytesColumn} {idx : ℕ} {value : Option AccBytes} : BytesRun col →
      col.setValue idx value = some col' → BytesRun col'
  | take {col col' : AccBytesColumn} {idx : ℕ} {value : Option AccBytes} : BytesRun col →
      col.takeValue idx = some (value, col') → BytesRun col'
  | unfreeze {col col' : AccBytesColumn} {arrays : List AccArray} : BytesRun col →
      AccBytesColumn.unfreezeFromArrays arrays = some col' → BytesRun col'
  | unspill {col : AccBytesColumn} {numRows : ℕ} {σ : Type} {R : Source UInt8 IoErr σ} {s : σ} {r : AccBytesColumn × σ} :
      BytesRun col → (col.unspill numRows).run R s = .ok r → BytesRun r.1

lemma BytesRun.heapExact {col : AccBytesColumn} (h : BytesRun col) : col.HeapExact := by
  induction h with
  | new numRecords =>
    have hnone : AccBytesColumn.itemHeapMemUsed none = 0 := rfl
    exact tracks_replicate hnone numRecords
  | resize len _ ih =>
    unfold AccBytesColumn.resize
    split
    case isTrue => exact Counter.Tracks.append_replicate ih rfl _
    case isFalse => exact Counter.Tracks.take ih len
  | set _ hset ih =>
    obtain ⟨item, hitem, rfl⟩ := map_eq_some_iff.1 hset
    exact Counter.Tracks.set ih hitem _
  | take _ htake ih =>
    obtain ⟨_, hitem, heq⟩ := map_eq_some_iff.1 htake
    cases heq
    exact Counter.Tracks.set_zero ih hitem rfl
  | unfreeze _ hunfreeze _ =>
    unfold AccBytesColumn.unfreezeFromArrays at hunfreeze
    split at hunfreeze
    · cases hunfreeze
      exact tracks_foldl_add _
    · cases hunfreeze
  | unspill _ hunspill _ =>
    obtain ⟨_, _, -, hunspill⟩ := run_bind_eq_ok.1 hunspill
    cases hunspill
    exact tracks_foldl_add _

/-! ### Lists -/

section Collections

variable {V : Type} (E : CollectEnv) (C : ScalarCodec V)

def AccListColumn.HeapExact (col : AccListColumn) : Prop := col.memUsed.Tracks AccList.memSize col.list

inductive ListRun : AccListColumn → Prop
  | empty : ListRun .empty
  | resize {col : AccListColumn} (len : ℕ) : ListRun col → ListRun (col.resize len)
  | append {col col' : AccListColumn} {idx : ℕ} {v : V} : ListRun col → col.appendItem E C idx v = some col' → ListRun col'
  | mergeInto {col other col' other' : AccListColumn} {idx otherIdx : ℕ} : ListRun col → ListRun other →
      col.mergeItems E idx other otherIdx = some (col', other') → ListRun col'
  | mergeFrom {col other col' other' : AccListColumn} {idx otherIdx : ℕ} : ListRun col → ListRun other →
      col.mergeItems E idx other otherIdx = some (col', other') → ListRun other'
  | take {col col' : AccListColumn} {idx : ℕ} {values : List V} : ListRun col →
      col.takeValues C idx = some (values, col') → ListRun col'
  | unfreeze {col col' : AccListColumn} {arrays : List AccArray} : ListRun col →
      col.unfreezeFromArrays arrays = some col' → ListRun col'
  | unspill {col : AccListColumn} {numRows : ℕ} {σ : Type} {R : Source UInt8 IoErr σ} {s : σ} {r : AccListColumn × σ} :
      ListRun col → (col.unspill numRows).run R s = .ok r → ListRun r.1

variable {E C}

lemma AccList.memSize_le_extend (l : AccList) (bytes : Bytes) : l.memSize ≤ (l.extend E bytes).memSize :=
  E.le_grow l.raw l.capacity bytes

lemma run_of_runCursor {α : Type} {p : ReadBytes α} {bytes : Bytes} {a : α} (h : runCursor p bytes = some a) :
    ∃ rest, p.run (Source.list .unexpectedEof) bytes = .ok (a, rest) := by
  unfold runCursor at h
  split at h
  case h_1 a' rest hrun =>
    cases h
    exact ⟨rest, hrun⟩
  case h_2 => cases h

lemma AccListColumn.HeapExact.resize {col : AccListColumn} (h : col.HeapExact) (len : ℕ) : (col.resize len).HeapExact :=
  Counter.Tracks.append_replicate (Counter.Tracks.take h len) rfl _

lemma AccListColumn.HeapExact.loadRaw {col : AccListColumn} {idx : ℕ} {σ : Type} {R : Source UInt8 IoErr σ} {s : σ}
    {r : AccListColumn × σ} (h : col.HeapExact) (hload : (col.loadRaw idx).run R s = .ok r) : r.1.HeapExact := by
  obtain ⟨l, _, hl, hload⟩ := run_bind_eq_ok.1 hload
  obtain ⟨_, _, -, hload⟩ := run_bind_eq_ok.1 hload
  obtain ⟨_, _, -, hload⟩ := run_bind_eq_ok.1 hload
  cases hload
  exact Counter.Tracks.set h (run_orFail.1 hl).1 _

lemma AccListColumn.HeapExact.mergeItems {col other col' other' : AccListColumn} {idx otherIdx : ℕ} (h : col.HeapExact)
    (hother : other.HeapExact) (hmerge : col.mergeItems E idx other otherIdx = some (col', other')) :
    col'.HeapExact ∧ other'.HeapExact := by
  obtain ⟨l, hl, hmerge⟩ := bind_eq_some_iff.1 hmerge
  obtain ⟨o, ho, heq⟩ := map_eq_some_iff.1 hmerge
  cases heq
  exact ⟨Counter.Tracks.set_addDiff h hl (l.memSize_le_extend _), Counter.Tracks.set_zero hother ho rfl⟩

lemma ListRun.heapExact {col : AccListColumn} (h : ListRun E C col) : col.HeapExact := by
  induction h with
  | empty => exact Counter.Exact.zero
  | resize len _ ih => exact ih.resize len
  | append _ happend ih =>
    obtain ⟨l, hl, rfl⟩ := map_eq_some_iff.1 happend
    exact Counter.Tracks.set_addDiff ih hl (l.memSize_le_extend _)
  | mergeInto _ _ hmerge ih ihother => exact (ih.mergeItems ihother hmerge).1
  | mergeFrom _ _ hmerge ih ihother => exact (ih.mergeItems ihother hmerge).2
  | take _ htake ih =>
    obtain ⟨l, hl, htake⟩ := bind_eq_some_iff.1 htake
    obtain ⟨_, _, heq⟩ := map_eq_some_iff.1 htake
    cases heq
    exact Counter.Tracks.set_zero ih hl rfl
  | unfreeze _ hunfreeze ih =>
    obtain ⟨rows, _, hunfreeze⟩ := bind_eq_some_iff.1 hunfreeze
    split at hunfreeze
    case isTrue =>
      refine foldlM_keeps (P := AccListColumn.HeapExact) ?_ (ih.resize rows.length) hunfreeze
      intro c _ _ hc hload
      obtain ⟨_, hrun⟩ := run_of_runCursor hload
      exact hc.loadRaw hrun
    case isFalse => cases hunfreeze
  | unspill _ hunspill ih =>
    unfold AccListColumn.unspill at hunspill
    split at hunspill
    case isTrue => exact foldlM_keeps (fun _ _ _ _ hc hload => hc.loadRaw hload) (ih.resize _) hunspill
    case isFalse => cases hunspill

/-! ### Sets -/

variable (E C)

def AccSetColumn.HeapExact (col : AccSetColumn) : Prop := col.memUsed.Tracks (AccSet.memSize E) col.set

/-- The set columns that operations lead to, how much the counter is off, and whether a `resize` has added a record: a new
record is not counted, one that is taken from is not counted again, one that is read is counted once more, and what is left
of one that was merged from is not counted. -/
inductive SetColumnRun : AccSetColumn → ℤ → Bool → Prop
  | empty : SetColumnRun .empty 0 false
  | resize {col : AccSetColumn} {d : ℤ} {adds : Bool} (len : ℕ) : SetColumnRun col d adds →
      SetColumnRun (col.resize E len) (d - (len - col.set.length : ℕ) * 64) (adds || decide (col.set.length < len))
  | append {col col' : AccSetColumn} {d : ℤ} {adds : Bool} {idx : ℕ} {v : V} : SetColumnRun col d adds →
      col.appendItem E C idx v = some col' → SetColumnRun col' d adds
  | mergeInto {col other col' other' : AccSetColumn} {d d' : ℤ} {adds adds' : Bool} {idx otherIdx : ℕ} :
      SetColumnRun col d adds → SetColumnRun other d' adds' → col.mergeItems E idx other otherIdx = some (col', other') →
      SetColumnRun col' d adds
  | mergeFrom {col other col' other' : AccSetColumn} {d d' : ℤ} {adds adds' : Bool} {idx otherIdx : ℕ} {left : AccSet} :
      SetColumnRun col d adds → SetColumnRun other d' adds' → col.mergeItems E idx other otherIdx = some (col', other') →
      other'.set[otherIdx]? = some left → SetColumnRun other' (d' - left.memSize E) adds'
  | take {col col' : AccSetColumn} {d : ℤ} {adds : Bool} {idx : ℕ} {values : List V} : SetColumnRun col d adds →
      col.takeValues E C idx = some (values, col') → SetColumnRun col' (d - 64) adds
  | load {col : AccSetColumn} {d : ℤ} {adds : Bool} {idx : ℕ} {loaded : AccSet} {σ : Type} {R : Source UInt8 IoErr σ}
      {s : σ} {r : AccSetColumn × σ} : SetColumnRun col d adds → (col.loadRaw E C idx).run R s = .ok r →
      r.1.set[idx]? = some loaded → SetColumnRun r.1 (d - 64 + loaded.memSize E) adds

variable {E C}

namespace AccSetColumn

variable {col col' other other' : AccSetColumn} {idx otherIdx : ℕ} {d d' : ℤ}

def HeapOff (E : CollectEnv) (col : AccSetColumn) (d : ℤ) : Prop := col.memUsed.Off (AccSet.memSize E) col.set d

lemma HeapOff.appendItem {v : V} (h : col.HeapOff E d) (happend : col.appendItem E C idx v = some col') :
    col'.HeapOff E d := by
  obtain ⟨s, hs, happend⟩ := bind_eq_some_iff.1 happend
  obtain ⟨s', _, rfl⟩ := map_eq_some_iff.1 happend
  exact Counter.Off.set_addDiff h hs s'

lemma mergeItems_cases (hmerge : col.mergeItems E idx other otherIdx = some (col', other')) :
    ∃ s o r, col.set[idx]? = some s ∧ other.set[otherIdx]? = some o ∧ s.merge E o = some r
      ∧ col' = ⟨col.set.set idx r.1, col.memUsed.addDiff (r.1.memSize E) (s.memSize E)⟩
      ∧ other' = ⟨other.set.set otherIdx r.2, other.memUsed.sub (o.memSize E)⟩ := by
  obtain ⟨s, hs, hmerge⟩ := bind_eq_some_iff.1 hmerge
  obtain ⟨o, ho, hmerge⟩ := bind_eq_some_iff.1 hmerge
  obtain ⟨r, hr, heq⟩ := map_eq_some_iff.1 hmerge
  cases heq
  exact ⟨s, o, r, hs, ho, hr, rfl, rfl⟩

/-- A record that is read starts empty, gets its values one by one, and is counted once more at the end. -/
lemma loadRaw_cases {σ : Type} {R : Source UInt8 IoErr σ} {s : σ} {r : AccSetColumn × σ}
    (hload : (col.loadRaw E C idx).run R s = .ok r) :
    ∃ old values mid loaded, col.set[idx]? = some old
      ∧ List.foldlM (fun col v => AccSetColumn.appendItem E C col idx v)
          ⟨col.set.set idx .default, col.memUsed.sub (old.memSize E)⟩ values = some mid
      ∧ mid.set[idx]? = some loaded ∧ r.1 = { mid with memUsed := mid.memUsed.add (loaded.memSize E) } := by
  obtain ⟨old, _, hold, hload⟩ := run_bind_eq_ok.1 hload
  obtain ⟨_, _, -, hload⟩ := run_bind_eq_ok.1 hload
  obtain ⟨_, _, -, hload⟩ := run_bind_eq_ok.1 hload
  obtain ⟨values, _, -, hload⟩ := run_bind_eq_ok.1 hload
  obtain ⟨mid, _, hmid, hload⟩ := run_bind_eq_ok.1 hload
  obtain ⟨loaded, _, hloaded, hload⟩ := run_bind_eq_ok.1 hload
  cases hload
  exact ⟨old, values, mid, loaded, (run_orFail.1 hold).1, (run_orFail.1 hmid).1, (run_orFail.1 hloaded).1, rfl⟩

end AccSetColumn

variable {col : AccSetColumn} {d : ℤ} {adds : Bool}

lemma SetColumnRun.heapOff (h : SetColumnRun E C col d adds) : col.HeapOff E d := by
  induction h with
  | empty => rfl
  | resize len _ ih => exact Counter.Off.append_replicate (Counter.Off.take ih len) _ AccSet.default
  | append _ happend ih => exact ih.appendItem happend
  | mergeInto _ _ hmerge ih _ =>
    obtain ⟨s, _, r, hs, _, _, rfl, _⟩ := AccSetColumn.mergeItems_cases hmerge
    exact Counter.Off.set_addDiff ih hs r.1
  | mergeFrom _ _ hmerge hleft _ ih =>
    obtain ⟨_, o, r, _, ho, _, _, rfl⟩ := AccSetColumn.mergeItems_cases hmerge
    rw [List.getElem?_set_self (List.getElem?_eq_some_iff.1 ho).1] at hleft
    rw [← Option.some.inj hleft]
    exact Counter.Off.set_sub ih ho r.2
  | take _ htake ih =>
    obtain ⟨s, hs, htake⟩ := bind_eq_some_iff.1 htake
    obtain ⟨_, _, heq⟩ := map_eq_some_iff.1 htake
    cases heq
    exact Counter.Off.set_sub ih hs AccSet.default
  | @load col d _ idx loaded _ _ _ r _ hload hloaded ih =>
    obtain ⟨old, _, mid, loaded', hold, hmid, hlast, hr⟩ := AccSetColumn.loadRaw_cases hload
    rw [hr] at hloaded ⊢
    obtain rfl : loaded' = loaded := Option.some.inj (hlast.symm.trans hloaded)
    have hstart : AccSetColumn.HeapOff E ⟨col.set.set idx .default, col.memUsed.sub (old.memSize E)⟩ (d - 64) :=
      Counter.Off.set_sub ih hold AccSet.default
    have hoff : mid.HeapOff E (d - 64) := foldlM_keeps (P := fun c => AccSetColumn.HeapOff E c (d - 64))
      (fun _ _ _ hc hv => hc.appendItem hv) hstart hmid
    exact Counter.Off.add hoff (loaded'.memSize E)

/-- Without a `resize` that adds a record there is none, and so no operation on one. -/
lemma SetColumnRun.eq_empty (h : SetColumnRun E C col d adds) (hadds : adds = false) : col = .empty := by
  induction h with
  | empty => rfl
  | resize len _ ih =>
    obtain ⟨hbefore, hlen⟩ := Bool.or_eq_false_iff.1 hadds
    obtain rfl := ih hbefore
    obtain rfl : len = 0 := Nat.eq_zero_of_not_pos (of_decide_eq_false hlen)
    rfl
  | append _ happend ih =>
    obtain rfl := ih hadds
    cases happend
  | mergeInto _ _ hmerge ih _ =>
    obtain rfl := ih hadds
    cases hmerge
  | mergeFrom _ _ hmerge _ _ ih =>
    obtain rfl := ih hadds
    obtain ⟨_, _, _, _, ho, -⟩ := AccSetColumn.mergeItems_cases hmerge
    cases ho
  | take _ htake ih =>
    obtain rfl := ih hadds
    cases htake
  | load _ hload _ ih =>
    obtain rfl := ih hadds
    obtain ⟨_, _, _, _, hold, -⟩ := AccSetColumn.loadRaw_cases hload
    cases hold

lemma SetColumnRun.heapExact_resize (h : SetColumnRun E C col d false) (len : ℕ) :
    (col.resize E len).HeapExact E ↔ len ≤ col.set.length := by
  obtain rfl := h.eq_empty rfl
  have hoff := ((empty (E := E) (C := C)).resize len).heapOff
  rw [AccSetColumn.HeapExact, hoff.tracks_iff]
  constructor
  · rintro ⟨hzero, -⟩
    omega
  · intro hlen
    obtain rfl := Nat.le_zero.1 hlen
    exact ⟨rfl, rfl⟩

end Collections

section Scalars

variable {S A : Type} (D : ScalarEnv S A)

def AccScalarValueColumn.HeapExact (col : AccScalarValueColumn S) : Prop :=
  col.heapMemUsed.Tracks D.heapMemSize col.items

/-- The columns of scalars that operations lead to, with or without freezing. -/
inductive ScalarRun (freezes : Bool) : AccScalarValueColumn S → Prop
  | new (numRows : ℕ) : ScalarRun freezes (.new D numRows)
  | resize {col : AccScalarValueColumn S} (len : ℕ) : ScalarRun freezes col → ScalarRun freezes (col.resize D len)
  | set {col col' : AccScalarValueColumn S} (idx : ℕ) (value : S) : ScalarRun freezes col →
      col.setValue D idx value = some col' → ScalarRun freezes col'
  | take {col col' : AccScalarValueColumn S} {idx : ℕ} {value : S} : ScalarRun freezes col →
      col.takeValue D idx = some (value, col') → ScalarRun freezes col'
  | freeze {col col' : AccScalarValueColumn S} (sel : IdxSelection) {array : A} : freezes = true → ScalarRun freezes col →
      col.freezeToArrays D sel = some (array, col') → ScalarRun freezes col'
  | unfreeze {col col' : AccScalarValueColumn S} {arrays : List A} : ScalarRun freezes col →
      AccScalarValueColumn.unfreezeFromArrays D arrays = some col' → ScalarRun freezes col'
  | spill {col col' : AccScalarValueColumn S} {sel : IdxSelection} {bytes : Bytes} : ScalarRun freezes col →
      col.spill D sel = some (bytes, col') → ScalarRun freezes col'
  | unspill {col : AccScalarValueColumn S} {numRows : ℕ} {σ : Type} {R : Source UInt8 IoErr σ} {s : σ}
      {r : AccScalarValueColumn S × σ} : ScalarRun freezes col →
      (AccScalarValueColumn.unspill D numRows).run R s = .ok r → ScalarRun freezes r.1

variable {D}

lemma AccScalarValueColumn.HeapExact.spillAll {col col' : AccScalarValueColumn S} {indices : List ℕ} {bytes : Bytes}
    (h : col.HeapExact D) (hnull : D.heapMemSize D.nullValue = 0) (hspill : spillAll D indices col = some (bytes, col')) :
    col'.HeapExact D := by
  induction indices generalizing col bytes with
  | nil =>
    cases hspill
    exact h
  | cons idx rest ih =>
    obtain ⟨r, htake, hspill⟩ := bind_eq_some_iff.1 hspill
    obtain ⟨_, _, hspill⟩ := bind_eq_some_iff.1 hspill
    obtain ⟨_, hrest, heq⟩ := map_eq_some_iff.1 hspill
    obtain ⟨_, hscalar, rfl⟩ := map_eq_some_iff.1 htake
    cases heq
    refine ih ?_ hrest
    exact Counter.Tracks.set_zero h hscalar hnull

lemma ScalarRun.heapExact {freezes : Bool} {col : AccScalarValueColumn S} (h : ScalarRun D freezes col)
    (hnull : D.heapMemSize D.nullValue = 0) (hfreezes : freezes = true → ∀ v, D.heapMemSize v = 0) :
    col.HeapExact D := by
  induction h with
  | new numRows => exact tracks_replicate hnull numRows
  | resize len _ ih =>
    unfold AccScalarValueColumn.resize
    split
    case isTrue => exact Counter.Tracks.append_replicate ih hnull _
    case isFalse => exact Counter.Tracks.take ih len
  | set _ _ _ hset ih =>
    obtain ⟨scalar, hscalar, rfl⟩ := map_eq_some_iff.1 hset
    exact Counter.Tracks.set ih hscalar _
  | take _ htake ih =>
    obtain ⟨_, hscalar, heq⟩ := map_eq_some_iff.1 htake
    cases heq
    exact Counter.Tracks.set_zero ih hscalar hnull
  | freeze _ hf _ hfreeze ih =>
    -- freezing leaves other scalars, and the counter as it was
    obtain ⟨r, _, hfreeze⟩ := bind_eq_some_iff.1 hfreeze
    obtain ⟨_, _, heq⟩ := map_eq_some_iff.1 hfreeze
    cases heq
    unfold AccScalarValueColumn.HeapExact Counter.Tracks at ih ⊢
    rw [total_eq_zero (hfreezes hf)] at ih ⊢
    exact ih
  | unfreeze _ hunfreeze _ =>
    obtain ⟨_, _, hunfreeze⟩ := bind_eq_some_iff.1 hunfreeze
    obtain ⟨items, _, rfl⟩ := map_eq_some_iff.1 hunfreeze
    exact tracks_foldl_add items
  | spill _ hspill ih => exact ih.spillAll hnull hspill
  | unspill _ hunspill _ =>
    obtain ⟨items, _, -, hunspill⟩ := run_bind_eq_ok.1 hunspill
    cases hunspill
    exact tracks_foldl_add items

lemma heapMemSize_null_of_heapExact {freezes : Bool} (h : ∀ col, ScalarRun D freezes col → col.HeapExact D) :
    D.heapMemSize D.nullValue = 0 := by
  have hval : (0 : ℤ) = (D.heapMemSize D.nullValue + 0 : ℕ) := (h _ (.new 1)).value
  exact_mod_cast hval.symm

lemma heapMemSize_of_heapExact (hsingle : ∀ v, D.iterToArray [v] ≠ none)
    (h : ∀ col, ScalarRun D true col → col.HeapExact D) (v : S) : D.heapMemSize v = 0 := by
  have hnull := heapMemSize_null_of_heapExact h
  obtain ⟨array, harray⟩ := Option.ne_none_iff_exists'.1 (hsingle v)
  have hset : ScalarRun D true ⟨[v], (zero.sub (D.heapMemSize D.nullValue)).add (D.heapMemSize v)⟩ :=
    (ScalarRun.new 1).set 0 v rfl
  have hfrozen : AccScalarValueColumn.freezeToArrays D
      ⟨[v], (zero.sub (D.heapMemSize D.nullValue)).add (D.heapMemSize v)⟩ (.range 0 1) = some (array,
        ⟨[D.nullValue], (zero.sub (D.heapMemSize D.nullValue)).add (D.heapMemSize v)⟩) := by
    show Option.map _ (D.iterToArray [v]) = _
    rw [harray]
    rfl
  have hval : 0 - (D.heapMemSize D.nullValue : ℤ) + D.heapMemSize v = (D.heapMemSize D.nullValue + 0 : ℕ) :=
    (h _ (hset.freeze _ rfl hfrozen)).value
  omega

end Scalars

section All

variable {V S A : Type} (E : CollectEnv) (C : ScalarCodec V) (D : ScalarEnv S A)

/-- **Columns of byte strings and of lists always count exactly; columns of scalars do if the null has no size, and with
freezing if no scalar has one; columns of sets do until a `resize` adds the first record**: then the counter is off, by
amounts that the operations add up to. -/
theorem heap_counters_exact_iff (hsingle : ∀ v, D.iterToArray [v] ≠ none) :
    (∀ col, BytesRun col → col.HeapExact) ∧ (∀ col, ListRun E C col → col.HeapExact)
      ∧ ((∀ col, ScalarRun D false col → col.HeapExact D) ↔ D.heapMemSize D.nullValue = 0)
      ∧ ((∀ col, ScalarRun D true col → col.HeapExact D) ↔ ∀ v, D.heapMemSize v = 0)
      ∧ (∀ col d, SetColumnRun E C col d false →
          col.HeapExact E ∧ ∀ len, (col.resize E len).HeapExact E ↔ len ≤ col.set.length)
      ∧ ∀ col d adds, SetColumnRun E C col d adds → col.HeapOff E d := by
  refine ⟨fun _ h => h.heapExact, fun _ h => h.heapExact, ⟨?_, ?_⟩, ⟨?_, ?_⟩, fun col _ h => ?_, fun _ _ _ h => h.heapOff⟩
  · exact heapMemSize_null_of_heapExact
  · intro hnull col h
    exact h.heapExact hnull (by rintro ⟨⟩)
  · exact heapMemSize_of_heapExact hsingle
  · intro hzero _ h
    exact h.heapExact (hzero _) fun _ => hzero
  · refine ⟨?_, h.heapExact_resize⟩
    obtain rfl := h.eq_empty rfl
    exact .zero

end All

/-! ### Samples -/

/-- Nullable bytes, with a size that every scalar has. -/
def byteScalars (size : ℕ) : ScalarEnv (Option UInt8) (List (Option UInt8)) where
  nullValue := none
  heapMemSize v := size + v.toList.length
  writeScalar v := some (v.elim [0] fun b => [1, b])
  readScalar := do
    let valid ← BatchSerde.readU8
    if valid = 0 then pure none
    else do
      let b ← BatchSerde.readU8
      pure (some b)
  iterToArray vs := if vs = [] then none else some vs
  arrayScalars := some

/-- Scalars of which only the null has no size: their columns count exactly until they are frozen. -/
theorem heap_counters_exact_bytes :
    (∀ col, BytesRun col → col.HeapExact) ∧ (∀ col, ListRun plainEnv byteCodec col → col.HeapExact)
      ∧ ((∀ col, ScalarRun (byteScalars 0) false col → col.HeapExact (byteScalars 0)) ↔ True)
      ∧ ((∀ col, ScalarRun (byteScalars 0) true col → col.HeapExact (byteScalars 0)) ↔ False) := by
  obtain ⟨hbytes, hlist, hnull, hfreeze, -⟩ :=
    heap_counters_exact_iff plainEnv byteCodec (byteScalars 0) (by simp [byteScalars])
  refine ⟨hbytes, hlist, hnull.trans ?_, hfreeze.trans ?_⟩
  · exact ⟨fun _ => trivial, fun _ => rfl⟩
  · exact ⟨fun h => absurd (h (some 0)) (by decide), False.elim⟩

/-- A new record of a set is not counted, and taking it goes below zero.  So does setting a record of a column of nested
scalars, whose null is not counted.  A scalar that is frozen stays counted. -/
theorem heap_counters_drift :
    (∃ col, SetColumnRun plainEnv byteCodec col (-64) true ∧ ¬col.HeapExact plainEnv
        ∧ ∃ values col', col.takeValues plainEnv byteCodec 0 = some (values, col') ∧ col'.memUsed.wrapped = true)
      ∧ (∃ col, ScalarRun (byteScalars 24) false col ∧ ¬col.HeapExact (byteScalars 24) ∧ col.heapMemUsed.wrapped = true)
      ∧ ∃ col, ScalarRun (byteScalars 0) true col ∧ ¬col.HeapExact (byteScalars 0) ∧ col.heapMemUsed.value = 1 := by
  refine ⟨?_, ?_, ?_⟩
  · have hrun := (SetColumnRun.empty (E := plainEnv) (C := byteCodec)).resize 1
    refine ⟨_, hrun, ?_, _, _, rfl, rfl⟩
    exact fun h => absurd h.value (by decide)
  · have hrun : ScalarRun (byteScalars 24) false _ := (ScalarRun.new 1).set 0 (some 7) rfl
    exact ⟨_, hrun, fun h => absurd h.wrapped (by decide), rfl⟩
  · have hrun : ScalarRun (byteScalars 0) true _ := ((ScalarRun.new 1).set 0 (some 7) rfl).freeze (.range 0 1) rfl rfl
    exact ⟨_, hrun, fun h => absurd h.value (by decide), rfl⟩

end Auron.Agg
