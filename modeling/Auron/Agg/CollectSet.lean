import Auron.Agg.Collect
import Mathlib.Data.Set.List

/-!
# `collect_set` over whole runs

Any number of columns and of saved records, and any operations on them: records are appended to, merged, saved, loaded and
taken.  Next to each state stands what each record should contain, `Contents`: the values that were appended to it or merged
into it since it was last empty.

Merging takes the entries of the smaller one of two sets but not its bytes, and the record that is merged from is left with
these: its values come back (`merged_record_keeps_values`).  Every other record gives exactly its contents, each value once
(`takeValues_gives_contents`).
-/

namespace Auron.Agg

open Auron.Io Auron.Io.BatchSerde Auron.Lib List AccSetColumn
open Option (bind_eq_bind bind_some map_some bind_eq_some_iff map_eq_some_iff map₂)

section Runs

variable {V : Type} (E : CollectEnv) (C : ScalarCodec V)

/-! ### Operations -/

/-- Columns, and the records that were saved. -/
structure SetStore where
  cols : ℕ → AccSetColumn
  saved : ℕ → Bytes

/-- The operations: `save` and `load` have the number of a saved record. -/
inductive SetOp (V : Type) where
  | resize (c len : ℕ)
  | append (c i : ℕ) (v : V)
  | merge (c i c' i' : ℕ)
  | save (c i k : ℕ)
  | load (c i k : ℕ)
  | take (c i : ℕ)

namespace SetStore

def new : SetStore := ⟨fun _ => .empty, fun _ => []⟩

def setCol (st : SetStore) (c : ℕ) (col : AccSetColumn) : SetStore := { st with cols := Function.update st.cols c col }

/-- One operation; two columns are borrowed to merge their records. -/
def step (st : SetStore) : SetOp V → Option SetStore
  | .resize c len => some (st.setCol c ((st.cols c).resize E len))
  | .append c i v => ((st.cols c).appendItem E C i v).map (st.setCol c)
  | .merge c i c' i' =>
    if c = c' then none
    else ((st.cols c).mergeItems E i (st.cols c') i').map fun r => (st.setCol c r.1).setCol c' r.2
  | .save c i k => ((st.cols c).saveRaw i).map fun bytes => { st with saved := Function.update st.saved k bytes }
  | .load c i k =>
    match ((st.cols c).loadRaw E C i).run (Source.list .unexpectedEof) (st.saved k) with
    | .ok (col, _) => some (st.setCol c col)
    | .error _ => none
  | .take c i => ((st.cols c).takeValues E C i).map fun r => st.setCol c r.2

end SetStore

/-- What the records and the saved records should contain; `none` for one that was merged from. -/
structure Contents (V : Type) where
  recs : ℕ → List (Option (Set V))
  saved : ℕ → Option (Set V)

namespace Contents

def new : Contents V := ⟨fun _ => [], fun _ => none⟩

variable (ct : Contents V)

def get (c i : ℕ) : Option (Set V) := (ct.recs c)[i]?.join

def setRecs (c : ℕ) (recs : List (Option (Set V))) : Contents V :=
  { ct with recs := Function.update ct.recs c recs }

def put (c i : ℕ) (A : Option (Set V)) : Contents V := ct.setRecs c ((ct.recs c).set i A)

def step : SetOp V → Contents V
  | .resize c len => ct.setRecs c ((ct.recs c).take len ++ replicate (len - (ct.recs c).length) (some ∅))
  | .append c i v => ct.put c i ((ct.get c i).map (insert v))
  | .merge c i c' i' => (ct.put c i (map₂ (· ∪ ·) (ct.get c i) (ct.get c' i'))).put c' i' none
  | .save c i k => { ct with saved := Function.update ct.saved k (ct.get c i) }
  | .load c i k => ct.put c i (ct.saved k)
  | .take c i => ct.put c i (some ∅)

end Contents

/-- The bytes of the record, with those that are added, can be counted with 32 bits. -/
def SetOp.Fits (st : SetStore) : SetOp V → Prop
  | append c i v => ∀ s, (st.cols c).set[i]? = some s → s.list.raw.length + (C.write v).length < 2 ^ 32
  | merge c i c' i' => ∀ s o, (st.cols c).set[i]? = some s → (st.cols c').set[i']? = some o →
      s.list.raw.length + o.list.raw.length < 2 ^ 32
  | _ => True

/-- The records of an operation exist, and none was merged from. -/
def SetOp.Clean (ct : Contents V) : SetOp V → Prop
  | resize _ _ => True
  | append c i _ => ct.get c i ≠ none
  | merge c i c' i' => c ≠ c' ∧ ct.get c i ≠ none ∧ ct.get c' i' ≠ none
  | save c i _ => ct.get c i ≠ none
  | load c i k => i < (ct.recs c).length ∧ ct.saved k ≠ none
  | take c i => ct.get c i ≠ none

/-- A state after some operations, and what its records should contain. -/
inductive SetRun : SetStore → Contents V → Prop
  | new : SetRun .new .new
  | step {st st' : SetStore} {ct : Contents V} (op : SetOp V) : SetRun st ct → op.Fits C st →
      st.step E C op = some st' → SetRun st' (ct.step op)

/-! ### Records -/

def AccSet.Contains (s : AccSet) (A : Set V) : Prop := ∃ vs : List V, s.Holds E (vs.map C.write) ∧ ∀ v, v ∈ vs ↔ v ∈ A

def SavedContains (bytes : Bytes) (A : Set V) : Prop :=
  ∃ vs : List V, (vs.map C.write).Nodup ∧ (vs.map C.write).flatten.length < 2 ^ 32
    ∧ bytes = writeLen (vs.map C.write).flatten.length ++ (vs.map C.write).flatten ∧ ∀ v, v ∈ vs ↔ v ∈ A

variable {E C}

lemma AccSet.Contains.default : AccSet.Contains E C .default ∅ := ⟨[], .default, by simp⟩

variable {s : AccSet} {A : Set V}

lemma AccSet.Contains.append_spec (h : s.Contains E C A) (v : V)
    (hsmall : s.list.raw.length + (C.write v).length < 2 ^ 32) :
    ∃ s', s.append E C v = some s' ∧ s'.Contains E C (insert v A) := by
  obtain ⟨vs, hholds, hmem⟩ := h
  obtain ⟨s', happend, h'⟩ := hholds.append_spec C hsmall
  refine ⟨s', happend, ?_⟩
  by_cases hv : v ∈ vs
  · rw [addNew, if_pos (mem_map_of_mem hv)] at h'
    exact ⟨vs, h', fun w => by rw [hmem w, Set.insert_eq_of_mem ((hmem v).1 hv)]⟩
  · have hnew : C.write v ∉ vs.map C.write := fun hw => hv ((mem_map_of_injective C.write_injective).1 hw)
    rw [addNew, if_neg hnew] at h'
    refine ⟨vs ++ [v], by rw [map_append]; exact h', fun w => ?_⟩
    rw [mem_append, mem_singleton, hmem w, Set.mem_insert_iff, or_comm]

lemma AccSet.Contains.merge_spec {o : AccSet} {B : Set V} (h : s.Contains E C A) (ho : o.Contains E C B)
    (hsmall : s.list.raw.length + o.list.raw.length < 2 ^ 32) :
    ∃ r, s.merge E o = some r ∧ r.1.Contains E C (A ∪ B) := by
  obtain ⟨_, hholds, hvs⟩ := h
  obtain ⟨_, hholds', hws⟩ := ho
  obtain ⟨s', o', values, hmerge, h', hmem⟩ := hholds.merge_spec hholds' hsmall
  -- every encoding of the result is the encoding of a value
  have hrange : values ∈ Set.range (map C.write) := by
    rw [Set.range_list_map]
    intro b hb
    rcases (hmem b).1 hb with hb | hb
    · obtain ⟨v, -, rfl⟩ := mem_map.1 hb
      exact ⟨v, rfl⟩
    · obtain ⟨v, -, rfl⟩ := mem_map.1 hb
      exact ⟨v, rfl⟩
  obtain ⟨us, rfl⟩ := hrange
  refine ⟨(s', o'), hmerge, us, h', fun u => ?_⟩
  have hu := hmem (C.write u)
  rw [mem_map_of_injective C.write_injective, mem_map_of_injective C.write_injective,
    mem_map_of_injective C.write_injective] at hu
  rw [hu, hvs u, hws u, Set.mem_union]

lemma AccSet.Contains.saved (h : s.Contains E C A) :
    SavedContains C (writeLen s.list.raw.length ++ s.list.raw) A := by
  obtain ⟨vs, hholds, hmem⟩ := h
  have hsmall := hholds.small
  rw [hholds.raw] at hsmall ⊢
  exact ⟨vs, hholds.nodup, hsmall, rfl, hmem⟩

lemma AccSet.Contains.intoValues_spec (h : s.Contains E C A) :
    ∃ vs, s.intoValues C = some vs ∧ (vs.map C.write).Nodup ∧ ∀ v, v ∈ vs ↔ v ∈ A := by
  obtain ⟨vs, hholds, hmem⟩ := h
  refine ⟨vs, AccList.intoValues_spec C ?_, hholds.nodup, hmem⟩
  rw [hholds.raw, flatMap_def]

lemma AccSet.Holds.appendValues_spec {vs : List V} {values : List Bytes} (h : s.Holds E values)
    (hsmall : s.list.raw.length + (vs.map C.write).flatten.length < 2 ^ 32) :
    ∃ s', vs.foldlM (AccSet.append E C) s = some s' ∧ s'.Holds E ((vs.map C.write).foldl addNew values) := by
  induction vs generalizing s values with
  | nil => exact ⟨s, rfl, h⟩
  | cons v vs ih =>
    rw [map_cons, flatten_cons, length_append] at hsmall
    obtain ⟨s1, happend, h1⟩ := h.append_spec C (v := v) (by omega)
    have hlen : s1.list.raw.length ≤ s.list.raw.length + (C.write v).length := by
      rw [h1.raw, h.raw]
      exact length_flatten_addNew_le values _
    obtain ⟨s', hfold, h'⟩ := ih h1 (by omega)
    exact ⟨s', foldlM_cons_eq_some.2 ⟨s1, happend, hfold⟩, h'⟩

/-! ### Columns -/

variable {col : AccSetColumn} {i : ℕ}

lemma AccSetColumn.appendItem_eq_some {col' : AccSetColumn} {v : V} (h : col.appendItem E C i v = some col') :
    ∃ s s', col.set[i]? = some s ∧ s.append E C v = some s' ∧ col'.set = col.set.set i s' := by
  obtain ⟨s, hs, h⟩ := bind_eq_some_iff.1 h
  obtain ⟨s', happend, rfl⟩ := map_eq_some_iff.1 h
  exact ⟨s, s', hs, happend, rfl⟩

variable (E C) in
lemma AccSetColumn.foldlM_appendItem (values : List V) (col : AccSetColumn) (hs : col.set[i]? = some s) :
    (values.foldlM (fun col v => appendItem E C col i v) col).map set
      = (values.foldlM (AccSet.append E C) s).map fun s' => col.set.set i s' := by
  induction values generalizing col s with
  | nil =>
    obtain ⟨_, rfl⟩ := List.getElem?_eq_some_iff.1 hs
    simp
  | cons v values ih =>
    rw [foldlM_cons, foldlM_cons]
    cases happend : s.append E C v with
    | none => simp [appendItem, hs, happend]
    | some s1 =>
      have hcol : (col.set.set i s1)[i]? = some s1 := by
        rw [getElem?_set_self (List.getElem?_eq_some_iff.1 hs).1]
      rw [appendItem, hs, bind_some, happend, map_some, bind_eq_bind, bind_some, bind_eq_bind, bind_some, ih _ hcol]
      simp

lemma run_orFail {α σ : Type} {S : Source UInt8 IoErr σ} {x : Option α} {input : σ} {r : α × σ} :
    (orFail x).run S input = .ok r ↔ x = some r.1 ∧ input = r.2 := by
  obtain ⟨a, _⟩ := r
  cases x with
  | none => simp [orFail]
  | some b => simp [orFail]

lemma AccSetColumn.loadRaw_eq_ok {σ : Type} {S : Source UInt8 IoErr σ} {col' : AccSetColumn} {input rest : σ}
    (h : (col.loadRaw E C i).run S input = .ok (col', rest)) :
    ∃ s s', col.set[i]? = some s ∧ col'.set = col.set.set i s' := by
  unfold loadRaw at h
  obtain ⟨s, _, hs, h⟩ := Reads.run_bind_eq_ok.1 h
  obtain ⟨_, _, -, h⟩ := Reads.run_bind_eq_ok.1 h
  obtain ⟨_, _, -, h⟩ := Reads.run_bind_eq_ok.1 h
  obtain ⟨values, _, -, h⟩ := Reads.run_bind_eq_ok.1 h
  obtain ⟨_, _, hfold, h⟩ := Reads.run_bind_eq_ok.1 h
  obtain ⟨_, _, -, h⟩ := Reads.run_bind_eq_ok.1 h
  cases h
  obtain ⟨hlt, -⟩ := List.getElem?_eq_some_iff.1 (run_orFail.1 hs).1
  have hcleared : (col.set.set i AccSet.default)[i]? = some AccSet.default := getElem?_set_self hlt
  have hmap := congrArg (Option.map set) (run_orFail.1 hfold).1
  rw [foldlM_appendItem E C values ⟨col.set.set i .default, _⟩ hcleared] at hmap
  obtain ⟨s', -, hset⟩ := map_eq_some_iff.1 hmap
  refine ⟨s, s', (run_orFail.1 hs).1, ?_⟩
  rw [← hset, set_set]

lemma AccSetColumn.parses_loadRaw (hs : col.set[i]? = some s) {vs : List V}
    (hsmall : (vs.map C.write).flatten.length < 2 ^ 32) :
    ∃ s' memUsed, s'.Holds E ((vs.map C.write).foldl addNew []) ∧ (col.loadRaw E C i).Parses
      (writeLen (vs.map C.write).flatten.length ++ (vs.map C.write).flatten) ⟨col.set.set i s', memUsed⟩ := by
  have hlt := (List.getElem?_eq_some_iff.1 hs).1
  have hcleared : (col.set.set i AccSet.default)[i]? = some AccSet.default := getElem?_set_self hlt
  obtain ⟨s', hfold, h'⟩ := (AccSet.Holds.default (E := E)).appendValues_spec ((Nat.zero_add _).trans_lt hsmall)
  -- the values are appended to the cleared record of the column
  have hcol := foldlM_appendItem E C vs ⟨col.set.set i .default, col.memUsed.sub (s.memSize E)⟩ hcleared
  rw [hfold, map_some, set_set] at hcol
  obtain ⟨col', hcol', hset⟩ := map_eq_some_iff.1 hcol
  have hread : readValues C ((vs.map C.write).flatten.length + 1) (vs.map C.write).flatten = some vs := by
    rw [← flatMap_def]
    exact readValues_flatMap C (Nat.lt_succ_of_le (length_le_flatMap_write C vs))
  refine ⟨s', col'.memUsed.add (s'.memSize E), h', ?_⟩
  unfold loadRaw
  rw [hs]
  refine Reads.Parses.bind_first (.pure s) ((parses_readLen (by omega)).bind ((Reads.Parses.exact _).bind_last ?_))
  rw [hread]
  refine Reads.Parses.bind_first (.pure vs) ?_
  rw [hcol']
  refine Reads.Parses.bind_first (.pure col') ?_
  rw [hset, getElem?_set_self hlt]
  exact Reads.Parses.bind_first (.pure s') (.pure _)

/-! ### Steps -/

/-- A record contains what it should, unless it was merged from. -/
def Tracked (E : CollectEnv) (C : ScalarCodec V) (s : AccSet) (content : Option (Set V)) : Prop :=
  ∀ A, content = some A → s.Contains E C A

structure Tracks (E : CollectEnv) (C : ScalarCodec V) (st : SetStore) (ct : Contents V) : Prop where
  recs : ∀ c, Forall₂ (Tracked E C) (st.cols c).set (ct.recs c)
  saved : ∀ k A, ct.saved k = some A → SavedContains C (st.saved k) A

lemma forall₂_set {α β : Type} {R : α → β → Prop} {l : List α} {m : List β} (h : Forall₂ R l m) {a : α} {b : β}
    (hab : R a b) (i : ℕ) : Forall₂ R (l.set i a) (m.set i b) := by
  induction h generalizing i with
  | nil => exact .nil
  | cons hhead hrest ih =>
    cases i with
    | zero => exact .cons hab hrest
    | succ i => exact .cons hhead (ih i)

namespace Tracks

variable {st : SetStore} {ct : Contents V}

lemma new : Tracks E C .new .new := ⟨fun _ => .nil, fun _ _ h => by cases h⟩

variable {c i : ℕ}

lemma get (h : Tracks E C st ct) {s : AccSet} (hs : (st.cols c).set[i]? = some s) : Tracked E C s (ct.get c i) := by
  obtain ⟨hlt, rfl⟩ := List.getElem?_eq_some_iff.1 hs
  have hlt' : i < (ct.recs c).length := (h.recs c).length_eq ▸ hlt
  have hget : ct.get c i = (ct.recs c)[i] := by
    rw [Contents.get, getElem?_eq_getElem hlt', Option.join_some]
  rw [hget]
  exact forall₂_iff_get.1 (h.recs c) |>.2 i hlt hlt'

lemma exists_record (h : Tracks E C st ct) (hget : ct.get c i ≠ none) :
    ∃ s A, (st.cols c).set[i]? = some s ∧ ct.get c i = some A ∧ s.Contains E C A := by
  obtain ⟨A, hA⟩ := Option.ne_none_iff_exists'.1 hget
  have hlt : i < (st.cols c).set.length := by
    rw [(h.recs c).length_eq]
    by_contra hge
    rw [Contents.get, getElem?_eq_none (Nat.le_of_not_lt hge)] at hA
    cases hA
  exact ⟨_, A, getElem?_eq_getElem hlt, hA, h.get (getElem?_eq_getElem hlt) A hA⟩

variable {col : AccSetColumn}

variable (h : Tracks E C st ct)

include h

lemma setCol {recs : List (Option (Set V))} (hcol : Forall₂ (Tracked E C) col.set recs) :
    Tracks E C (st.setCol c col) (ct.setRecs c recs) := by
  refine ⟨fun d => ?_, h.saved⟩
  by_cases hd : d = c
  · subst hd
    simpa [SetStore.setCol, Contents.setRecs] using hcol
  · simpa [SetStore.setCol, Contents.setRecs, hd] using h.recs d

lemma put {s : AccSet} {content : Option (Set V)} (hcol : col.set = (st.cols c).set.set i s)
    (hs : Tracked E C s content) : Tracks E C (st.setCol c col) (ct.put c i content) :=
  h.setCol (hcol ▸ forall₂_set (h.recs c) hs i)

lemma resize (c len : ℕ) :
    Forall₂ (Tracked E C) ((st.cols c).resize E len).set
      ((ct.recs c).take len ++ replicate (len - (ct.recs c).length) (some ∅)) := by
  have hnew : Tracked E C .default (some ∅) := by
    rintro A ⟨⟩
    exact .default
  rw [← (h.recs c).length_eq]
  refine rel_append (forall₂_take len (h.recs c)) ?_
  rw [forall₂_iff_get]
  exact ⟨by simp, fun i hi hi' => by simpa using hnew⟩

lemma load {k : ℕ} {rest : Bytes}
    (hload : ((st.cols c).loadRaw E C i).run (Source.list .unexpectedEof) (st.saved k) = .ok (col, rest)) :
    ∃ s', col.set = (st.cols c).set.set i s' ∧ Tracked E C s' (ct.saved k) := by
  obtain ⟨s, s', hs, hset⟩ := loadRaw_eq_ok hload
  cases hk : ct.saved k with
  | none => exact ⟨s', hset, fun _ hA => by cases hA⟩
  | some A =>
    obtain ⟨vs, hnodup, hsmall, hbytes, hmem⟩ := h.saved k A hk
    obtain ⟨s'', _, hholds, hparses⟩ := parses_loadRaw (E := E) hs hsmall
    rw [foldl_addNew_of_nodup hnodup] at hholds
    have hrun := hparses .unexpectedEof []
    rw [append_nil, ← hbytes, hload] at hrun
    cases hrun
    refine ⟨s'', rfl, ?_⟩
    rintro B ⟨⟩
    exact ⟨vs, hholds, hmem⟩

/-- **One operation keeps what every record contains.** -/
theorem step {op : SetOp V} {st' : SetStore} (hfits : op.Fits C st)
    (hstep : st.step E C op = some st') : Tracks E C st' (ct.step op) := by
  cases op with
  | resize c len =>
    cases hstep
    exact h.setCol (h.resize c len)
  | append c i v =>
    obtain ⟨col, hcol, rfl⟩ := map_eq_some_iff.1 hstep
    obtain ⟨s, s', hs, happend, hset⟩ := appendItem_eq_some hcol
    refine h.put hset fun A hA => ?_
    obtain ⟨A0, hA0, rfl⟩ := map_eq_some_iff.1 hA
    obtain ⟨_, happend', h'⟩ := (h.get hs A0 hA0).append_spec v (hfits s hs)
    rw [happend] at happend'
    cases happend'
    exact h'
  | merge c i c' i' =>
    rw [SetStore.step] at hstep
    split at hstep
    case isTrue => cases hstep
    case isFalse hne =>
      obtain ⟨r, hr, rfl⟩ := map_eq_some_iff.1 hstep
      obtain ⟨s, hs, hr⟩ := bind_eq_some_iff.1 hr
      obtain ⟨o, ho, hr⟩ := bind_eq_some_iff.1 hr
      obtain ⟨⟨s', o'⟩, hmerge, rfl⟩ := map_eq_some_iff.1 hr
      -- the record that is merged into, then the one that is merged from
      have hinto : Tracked E C s' (map₂ (· ∪ ·) (ct.get c i) (ct.get c' i')) := by
        intro A hA
        obtain ⟨A1, A2, hA1, hA2, rfl⟩ := Option.map₂_eq_some_iff.1 hA
        obtain ⟨r, hmerge', h'⟩ := (h.get hs A1 hA1).merge_spec (h.get ho A2 hA2) (hfits s o hs ho)
        rw [hmerge] at hmerge'
        cases hmerge'
        exact h'
      refine (h.put rfl hinto).put (s := o') ?_ (fun _ hA => by cases hA)
      simp [SetStore.setCol, Ne.symm hne]
  | save c i k =>
    obtain ⟨_, hbytes, rfl⟩ := map_eq_some_iff.1 hstep
    obtain ⟨s, hs, rfl⟩ := map_eq_some_iff.1 hbytes
    refine ⟨h.recs, fun l A hA => ?_⟩
    by_cases hl : l = k
    · subst hl
      simp only [Contents.step, Function.update_self] at hA ⊢
      exact (h.get hs A hA).saved
    · simp only [Contents.step, Function.update_of_ne hl] at hA ⊢
      exact h.saved l A hA
  | load c i k =>
    rw [SetStore.step] at hstep
    split at hstep
    case h_2 => cases hstep
    case h_1 col rest hload =>
      cases hstep
      obtain ⟨_, hset, htracked⟩ := h.load hload
      exact h.put hset htracked
  | take c i =>
    obtain ⟨r, hr, rfl⟩ := map_eq_some_iff.1 hstep
    obtain ⟨s, _, hr⟩ := bind_eq_some_iff.1 hr
    obtain ⟨_, -, rfl⟩ := map_eq_some_iff.1 hr
    refine h.put rfl ?_
    rintro A ⟨⟩
    exact .default

lemma exists_step {op : SetOp V} (hclean : op.Clean ct) (hfits : op.Fits C st) :
    ∃ st', st.step E C op = some st' := by
  cases op with
  | resize c len => exact ⟨_, rfl⟩
  | append c i v =>
    obtain ⟨s, A, hs, -, hcontains⟩ := h.exists_record hclean
    obtain ⟨s', happend, -⟩ := hcontains.append_spec v (hfits s hs)
    exact ⟨_, by rw [SetStore.step, appendItem, hs, bind_some, happend, map_some,
      map_some]⟩
  | merge c i c' i' =>
    obtain ⟨hne, hinto, hfrom⟩ := hclean
    obtain ⟨s, A, hs, -, hcontains⟩ := h.exists_record hinto
    obtain ⟨o, B, ho, -, hcontains'⟩ := h.exists_record hfrom
    obtain ⟨r, hmerge, -⟩ := hcontains.merge_spec hcontains' (hfits s o hs ho)
    exact ⟨_, by rw [SetStore.step, if_neg hne, mergeItems, hs, bind_some, ho, bind_some, hmerge,
      map_some, map_some]⟩
  | save c i k =>
    obtain ⟨s, A, hs, -, -⟩ := h.exists_record hclean
    exact ⟨_, by rw [SetStore.step, saveRaw, hs, map_some, map_some]⟩
  | load c i k =>
    obtain ⟨hlt, hsaved⟩ := hclean
    obtain ⟨A, hA⟩ := Option.ne_none_iff_exists'.1 hsaved
    obtain ⟨vs, -, hsmall, hbytes, -⟩ := h.saved k A hA
    rw [← (h.recs c).length_eq] at hlt
    obtain ⟨_, _, -, hparses⟩ := parses_loadRaw (E := E) (getElem?_eq_getElem hlt) hsmall
    have hrun := hparses .unexpectedEof []
    rw [append_nil, ← hbytes] at hrun
    exact ⟨_, by rw [SetStore.step, hrun]⟩
  | take c i =>
    obtain ⟨s, A, hs, -, hcontains⟩ := h.exists_record hclean
    obtain ⟨_, hvalues, -⟩ := hcontains.intoValues_spec
    exact ⟨_, by rw [SetStore.step, takeValues, hs, bind_some, hvalues, map_some,
      map_some]⟩

lemma takeValues_spec {A : Set V} (hA : ct.get c i = some A) :
    ∃ vs col, (st.cols c).takeValues E C i = some (vs, col) ∧ (vs.map C.write).Nodup ∧ ∀ v, v ∈ vs ↔ v ∈ A := by
  obtain ⟨s, B, hs, hB, hcontains⟩ := h.exists_record (by rw [hA]; exact Option.some_ne_none A)
  obtain rfl : A = B := Option.some.inj (hA.symm.trans hB)
  obtain ⟨vs, hvalues, hnodup, hmem⟩ := hcontains.intoValues_spec
  have htake : (st.cols c).takeValues E C i
      = some (vs, ⟨(st.cols c).set.set i .default, (st.cols c).memUsed.sub (s.memSize E)⟩) := by
    rw [takeValues, hs, bind_some, hvalues, map_some]
  exact ⟨vs, _, htake, hnodup, hmem⟩

end Tracks

/-! ### Runs -/

lemma SetRun.tracks {st : SetStore} {ct : Contents V} (h : SetRun E C st ct) : Tracks E C st ct := by
  induction h with
  | new => exact .new
  | step op _ hfits hstep ih => exact ih.step hfits hstep

/-- **After any operations, a record that was not merged from gives the values it should contain, each once**, and further
operations on such records succeed. -/
theorem takeValues_gives_contents {st : SetStore} {ct : Contents V} (h : SetRun E C st ct) :
    (∀ c i A, ct.get c i = some A →
      ∃ vs col, (st.cols c).takeValues E C i = some (vs, col) ∧ (vs.map C.write).Nodup ∧ ∀ v, v ∈ vs ↔ v ∈ A)
      ∧ ∀ op : SetOp V, op.Clean ct → op.Fits C st → ∃ st', st.step E C op = some st' :=
  ⟨fun _ _ _ hA => h.tracks.takeValues_spec hA, fun _ hclean hfits => h.tracks.exists_step hclean hfits⟩

end Runs

/-! ### Bytes as values -/

def byteCodec : ScalarCodec UInt8 where
  write v := [v]
  read := BatchSerde.readU8
  parses := parses_readU8
  write_ne_nil _ := cons_ne_nil _ _

/-- Vectors that grow by what is appended, and a hash table in the order of its insertions. -/
def plainEnv : CollectEnv where
  accHash bytes := bytes.foldl (fun hash b => hash * 31 + b.toUInt64) 0
  tableOrder entries := entries
  tableOrder_perm _ := .refl _
  tableCapacity n := 2 * n
  grow _ capacity appended := capacity + appended.length
  le_grow _ _ _ := Nat.le_add_right _ _

def takenAfter (ops : List (SetOp UInt8)) (c i : ℕ) : Option (List UInt8) :=
  (ops.foldlM (SetStore.step plainEnv byteCodec) .new).bind fun st =>
    ((st.cols c).takeValues plainEnv byteCodec i).map Prod.fst

/-- A larger set is merged into a smaller one: the record that is merged from is left with the values of the other one.
One that was merged from keeps its values, and takes them again. -/
theorem merged_record_keeps_values :
    takenAfter [.resize 0 1, .resize 1 1, .append 0 0 1, .append 1 0 2, .append 1 0 3, .merge 0 0 1 0] 1 0 = some [1]
      ∧ takenAfter [.resize 0 1, .resize 1 1, .append 0 0 1, .append 1 0 2, .merge 0 0 1 0, .append 1 0 2] 1 0
        = some [2, 2] := by
  decide

/-- A record of one value, and one of two merged into it. -/
theorem takeValues_gives_contents_bytes :
    ∃ st ct, SetRun plainEnv byteCodec st ct ∧ ct.get 0 0 = some (insert 1 ∅ ∪ insert 2 (insert 1 ∅))
      ∧ ∃ vs col, (st.cols 0).takeValues plainEnv byteCodec 0 = some (vs, col) ∧ (vs.map byteCodec.write).Nodup
        ∧ ∀ v, v ∈ vs ↔ v ∈ (insert 1 ∅ ∪ insert 2 (insert 1 ∅) : Set UInt8) := by
  have hrun := ((((((SetRun.new (E := plainEnv) (C := byteCodec)).step (.resize 0 1) trivial rfl).step (.resize 1 1)
    trivial rfl).step (.append 0 0 1) (by rintro s ⟨⟩; decide) rfl).step (.append 1 0 1) (by rintro s ⟨⟩; decide) rfl).step
    (.append 1 0 2) (by rintro s ⟨⟩; decide) rfl).step (.merge 0 0 1 0) (by rintro s o ⟨⟩ ⟨⟩; decide) rfl
  exact ⟨_, _, hrun, rfl, (takeValues_gives_contents hrun).1 0 0 _ rfl⟩

end Auron.Agg
