import Auron.Lib.Masks

/-!
# Arrays of user-defined values (`uda.rs`)

A slice of a `UserDefinedArray` shares the items of the array and accumulates an offset into them; `filter` and `scatter`
collect new items.  After any sequence of these the array stands for the list that the same operations on lists give
(`refines_run`).  But `null_count` counts the items that are not null.
-/

namespace Auron.Common

open List Lib

variable {α : Type}

structure UserDefinedArray (α : Type) where
  items : List (Option α)
  offset : ℕ
  length : ℕ
  deriving DecidableEq

namespace UserDefinedArray

def fromItems (items : List (Option α)) : UserDefinedArray α := ⟨items, 0, items.length⟩

def iter (a : UserDefinedArray α) : Option (List (Option α)) :=
  if a.offset + a.length ≤ a.items.length then some ((a.items.drop a.offset).take a.length) else none

def filterLoop (filtered : List (Option α)) : List (Option α × Option Bool) → List (Option α)
  | [] => filtered
  | (item, cond) :: rest => filterLoop (if cond.getD false then filtered ++ [item] else filtered) rest

def filter (a : UserDefinedArray α) (cond : List (Option Bool)) : Option (UserDefinedArray α) :=
  if cond.length = a.length then a.iter.map fun items => fromItems (filterLoop [] (items.zip cond)) else none

/-- The loop of `scatter`; there is no further item to take if too many places of the mask are true. -/
def scatterLoop (scattered : List (Option α)) : List (Option α) → List (Option Bool) → Option (List (Option α))
  | _, [] => some scattered
  | iter, cond :: mask =>
    if cond.getD false then
      match iter with
      | [] => none
      | item :: iter => scatterLoop (scattered ++ [item]) iter mask
    else scatterLoop (scattered ++ [none]) iter mask

def scatter (a : UserDefinedArray α) (mask : List (Option Bool)) : Option (UserDefinedArray α) :=
  a.iter.bind fun iter => (scatterLoop [] iter mask).map fromItems

def slice (a : UserDefinedArray α) (offset length : ℕ) : UserDefinedArray α := ⟨a.items, a.offset + offset, length⟩

def isNull (a : UserDefinedArray α) (index : ℕ) : Option Bool := a.items[a.offset + index]?.map Option.isNone

def isValid (a : UserDefinedArray α) (index : ℕ) : Option Bool := a.items[a.offset + index]?.map Option.isSome

def nullCount (a : UserDefinedArray α) : Option ℕ := a.iter.map fun items => (items.filter Option.isSome).length

/-! ### The same operations on lists -/

inductive Op (α : Type) where
  | fromItems (items : List (Option α))
  | slice (offset length : ℕ)
  | filter (cond : List (Option Bool))
  | scatter (mask : List (Option Bool))

def Op.onArray : UserDefinedArray α → Op α → Option (UserDefinedArray α)
  | _, fromItems items => some (.fromItems items)
  | a, slice offset length => some (a.slice offset length)
  | a, filter cond => a.filter cond
  | a, scatter mask => a.scatter mask

def truthy (mask : List (Option Bool)) : List Bool := mask.map (·.getD false)

/-- An operation on the plain list, where its condition is met. -/
def Op.onList : List (Option α) → Op α → Option (List (Option α))
  | _, fromItems items => some items
  | l, slice offset length => if offset + length ≤ l.length then some ((l.drop offset).take length) else none
  | l, filter cond => if cond.length = l.length then some (keep (truthy cond) l) else none
  | l, scatter mask => if (truthy mask).count true = l.length then spread none (truthy mask) l else none

lemma filterLoop_eq (filtered items : List (Option α)) (cond : List (Option Bool)) :
    filterLoop filtered (items.zip cond) = filtered ++ keep (truthy cond) items := by
  induction cond generalizing filtered items with
  | nil => simp [filterLoop, truthy, keep]
  | cons c cond ih =>
    cases items with
    | nil => cases h : c.getD false <;> simp [filterLoop, truthy, keep, h]
    | cons item items =>
      rw [zip_cons_cons, filterLoop, ih]
      cases h : c.getD false <;> simp [truthy, keep, h]

lemma scatterLoop_eq (scattered iter : List (Option α)) (mask : List (Option Bool)) :
    scatterLoop scattered iter mask = (spread none (truthy mask) iter).map (scattered ++ ·) := by
  induction mask generalizing scattered iter with
  | nil => simp [scatterLoop, truthy, spread]
  | cons c mask ih =>
    cases h : c.getD false with
    | false => simp [scatterLoop, truthy, spread, h, ih, Function.comp_def]
    | true => cases iter <;> simp [scatterLoop, truthy, spread, h, ih, Function.comp_def]

lemma iter_fromItems (items : List (Option α)) : (fromItems items).iter = some items := by simp [iter, fromItems]

lemma iter_eq_some_iff {a : UserDefinedArray α} {l : List (Option α)} :
    a.iter = some l ↔ a.offset + a.length ≤ a.items.length ∧ (a.items.drop a.offset).take a.length = l := by
  simp [iter]

lemma length_of_iter {a : UserDefinedArray α} {l : List (Option α)} (h : a.iter = some l) : a.length = l.length := by
  obtain ⟨hle, rfl⟩ := iter_eq_some_iff.1 h
  rw [length_take, length_drop]
  omega

/-- **One operation** on an array that stands for a list. -/
lemma iter_onArray {a : UserDefinedArray α} {l l' : List (Option α)} {op : Op α} (h : a.iter = some l)
    (hop : op.onList l = some l') : ∃ a', op.onArray a = some a' ∧ a'.iter = some l' := by
  have hlen := length_of_iter h
  cases op with
  | fromItems items => exact ⟨_, rfl, (iter_fromItems items).trans hop⟩
  | slice offset length =>
    refine ⟨_, rfl, ?_⟩
    obtain ⟨hbound, hl'⟩ := Option.ite_none_right_eq_some.1 hop
    obtain ⟨hle, rfl⟩ := iter_eq_some_iff.1 h
    refine iter_eq_some_iff.2 ⟨?_, ?_⟩
    · simp only [slice]
      omega
    · rw [← Option.some.inj hl', drop_take, take_take, drop_drop, Nat.min_eq_left (by omega)]
      rfl
  | filter cond =>
    obtain ⟨hcond, hl'⟩ := Option.ite_none_right_eq_some.1 hop
    refine ⟨fromItems l', ?_, iter_fromItems l'⟩
    rw [Op.onArray, filter, if_pos (hcond.trans hlen.symm), h, Option.map_some, filterLoop_eq,
      nil_append, Option.some.inj hl']
  | scatter mask =>
    obtain ⟨-, hl'⟩ := Option.ite_none_right_eq_some.1 hop
    refine ⟨fromItems l', ?_, iter_fromItems l'⟩
    rw [Op.onArray, scatter, h, Option.bind_some, scatterLoop_eq, hl']
    rfl

lemma iter_run {ops : List (Op α)} {a : UserDefinedArray α} {l l' : List (Option α)} (h : a.iter = some l)
    (hops : ops.foldlM Op.onList l = some l') : ∃ a', ops.foldlM Op.onArray a = some a' ∧ a'.iter = some l' := by
  induction ops generalizing a l with
  | nil => exact ⟨a, rfl, h.trans hops⟩
  | cons op ops ih =>
    obtain ⟨l1, hop, hrest⟩ := Option.bind_eq_some_iff.1 (foldlM_cons.symm.trans hops)
    obtain ⟨a1, ha1, h1⟩ := iter_onArray h hop
    obtain ⟨a', ha', hl'⟩ := ih h1 hrest
    exact ⟨a', by rw [foldlM_cons, ha1]; exact ha', hl'⟩

/-- **The array behaves as the list** after any sequence of operations, but for the count of its nulls, which is right only
if half of the items are null. -/
theorem refines_run (ops : List (Op α)) {l : List (Option α)} (h : ops.foldlM Op.onList [] = some l) :
    ∃ a, ops.foldlM Op.onArray (fromItems []) = some a ∧ a.length = l.length ∧ a.iter = some l ∧
      (∀ i x, l[i]? = some x → a.isNull i = some x.isNone ∧ a.isValid i = some x.isSome) ∧
      (a.nullCount = some (l.countP Option.isNone) ↔ 2 * l.countP Option.isNone = l.length) := by
  obtain ⟨a, ha, hiter⟩ := iter_run (iter_fromItems []) h
  refine ⟨a, ha, length_of_iter hiter, hiter, ?_, ?_⟩
  · intro i x hx
    obtain ⟨-, rfl⟩ := iter_eq_some_iff.1 hiter
    have hitem : a.items[a.offset + i]? = some x := by
      rw [getElem?_take, getElem?_drop] at hx
      exact (Option.ite_none_right_eq_some.1 hx).2
    rw [isNull, isValid, hitem]
    exact ⟨rfl, rfl⟩
  · have hcount : l.length = l.countP Option.isNone + l.countP Option.isSome := by
      rw [length_eq_countP_add_countP Option.isNone]
      exact congrArg _ (countP_congr fun x _ => by cases x <;> simp)
    rw [nullCount, hiter, Option.map_some, ← countP_eq_length_filter, Option.some_inj]
    omega

theorem refines_run_nested_slices : ∃ a : UserDefinedArray ℕ,
    [Op.fromItems [some 1, none, some 2, none], .slice 1 3, .slice 1 2].foldlM Op.onArray (fromItems []) = some a ∧
      a.iter = some [some 2, none] := by
  obtain ⟨a, ha, -, hiter, -⟩ := refines_run [Op.fromItems [some 1, none, some 2, none], .slice 1 3, .slice 1 2] rfl
  exact ⟨a, ha, hiter⟩

/-- An item that is not null is counted. -/
theorem nullCount_valid_item : (fromItems [some 7]).iter = some [some 7] ∧ (fromItems [some 7]).nullCount = some 1 ∧
    [some 7].countP Option.isNone = 0 := by decide

end UserDefinedArray

end Auron.Common
