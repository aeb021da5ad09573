import Auron.Arrow.Array
import Auron.Lib.Fallible

/-!
# Equality of keys (`arrow/eq_comparator.rs`)

`EqComparator` compares rows of two lists of columns.  It is made for rows whose keys are not null, so it looks at no null
buffer; but that goes for the children of lists and structs too, where it compares whatever lies in slots that are null.

`Value.eqv` is the equality of logical values: a null is equal to nulls only, scalars are compared as their types compare
them.  `ArrayRef.bare` is an array without its null buffers, whose values are what lies in the slots.  The comparator decides
the equality of those (`makeEqComparator_spec`).  That is the equality of the logical values on rows without nulls at any
depth, and on rows that differ in a place where neither of them has a null.
-/

namespace Auron.Arrow

open Auron.Io (Bytes offsetAt span)
open List

/-! ### Equality of values -/

def isNaN (exponent mantissa bits : ℕ) : Bool :=
  bits / 2 ^ mantissa % 2 ^ exponent == 2 ^ exponent - 1 && bits % 2 ^ mantissa != 0

/-- `==` of floats: a NaN is equal to nothing, the two zeros to each other. -/
def floatEq (exponent mantissa x y : ℕ) : Bool :=
  !isNaN exponent mantissa x && !isNaN exponent mantissa y &&
    (x == y || (x % 2 ^ (exponent + mantissa) == 0 && y % 2 ^ (exponent + mantissa) == 0))

def nativeEq : PrimitiveType → ℕ → ℕ → Bool
  | .float16 => floatEq 5 10
  | .float32 => floatEq 8 23
  | .float64 => floatEq 11 52
  | _ => fun x y => x == y

mutual
def Value.eqv : Value → Value → Bool
  | .null, .null => true
  | .bool x, .bool y => x == y
  | .native t x, .native t' y => t == t' && nativeEq t x y
  | .bytes x, .bytes y => x == y
  | .list xs, .list ys => eqvs xs ys
  | .struct xs, .struct ys => eqvs xs ys
  | _, _ => false
def Value.eqvs : List Value → List Value → Bool
  | [], [] => true
  | x :: xs, y :: ys => eqv x y && eqvs xs ys
  | _, _ => false
end

mutual
/-- The value is not null, and has no null at any depth. -/
def Value.nullFree : Value → Bool
  | .null => false
  | .list xs => allNullFree xs
  | .struct xs => allNullFree xs
  | _ => true
def Value.allNullFree : List Value → Bool
  | [] => true
  | x :: xs => x.nullFree && allNullFree xs
end

mutual
/-- The values differ in a place that has no null, and is in no null, on either side. -/
def Value.differ : Value → Value → Bool
  | .null, _ => false
  | _, .null => false
  | .list xs, .list ys => anyDiffer xs ys
  | .struct xs, .struct ys => anyDiffer xs ys
  | x, y => !x.eqv y
def Value.anyDiffer : List Value → List Value → Bool
  | [], [] => false
  | x :: xs, y :: ys => x.differ y || anyDiffer xs ys
  | _, _ => true
end

/-! ### The comparator -/

inductive EqError where
  /-- `make_eq_comparator_multiple_arrays: cols1.len ({}) != cols2.len ({})`. -/
  | numColumns (n m : ℕ)
  /-- `Cannot compare StructArray with different number of columns`. -/
  | structColumns
  /-- `The data type type {lhs:?} has no natural order`. -/
  | noNaturalOrder (dataType : DataType)
  /-- `Can't compare arrays of different types`. -/
  | differentTypes
  /-- `unreachable!()`, for dictionaries with keys of different types. -/
  | unreachable

/-- `DynEqComparator`; `none` if an index is out of bounds. -/
abbrev DynEqComparator := ℕ → ℕ → Option Bool

def ArrayRef.logicalNulls : ArrayRef → Nulls
  | .null len => some (replicate len false)
  | .dictionary _ keys values nulls =>
    match values.logicalNulls with
    | none => nulls
    | some valid => some (keys.mapIdx fun i key => validAt nulls i && valid.getD key false)
  | a => a.nulls

/-- The row is null, by nulls of which there are some. -/
def nullIn (nulls : Nulls) (i : ℕ) : Option Bool := if nullCount nulls = 0 then some false else (isValid nulls i).map (!·)

def eqImpl (l r : ArrayRef) (ignoresNull : Bool) (eq : DynEqComparator) : DynEqComparator :=
  if ignoresNull then eq
  else fun i j => (nullIn l.logicalNulls i).bind fun lNull =>
    if lNull then some false
    else (nullIn r.logicalNulls j).bind fun rNull => if rNull then some false else eq i j

def eqSlots {α : Type} (eq : α → α → Bool) (l r : List α) : DynEqComparator := fun i j =>
  l[i]?.bind fun x => r[j]?.map fun y => eq x y

def allTrue : List (Option Bool) → Option Bool
  | [] => some true
  | b :: bs => b.bind fun b => if b then allTrue bs else some false

/-- The loops of `eq_list` and `eq_fixed_list`: the items are compared first, the lengths at the end. -/
def eqItems (eq : DynEqComparator) (ls rs : List ℕ) : Option Bool :=
  (allTrue (zipWith eq ls rs)).map fun b => b && ls.length == rs.length

def fixedSpan (size i : ℕ) : List ℕ := (range size).map (i * size + ·)

/-- The type of the array, by which `downcast_primitive!` matches: without time zones, precision and scale. -/
def PrimitiveType.arrayType : PrimitiveType → PrimitiveType
  | timestamp unit _ => timestamp unit none
  | decimal128 _ _ => decimal128 38 10
  | decimal256 _ _ => decimal256 76 10
  | t => t

/-- The types that `downcast_integer!` matches. -/
def PrimitiveType.isInteger : PrimitiveType → Bool
  | int8 | int16 | int32 | int64 | uint8 | uint16 | uint32 | uint64 => true
  | _ => false

def notCompared (l r : ArrayRef) : EqError := if l.dataType = r.dataType then .noNaturalOrder l.dataType else .differentTypes

def Columns.length : Columns → ℕ
  | .nil => 0
  | .cons _ columns => columns.length + 1

mutual
def makeEqComparator (ignoresNull : Bool) : ArrayRef → ArrayRef → Except EqError DynEqComparator
  | .boolean l ln, .boolean r rn => .ok (eqImpl (.boolean l ln) (.boolean r rn) ignoresNull (eqSlots (· == ·) l r))
  | .primitive t l ln, .primitive t' r rn =>
    if t.arrayType = t'.arrayType then
      .ok (eqImpl (.primitive t l ln) (.primitive t' r rn) ignoresNull (eqSlots (nativeEq t) l r))
    else .error (notCompared (.primitive t l ln) (.primitive t' r rn))
  | .bytes u large l ln, .bytes u' large' r rn =>
    if u = u' ∧ large = large' then
      .ok (eqImpl (.bytes u large l ln) (.bytes u' large' r rn) ignoresNull (eqSlots (· == ·) l r))
    else .error (notCompared (.bytes u large l ln) (.bytes u' large' r rn))
  | .fixedSizeBinary size l ln, .fixedSizeBinary size' r rn =>
    .ok (eqImpl (.fixedSizeBinary size l ln) (.fixedSizeBinary size' r rn) ignoresNull (eqSlots (· == ·) l r))
  | .list large lo l ln, .list large' ro r rn =>
    if large = large' then
      (makeEqComparator ignoresNull l r).map fun eq =>
        eqImpl (.list large lo l ln) (.list large' ro r rn) ignoresNull fun i j =>
          (slotSpan lo i).bind fun ls => (slotSpan ro j).bind fun rs => eqItems eq ls rs
    else .error (notCompared (.list large lo l ln) (.list large' ro r rn))
  | .fixedSizeList size len l ln, .fixedSizeList size' len' r rn =>
    (makeEqComparator ignoresNull l r).map fun eq =>
      eqImpl (.fixedSizeList size len l ln) (.fixedSizeList size' len' r rn) ignoresNull fun i j =>
        eqItems eq (fixedSpan size i) (fixedSpan size' j)
  | .struct len l ln, .struct len' r rn =>
    if l.length ≠ r.length then .error .structColumns
    else (makeEqComparators ignoresNull l r).map fun eqs =>
      eqImpl (.struct len l ln) (.struct len' r rn) ignoresNull fun i j => allTrue (eqs.map fun eq => eq i j)
  | .dictionary index lk l ln, .dictionary index' rk r rn =>
    if index.isInteger ∧ index = index' then
      (makeEqComparator ignoresNull l r).map fun eq =>
        eqImpl (.dictionary index lk l ln) (.dictionary index' rk r rn) ignoresNull fun i j =>
          lk[i]?.bind fun l => rk[j]?.bind fun r => eq l r
    else .error .unreachable
  | l, r => .error (notCompared l r)
def makeEqComparators (ignoresNull : Bool) : Columns → Columns → Except EqError (List DynEqComparator)
  | .cons l ls, .cons r rs =>
    (makeEqComparator ignoresNull l r).bind fun eq => (makeEqComparators ignoresNull ls rs).map fun eqs => eq :: eqs
  | _, _ => .ok []
end

def makeEqComparatorMultipleArrays (cols1 cols2 : List ArrayRef) : Except EqError DynEqComparator :=
  if cols1.length ≠ cols2.length then .error (.numColumns cols1.length cols2.length)
  else ((cols1.zip cols2).mapM fun x => makeEqComparator true x.1 x.2).map fun eqs => fun i j =>
    allTrue (eqs.map fun eq => eq i j)

/-- `EqComparator`: the comparison of one column of a common type, or of any columns. -/
inductive EqComparator where
  /-- `Int8`, `Int16`, `Int32`, `Int64`, `Date32` and `Date64`. -/
  | primitive (t : PrimitiveType) (c1 c2 : List ℕ)
  /-- `String` and `Binary`. -/
  | bytes (isUtf8 : Bool) (c1 c2 : List Bytes)
  | other (eq : DynEqComparator)

/-- The types of scalars that `EqComparator` has variants for. -/
def inlined : PrimitiveType → Bool
  | .int8 | .int16 | .int32 | .int64 | .date32 | .date64 => true
  | _ => false

def EqComparator.tryNew (cols1 cols2 : List ArrayRef) : Except EqError EqComparator :=
  match cols1.zip cols2 with
  | [(.primitive t l _, .primitive t' r _)] =>
    if t = t' ∧ inlined t = true then .ok (.primitive t l r) else (makeEqComparatorMultipleArrays cols1 cols2).map .other
  | [(.bytes u false l _, .bytes u' false r _)] =>
    if u = u' then .ok (.bytes u l r) else (makeEqComparatorMultipleArrays cols1 cols2).map .other
  | _ => (makeEqComparatorMultipleArrays cols1 cols2).map .other

/-- `EqComparator::eq`; `none` if an unchecked index is out of bounds. -/
def EqComparator.eq : EqComparator → ℕ → ℕ → Option Bool
  | .primitive _ c1 c2, i, j => eqSlots (· == ·) c1 c2 i j
  | .bytes _ c1 c2, i, j => eqSlots (· == ·) c1 c2 i j
  | .other eq, i, j => eq i j

/-! ### What lies in the slots -/

mutual
/-- The array without null buffers, its own and those of its children. -/
def ArrayRef.bare : ArrayRef → ArrayRef
  | .null len => .null len
  | .boolean values _ => .boolean values none
  | .primitive t values _ => .primitive t values none
  | .bytes isUtf8 isLarge values _ => .bytes isUtf8 isLarge values none
  | .fixedSizeBinary size values _ => .fixedSizeBinary size values none
  | .list isLarge offsets values _ => .list isLarge offsets values.bare none
  | .fixedSizeList size len values _ => .fixedSizeList size len values.bare none
  | .struct len columns _ => .struct len columns.bare none
  | .map offsets keys values _ => .map offsets keys.bare values.bare none
  | .dictionary index keys values _ => .dictionary index keys values.bare none
def Columns.bare : Columns → Columns
  | .nil => .nil
  | .cons column columns => .cons column.bare columns.bare
end

mutual
/-- The keys of dictionaries that belong to a row name a value, also those of null slots. -/
def ArrayRef.Reads : ArrayRef → ℕ → Prop
  | .list _ offsets values _, i => ∀ k ∈ span offsets i, values.Reads k
  | .fixedSizeList size _ values _, i => ∀ k ∈ fixedSpan size i, values.Reads k
  | .struct _ columns _, i => columns.Reads i
  | .map offsets keys values _, i => ∀ k ∈ span offsets i, keys.Reads k ∧ values.Reads k
  | .dictionary _ keys values _, i => keys.getD i 0 < values.len ∧ values.Reads (keys.getD i 0)
  | _, _ => True
def Columns.Reads : Columns → ℕ → Prop
  | .nil, _ => True
  | .cons column columns, i => column.Reads i ∧ columns.Reads i
end

mutual
/-- The second value is the first one with something in the place of its nulls. -/
def Value.Covers : Value → Value → Prop
  | .null, _ => True
  | .list xs, .list ys => Value.CoversAll xs ys
  | .struct xs, .struct ys => Value.CoversAll xs ys
  | v, w => v = w
def Value.CoversAll : List Value → List Value → Prop
  | [], [] => True
  | x :: xs, y :: ys => x.Covers y ∧ Value.CoversAll xs ys
  | _, _ => False
end

section Covers

variable {xs : List Value} {v w v' w' : Value}

lemma covers_list (h : (Value.list xs).Covers w) : ∃ ys, w = .list ys ∧ Value.CoversAll xs ys := by
  cases w with
  | list ys => exact ⟨ys, rfl, h⟩
  | _ => cases h

lemma covers_struct (h : (Value.struct xs).Covers w) : ∃ ys, w = .struct ys ∧ Value.CoversAll xs ys := by
  cases w with
  | struct ys => exact ⟨ys, rfl, h⟩
  | _ => cases h

lemma coversAll_map {α : Type} {f g : α → Value} {l : List α} (h : ∀ a ∈ l, (f a).Covers (g a)) :
    Value.CoversAll (l.map f) (l.map g) := by
  induction l with
  | nil => trivial
  | cons a l ih =>
    obtain ⟨ha, hl⟩ := forall_mem_cons.1 h
    exact ⟨ha, ih hl⟩

lemma covers_unlessNull {nulls : Nulls} {i : ℕ} (h : v.Covers w) : (unlessNull nulls i v).Covers (unlessNull none i w) := by
  unfold unlessNull
  split
  · exact h
  · trivial

end Covers

mutual
/-- **The logical value of a row, and what lies in its slots.** -/
theorem ArrayRef.value_covers : ∀ (a : ArrayRef) (i : ℕ), (a.value i).Covers (a.bare.value i)
  | .null _, _ => trivial
  | .boolean _ _, _ => covers_unlessNull rfl
  | .primitive _ _ _, _ => covers_unlessNull rfl
  | .bytes _ _ _ _, _ => covers_unlessNull rfl
  | .fixedSizeBinary _ _ _, _ => covers_unlessNull rfl
  | .list _ _ values _, _ =>
    covers_unlessNull (coversAll_map fun k _ => values.value_covers k)
  | .fixedSizeList size _ values _, i =>
    covers_unlessNull (coversAll_map fun k _ => values.value_covers (i * size + k))
  | .struct _ columns _, i => covers_unlessNull (columns.values_cover i)
  | .map _ keys values _, _ =>
    covers_unlessNull (coversAll_map fun k _ => ⟨keys.value_covers k, values.value_covers k, trivial⟩)
  | .dictionary _ keys values _, i => covers_unlessNull (values.value_covers (keys.getD i 0))
theorem Columns.values_cover : ∀ (columns : Columns) (i : ℕ), Value.CoversAll (columns.values i) (columns.bare.values i)
  | .nil, _ => trivial
  | .cons column columns, i => ⟨column.value_covers i, columns.values_cover i⟩
end

mutual
lemma Value.eq_of_covers : ∀ {v w : Value}, v.Covers w → v.nullFree = true → v = w
  | .null, _, _, hfree => by cases hfree
  | .bool _, _, h, _ => h
  | .native _ _, _, h, _ => h
  | .bytes _, _, h, _ => h
  | .list _, _, h, hfree => by
    obtain ⟨ys, rfl, hys⟩ := covers_list h
    exact congrArg list (eq_of_coversAll hys hfree)
  | .struct _, _, h, hfree => by
    obtain ⟨ys, rfl, hys⟩ := covers_struct h
    exact congrArg struct (eq_of_coversAll hys hfree)
lemma Value.eq_of_coversAll : ∀ {xs ys : List Value}, Value.CoversAll xs ys → allNullFree xs = true → xs = ys
  | [], [], _, _ => rfl
  | x :: xs, y :: ys, h, hfree => by
    obtain ⟨hx, hxs⟩ := Bool.and_eq_true_iff.1 hfree
    rw [eq_of_covers h.1 hx, eq_of_coversAll h.2 hxs]
end

mutual
/-- **A difference without nulls is one of the slots.** -/
theorem Value.eqv_of_differ : ∀ {v v' w w' : Value}, v.Covers w → v'.Covers w' → v.differ v' = true → w.eqv w' = false
  | .null, _, _, _, _, _, hd => by cases hd
  | .list _, v', _, _, h, h', hd => by
    obtain ⟨_, rfl, hys⟩ := covers_list h
    cases v' with
    | null => cases hd
    | list => obtain ⟨_, rfl, hys'⟩ := covers_list h'; exact eqvs_of_anyDiffer hys hys' hd
    | struct => obtain ⟨_, rfl, -⟩ := covers_struct h'; rfl
    | _ => obtain rfl := h'; rfl
  | .struct _, v', _, _, h, h', hd => by
    obtain ⟨_, rfl, hys⟩ := covers_struct h
    cases v' with
    | null => cases hd
    | list => obtain ⟨_, rfl, -⟩ := covers_list h'; rfl
    | struct => obtain ⟨_, rfl, hys'⟩ := covers_struct h'; exact eqvs_of_anyDiffer hys hys' hd
    | _ => obtain rfl := h'; rfl
  | .bool _, v', _, _, h, h', hd
  | .native _ _, v', _, _, h, h', hd
  | .bytes _, v', _, _, h, h', hd => by
    obtain rfl := h
    cases v' with
    | null => cases hd
    | list => obtain ⟨_, rfl, -⟩ := covers_list h'; rfl
    | struct => obtain ⟨_, rfl, -⟩ := covers_struct h'; rfl
    | _ => obtain rfl := h'; simpa [differ] using hd
theorem Value.eqvs_of_anyDiffer : ∀ {xs xs' ys ys' : List Value}, Value.CoversAll xs ys → Value.CoversAll xs' ys' →
    anyDiffer xs xs' = true → eqvs ys ys' = false
  | [], [], [], [], _, _, hd => by cases hd
  | [], _ :: _, [], _ :: _, _, _, _ => rfl
  | _ :: _, [], _ :: _, [], _, _, _ => rfl
  | x :: xs, x' :: xs', y :: ys, y' :: ys', h, h', hd => by
    rw [eqvs, Bool.and_eq_false_iff]
    exact (Bool.or_eq_true_iff.1 hd).imp (eqv_of_differ h.1 h'.1) (eqvs_of_anyDiffer h.2 h'.2)
end

mutual
lemma Value.covers_refl : ∀ v : Value, v.Covers v
  | .null => trivial
  | .bool _ => rfl
  | .native _ _ => rfl
  | .bytes _ => rfl
  | .list xs => coversAll_refl xs
  | .struct xs => coversAll_refl xs
lemma Value.coversAll_refl : ∀ vs : List Value, Value.CoversAll vs vs
  | [] => trivial
  | v :: vs => ⟨v.covers_refl, coversAll_refl vs⟩
end

variable {i : ℕ}

lemma nullFree_unlessNull {nulls : Nulls} {v : Value} (h : (unlessNull nulls i v).nullFree = true) :
    validAt nulls i = true ∧ v.nullFree = true := by
  unfold unlessNull at h
  cases hvalid : validAt nulls i with
  | true =>
    rw [hvalid] at h
    exact ⟨rfl, h⟩
  | false =>
    rw [hvalid] at h
    cases h

lemma Value.allNullFree_iff {vs : List Value} : allNullFree vs = true ↔ ∀ v ∈ vs, v.nullFree = true := by
  induction vs with
  | nil => simp [allNullFree]
  | cons v vs ih => simp [allNullFree, ih]

lemma mem_fixedSpan_lt {size len j : ℕ} (hi : i < len) (hj : j ∈ fixedSpan size i) : j < len * size := by
  obtain ⟨k, hk, rfl⟩ := mem_map.1 hj
  have hle : (i + 1) * size ≤ len * size := Nat.mul_le_mul_right size hi
  rw [Nat.succ_mul] at hle
  have := mem_range.1 hk
  omega

mutual
lemma ArrayRef.reads_of_nullFree : ∀ (a : ArrayRef) {i : ℕ}, a.Valid → i < a.len → (a.value i).nullFree = true → a.Reads i
  | .null _, _, _, _, _ => trivial
  | .boolean _ _, _, _, _, _ => trivial
  | .primitive _ _ _, _, _, _, _ => trivial
  | .bytes _ _ _ _, _, _, _, _ => trivial
  | .fixedSizeBinary _ _ _, _, _, _, _ => trivial
  | .list _ offsets values _, i, ha, hi, hfree => fun k hk =>
    values.reads_of_nullFree ha.2.2 (ha.2.1.lt_of_mem_span hi hk)
      (Value.allNullFree_iff.1 (nullFree_unlessNull hfree).2 _ (mem_map_of_mem hk))
  | .fixedSizeList size len values _, i, ha, hi, hfree => fun k hk => by
    refine values.reads_of_nullFree ha.2.2 (ha.2.1.symm ▸ mem_fixedSpan_lt hi hk) ?_
    obtain ⟨j, hj, rfl⟩ := mem_map.1 hk
    exact Value.allNullFree_iff.1 (nullFree_unlessNull hfree).2 _ (mem_map_of_mem hj)
  | .struct len columns _, i, ha, hi, hfree => columns.reads_of_nullFree ha.2 hi (nullFree_unlessNull hfree).2
  | .map offsets keys values _, i, ha, hi, hfree => fun k hk => by
    have hlt := ha.2.1.lt_of_mem_span hi hk
    have hentry := Value.allNullFree_iff.1 (nullFree_unlessNull hfree).2 _ (mem_map_of_mem hk)
    have hboth := Value.allNullFree_iff.1 hentry
    exact ⟨keys.reads_of_nullFree ha.2.2.2.1 hlt (hboth _ (by simp)),
      values.reads_of_nullFree ha.2.2.2.2 (ha.2.2.1.symm ▸ hlt) (hboth _ (by simp))⟩
  | .dictionary _ keys values _, i, ha, hi, hfree => by
    obtain ⟨hvalid, hfree⟩ := nullFree_unlessNull hfree
    have hkey := ha.2.1 i hi hvalid
    exact ⟨hkey, values.reads_of_nullFree ha.2.2 hkey hfree⟩
lemma Columns.reads_of_nullFree : ∀ (columns : Columns) {i len : ℕ}, columns.Valid len → i < len →
    Value.allNullFree (columns.values i) = true → columns.Reads i
  | .nil, _, _, _, _, _ => trivial
  | .cons column columns, i, len, ha, hi, hfree => by
    obtain ⟨hcolumn, hcolumns⟩ := Bool.and_eq_true_iff.1 hfree
    exact ⟨column.reads_of_nullFree ha.2.1 (ha.1.symm ▸ hi) hcolumn, columns.reads_of_nullFree ha.2.2 hi hcolumns⟩
end

/-! ### Comparing rows -/

/-- What a comparator of two arrays does: it compares what lies in the slots. -/
def Compares (eq : DynEqComparator) (a b : ArrayRef) : Prop :=
  ∀ i j, i < a.len → j < b.len → a.Reads i → b.Reads j → eq i j = some (Value.eqv (a.bare.value i) (b.bare.value j))

lemma compares_slots {α : Type} {eq : α → α → Bool} {l r : List α} {a b : ArrayRef} (wrap : α → Value)
    (d : α) (hl : a.len = l.length) (hr : b.len = r.length) (ha : ∀ i, a.bare.value i = wrap (l.getD i d))
    (hb : ∀ j, b.bare.value j = wrap (r.getD j d))
    (heq : ∀ x y, Value.eqv (wrap x) (wrap y) = eq x y) : Compares (eqSlots eq l r) a b := by
  intro i j hi hj _ _
  rw [hl] at hi
  rw [hr] at hj
  rw [ha, getD_eq_getElem l d hi, hb, getD_eq_getElem r d hj, heq, eqSlots, getElem?_eq_getElem hi,
    getElem?_eq_getElem hj, Option.bind_some, Option.map_some]

lemma allTrue_cons {bs : List (Option Bool)} {c : Bool} (h : allTrue bs = some c) (b : Bool) :
    allTrue (some b :: bs) = some (b && c) := by
  cases b
  · rfl
  · exact h

/-- **The loop over the items of two lists.** -/
theorem eqItems_eq {eq : DynEqComparator} {a b : ArrayRef} (heq : Compares eq a b) :
    ∀ {ls rs : List ℕ}, (∀ i ∈ ls, i < a.len ∧ a.Reads i) → (∀ j ∈ rs, j < b.len ∧ b.Reads j) →
      eqItems eq ls rs = some (Value.eqvs (ls.map a.bare.value) (rs.map b.bare.value))
  | [], [], _, _ => rfl
  | [], _ :: _, _, _ => rfl
  | _ :: _, [], _, _ => rfl
  | i :: ls, j :: rs, hls, hrs => by
    obtain ⟨⟨hi, hai⟩, hls⟩ := forall_mem_cons.1 hls
    obtain ⟨⟨hj, hbj⟩, hrs⟩ := forall_mem_cons.1 hrs
    have ih := eqItems_eq heq hls hrs
    rw [eqItems] at ih ⊢
    rw [zipWith_cons_cons, allTrue, heq i j hi hj hai hbj, Option.bind_some, map_cons, map_cons, Value.eqvs]
    cases Value.eqv (a.bare.value i) (b.bare.value j) with
    | false => rfl
    | true =>
      rw [if_pos rfl, Bool.true_and, ← ih]
      simp

/-! ### Types -/

mutual
def comparable : DataType → Bool
  | .boolean | .primitive _ | .bytes _ _ | .fixedSizeBinary _ => true
  | .list _ item => comparable item
  | .fixedSizeList item _ => comparable item
  | .struct fields => comparableFields fields
  | .dictionary index value => index.isInteger && comparable value
  | _ => false
def comparableFields : Fields → Bool
  | .nil => true
  | .cons dataType fields => comparable dataType && comparableFields fields
end

lemma Columns.length_eq_of_fields : ∀ {l r : Columns}, l.fields = r.fields → l.length = r.length
  | .nil, .nil, _ => rfl
  | .nil, .cons _ _, h => by cases h
  | .cons _ _, .nil, h => by cases h
  | .cons _ ls, .cons _ rs, h => congrArg (· + 1) (length_eq_of_fields (Fields.cons.inj h).2)

/-! ### Agreement -/

lemma compares_items {eq : DynEqComparator} {a b l r : ArrayRef} (ls rs : ℕ → List ℕ) (heq : Compares eq l r)
    (ha : ∀ i, a.bare.value i = .list ((ls i).map l.bare.value)) (hb : ∀ j, b.bare.value j = .list ((rs j).map r.bare.value))
    (hl : ∀ i < a.len, a.Reads i → ∀ k ∈ ls i, k < l.len ∧ l.Reads k)
    (hr : ∀ j < b.len, b.Reads j → ∀ k ∈ rs j, k < r.len ∧ r.Reads k) :
    Compares (fun i j => eqItems eq (ls i) (rs j)) a b := by
  intro i j hi hj hai hbj
  rw [ha i, hb j]
  exact eqItems_eq heq (hl i hi hai) (hr j hj hbj)

mutual
/-- **The comparator of two arrays of one type** compares what lies in their slots. -/
theorem makeEqComparator_spec : ∀ a b : ArrayRef, a.Valid → b.Valid → a.dataType = b.dataType →
    comparable a.dataType = true → ∃ eq, makeEqComparator true a b = .ok eq ∧ Compares eq a b
  | .null _, _, _, _, _, hc => by cases hc
  | .map _ _ _ _, _, _, _, _, hc => by cases hc
  | .boolean l ln, b, _, _, ht, _ => by
    cases b with
    | boolean r rn =>
      exact ⟨_, rfl, compares_slots .bool false rfl rfl (fun _ => rfl) (fun _ => rfl) fun _ _ => rfl⟩
    | _ => cases ht
  | .primitive t l ln, b, _, _, ht, _ => by
    cases b with
    | primitive t' r rn =>
      obtain rfl := DataType.primitive.inj ht
      refine ⟨_, if_pos rfl, compares_slots (.native t) 0 rfl rfl (fun _ => rfl) (fun _ => rfl) fun x y => ?_⟩
      rw [Value.eqv, BEq.rfl, Bool.true_and]
    | _ => cases ht
  | .bytes u large l ln, b, _, _, ht, _ => by
    cases b with
    | bytes u' large' r rn =>
      obtain ⟨rfl, rfl⟩ := DataType.bytes.inj ht
      exact ⟨_, if_pos ⟨rfl, rfl⟩, compares_slots .bytes [] rfl rfl (fun _ => rfl) (fun _ => rfl) fun _ _ => rfl⟩
    | _ => cases ht
  | .fixedSizeBinary size l ln, b, _, _, ht, _ => by
    cases b with
    | fixedSizeBinary size' r rn =>
      exact ⟨_, rfl, compares_slots .bytes [] rfl rfl (fun _ => rfl) (fun _ => rfl) fun _ _ => rfl⟩
    | _ => cases ht
  | .list large lo l ln, b, ha, hb, ht, hc => by
    cases b with
    | list large' ro r rn =>
      obtain ⟨rfl, hitem⟩ := DataType.list.inj ht
      obtain ⟨eq, heq, hcompares⟩ := makeEqComparator_spec l r ha.2.2 hb.2.2 hitem hc
      refine ⟨_, (if_pos rfl).trans (congrArg _ heq), fun i j hi hj => ?_⟩
      show _ → _ → ((slotSpan lo i).bind fun ls => (slotSpan ro j).bind fun rs => eqItems eq ls rs) = _
      rw [slotSpan_eq hi, slotSpan_eq hj]
      exact compares_items (a := .list large lo l ln) (b := .list large ro r rn) (span lo) (span ro) hcompares
        (fun _ => rfl) (fun _ => rfl) (fun i hi h k hk => ⟨ha.2.1.lt_of_mem_span hi hk, h k hk⟩)
        (fun j hj h k hk => ⟨hb.2.1.lt_of_mem_span hj hk, h k hk⟩) i j hi hj
    | _ => cases ht
  | .fixedSizeList size len l ln, b, ha, hb, ht, hc => by
    cases b with
    | fixedSizeList size' len' r rn =>
      obtain ⟨hitem, rfl⟩ := DataType.fixedSizeList.inj ht
      obtain ⟨eq, heq, hcompares⟩ := makeEqComparator_spec l r ha.2.2 hb.2.2 hitem hc
      refine ⟨_, congrArg _ heq, compares_items (fixedSpan size) (fixedSpan size) hcompares ?_ ?_ ?_ ?_⟩
      · exact fun i => by rw [fixedSpan, map_map]; rfl
      · exact fun j => by rw [fixedSpan, map_map]; rfl
      · exact fun i hi h k hk => ⟨ha.2.1.symm ▸ mem_fixedSpan_lt hi hk, h k hk⟩
      · exact fun j hj h k hk => ⟨hb.2.1.symm ▸ mem_fixedSpan_lt hj hk, h k hk⟩
    | _ => cases ht
  | .struct len l ln, b, ha, hb, ht, hc => by
    cases b with
    | struct len' r rn =>
      have ht := DataType.struct.inj ht
      obtain ⟨_, heqs, hcompares⟩ := makeEqComparators_spec l r ha.2 hb.2 ht hc
      exact ⟨_, (if_neg (not_not.2 (Columns.length_eq_of_fields ht))).trans (congrArg _ heqs), hcompares⟩
    | _ => cases ht
  | .dictionary index lk l ln, b, ha, hb, ht, hc => by
    cases b with
    | dictionary index' rk r rn =>
      obtain ⟨rfl, hitem⟩ := DataType.dictionary.inj ht
      obtain ⟨hint, hc⟩ := Bool.and_eq_true_iff.1 hc
      obtain ⟨eq, heq, hcompares⟩ := makeEqComparator_spec l r ha.2.2 hb.2.2 hitem hc
      refine ⟨_, (if_pos ⟨hint, rfl⟩).trans (congrArg _ heq), fun i j hi hj hai hbj => ?_⟩
      have hkeys := hcompares _ _ hai.1 hbj.1 hai.2 hbj.2
      rw [getD_eq_getElem _ _ hi, getD_eq_getElem _ _ hj] at hkeys
      show (lk[i]?.bind fun l => rk[j]?.bind fun r => eq l r) =
        some (Value.eqv (l.bare.value (lk.getD i 0)) (r.bare.value (rk.getD j 0)))
      rw [getElem?_eq_getElem hi, getElem?_eq_getElem hj, Option.bind_some, Option.bind_some, hkeys,
        getD_eq_getElem _ _ hi, getD_eq_getElem _ _ hj]
    | _ => cases ht
theorem makeEqComparators_spec : ∀ l r : Columns, ∀ {m n : ℕ}, l.Valid m → r.Valid n → l.fields = r.fields →
    comparableFields l.fields = true → ∃ eqs, makeEqComparators true l r = .ok eqs ∧
      ∀ i j, i < m → j < n → l.Reads i → r.Reads j →
        allTrue (eqs.map fun eq => eq i j) = some (Value.eqvs (l.bare.values i) (r.bare.values j))
  | .nil, .nil, _, _, _, _, _, _ => ⟨[], rfl, fun _ _ _ _ _ _ => rfl⟩
  | .nil, .cons _ _, _, _, _, _, ht, _ => by cases ht
  | .cons _ _, .nil, _, _, _, _, ht, _ => by cases ht
  | .cons l ls, .cons r rs, m, n, hl, hr, ht, hc => by
    obtain ⟨ht, hts⟩ := Fields.cons.inj ht
    obtain ⟨hc, hcs⟩ := Bool.and_eq_true_iff.1 hc
    obtain ⟨rfl, hl, hls⟩ := hl
    obtain ⟨rfl, hr, hrs⟩ := hr
    obtain ⟨eq, heq, hcompares⟩ := makeEqComparator_spec l r hl hr ht hc
    obtain ⟨eqs, heqs, hall⟩ := makeEqComparators_spec ls rs hls hrs hts hcs
    refine ⟨eq :: eqs, ?_, fun i j hi hj hli hrj => ?_⟩
    · rw [makeEqComparators, heq, heqs]
      rfl
    · rw [map_cons, hcompares i j hi hj hli.1 hrj.1]
      exact allTrue_cons (hall i j hi hj hli.2 hrj.2) _
end

/-! ### Keys -/

lemma makeEqComparatorMultipleArrays_spec : ∀ {cols1 cols2 : List ArrayRef}, (∀ c ∈ cols1, c.Valid) →
    (∀ c ∈ cols2, c.Valid) → cols1.map ArrayRef.dataType = cols2.map ArrayRef.dataType →
    (∀ c ∈ cols1, comparable c.dataType = true) →
    ∃ eqs, ((cols1.zip cols2).mapM fun x => makeEqComparator true x.1 x.2) = .ok eqs ∧
      ∀ i j, (∀ c ∈ cols1, i < c.len ∧ c.Reads i) → (∀ c ∈ cols2, j < c.len ∧ c.Reads j) →
        allTrue (eqs.map fun eq => eq i j) =
          some (Value.eqvs (cols1.map fun c => c.bare.value i) (cols2.map fun c => c.bare.value j))
  | [], [], _, _, _, _ => ⟨[], rfl, fun _ _ _ _ => rfl⟩
  | [], _ :: _, _, _, ht, _ => by cases ht
  | _ :: _, [], _, _, ht, _ => by cases ht
  | a :: cols1, b :: cols2, h1, h2, ht, hc => by
    obtain ⟨ha, h1⟩ := forall_mem_cons.1 h1
    obtain ⟨hb, h2⟩ := forall_mem_cons.1 h2
    obtain ⟨hca, hc⟩ := forall_mem_cons.1 hc
    obtain ⟨hab, ht⟩ := cons.inj ht
    obtain ⟨eq, heq, hcompares⟩ := makeEqComparator_spec a b ha hb hab hca
    obtain ⟨eqs, heqs, hall⟩ := makeEqComparatorMultipleArrays_spec h1 h2 ht hc
    refine ⟨eq :: eqs, ?_, fun i j hi hj => ?_⟩
    · rw [zip_cons_cons, mapM_cons, heq, heqs]
      rfl
    · obtain ⟨⟨hi, hai⟩, hfrees⟩ := forall_mem_cons.1 hi
      obtain ⟨⟨hj, hbj⟩, hfrees'⟩ := forall_mem_cons.1 hj
      rw [map_cons, hcompares i j hi hj hai hbj]
      exact allTrue_cons (hall i j hfrees hfrees') _

lemma nativeEq_of_inlined {t : PrimitiveType} (h : inlined t = true) : nativeEq t = fun x y => x == y := by
  cases t <;> first | rfl | cases h

lemma allTrue_singleton (b : Option Bool) : allTrue [b] = b := by
  rcases b with _ | _ | _ <;> rfl

lemma tryNew_eq {cols1 cols2 : List ArrayRef} {eqs : List DynEqComparator} (hlen : cols1.length = cols2.length)
    (heqs : ((cols1.zip cols2).mapM fun x => makeEqComparator true x.1 x.2) = .ok eqs) :
    ∃ c, EqComparator.tryNew cols1 cols2 = .ok c ∧ ∀ i j, c.eq i j = allTrue (eqs.map fun eq => eq i j) := by
  have hother : (makeEqComparatorMultipleArrays cols1 cols2).map EqComparator.other =
      .ok (.other fun i j => allTrue (eqs.map fun eq => eq i j)) := by
    rw [makeEqComparatorMultipleArrays, if_neg (not_not.2 hlen), heqs]
    rfl
  have hsingle : ∀ {a b : ArrayRef} {eq : DynEqComparator}, cols1.zip cols2 = [(a, b)] →
      makeEqComparator true a b = .ok eq → eqs = [eq] := by
    intro a b _ hzip heq
    rw [hzip, mapM_cons, heq] at heqs
    exact (Except.ok.inj heqs).symm
  unfold EqComparator.tryNew
  split
  next t l ln t' r rn hzip =>
    split
    next hin =>
      obtain ⟨rfl, hin⟩ := hin
      obtain rfl := hsingle hzip (if_pos rfl)
      refine ⟨_, rfl, fun i j => ?_⟩
      rw [map_singleton, allTrue_singleton, nativeEq_of_inlined hin]
      rfl
    next => exact ⟨_, hother, fun _ _ => rfl⟩
  next u l ln u' r rn hzip =>
    split
    next hu =>
      subst hu
      obtain rfl := hsingle hzip (if_pos ⟨rfl, rfl⟩)
      exact ⟨_, rfl, fun i j => (allTrue_singleton _).symm⟩
    next => exact ⟨_, hother, fun _ _ => rfl⟩
  next => exact ⟨_, hother, fun _ _ => rfl⟩

/-- **The comparator of key columns** compares what lies in their slots. -/
theorem tryNew_slots {cols1 cols2 : List ArrayRef} (h1 : ∀ c ∈ cols1, c.Valid) (h2 : ∀ c ∈ cols2, c.Valid)
    (htypes : cols1.map ArrayRef.dataType = cols2.map ArrayRef.dataType)
    (hcomparable : ∀ c ∈ cols1, comparable c.dataType = true) :
    ∃ c, EqComparator.tryNew cols1 cols2 = .ok c ∧ ∀ i j, (∀ c ∈ cols1, i < c.len ∧ c.Reads i) →
      (∀ c ∈ cols2, j < c.len ∧ c.Reads j) →
      c.eq i j = some (Value.eqvs (cols1.map fun c => c.bare.value i) (cols2.map fun c => c.bare.value j)) := by
  obtain ⟨_, heqs, hall⟩ := makeEqComparatorMultipleArrays_spec h1 h2 htypes hcomparable
  have hlen : cols1.length = cols2.length := by simpa using congrArg length htypes
  obtain ⟨c, hc, heq⟩ := tryNew_eq hlen heqs
  exact ⟨c, hc, fun i j hi hj => (heq i j).trans (hall i j hi hj)⟩

lemma values_cover (cols : List ArrayRef) (i : ℕ) :
    Value.CoversAll (cols.map fun c => c.value i) (cols.map fun c => c.bare.value i) :=
  coversAll_map fun c _ => c.value_covers i

lemma slots_of_nullFree {cols : List ArrayRef} (hvalid : ∀ c ∈ cols, c.Valid) (hi : ∀ c ∈ cols, i < c.len)
    (hfree : ∀ c ∈ cols, (c.value i).nullFree = true) :
    (∀ c ∈ cols, i < c.len ∧ c.Reads i) ∧ (cols.map fun c => c.bare.value i) = cols.map fun c => c.value i :=
  ⟨fun c hc => ⟨hi c hc, c.reads_of_nullFree (hvalid c hc) (hi c hc) (hfree c hc)⟩,
    (Value.eq_of_coversAll (values_cover cols i) (Value.allNullFree_iff.2 (forall_mem_map.2 hfree))).symm⟩

/-- A column with one list of one number, or of a null with something in its slot. -/
def oneItem (bits : ℕ) (valid : Bool) : ArrayRef := .list false [0, 1] (.primitive .int32 [bits] (some [valid])) none

lemma oneItem_valid {bits : ℕ} (hbits : bits < 2 ^ 32) (valid : Bool) : (oneItem bits valid).Valid := by
  refine ⟨nofun, offsetsHold_one, fun bs hbs => ?_, fun x hx => ?_⟩
  · cases hbs
    rfl
  · rw [mem_singleton.1 hx]
    exact hbits

end Auron.Arrow
