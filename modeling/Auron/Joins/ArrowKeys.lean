import Auron.Arrow.EqComparator
import Auron.Common.RowNullChecker
import Auron.Joins.JoinHashMap

/-!
# Keys of Arrow columns

What the joins take as given of keys, for keys that are read from columns.

`EqComparator` decides the equality of keys that have no float, and no null inside a list or a struct (`arrowKeys`).  It
does not for other keys: a `NaN` is not equal to itself, the two zeros are equal although their encodings differ, and of a
nested null it reads what lies in the slot.  `RowNullChecker` is the null check on encoded keys (`rowKeys`).
-/

namespace Auron.Arrow

def PrimitiveType.isFloat : PrimitiveType → Bool
  | float16 | float32 | float64 => true
  | _ => false

mutual
/-- The value has no float, at any depth. -/
def Value.floatFree : Value → Bool
  | .native t _ => !t.isFloat
  | .list xs => allFloatFree xs
  | .struct xs => allFloatFree xs
  | _ => true
def Value.allFloatFree : List Value → Bool
  | [] => true
  | x :: xs => x.floatFree && allFloatFree xs
end

lemma nativeEq_iff {t : PrimitiveType} (h : t.isFloat = false) (x y : ℕ) : nativeEq t x y = true ↔ x = y := by
  cases t
  case float16 | float32 | float64 => cases h
  all_goals exact beq_iff_eq

mutual
/-- **Values without floats** are compared by equality. -/
theorem Value.eqv_iff : ∀ {v w : Value}, v.floatFree = true → w.floatFree = true → (v.eqv w = true ↔ v = w)
  | .null, w, _, _ => by cases w <;> simp [eqv]
  | .bool _, w, _, _ => by cases w <;> simp [eqv]
  | .bytes _, w, _, _ => by cases w <;> simp [eqv]
  | .native t x, w, h, _ => by
    cases w with
    | native t' y =>
      have hfloat : t.isFloat = false := by simpa [floatFree] using h
      simp [eqv, nativeEq_iff hfloat]
    | _ => simp [eqv]
  | .list xs, w, h, h' => by
    cases w with
    | list ys => rw [eqv, eqvs_iff h h', list.injEq]
    | _ => simp [eqv]
  | .struct xs, w, h, h' => by
    cases w with
    | struct ys => rw [eqv, eqvs_iff h h', struct.injEq]
    | _ => simp [eqv]
theorem Value.eqvs_iff : ∀ {vs ws : List Value}, allFloatFree vs = true → allFloatFree ws = true →
    (eqvs vs ws = true ↔ vs = ws)
  | [], ws, _, _ => by cases ws <;> simp [eqvs]
  | v :: vs, [], _, _ => by simp [eqvs]
  | v :: vs, w :: ws, h, h' => by
    obtain ⟨hv, hvs⟩ := Bool.and_eq_true_iff.1 h
    obtain ⟨hw, hws⟩ := Bool.and_eq_true_iff.1 h'
    rw [eqvs, Bool.and_eq_true_iff, eqv_iff hv hw, eqvs_iff hvs hws, List.cons.injEq]
end

/-- A value without nulls and floats. -/
abbrev ExactValue := {v : Value // v.nullFree = true ∧ v.floatFree = true}

instance ExactValue.decidableEq : DecidableEq ExactValue := fun v w =>
  decidable_of_iff (v.1.eqv w.1 = true) ((Value.eqv_iff v.2.2 w.2.2).trans Subtype.ext_iff.symm)

end Auron.Arrow

namespace Auron.Joins

open Auron.Arrow Auron.Common List
open Auron.Io (Bytes)

variable {n : ℕ}

lemma Key.isSome_of_hasNull {κ : Fin n → Type} {k : Key κ} (h : k.hasNull = false) (c : Fin n) : ∃ v, k c = some v := by
  have hc := any_eq_false.1 h c (mem_finRange c)
  rwa [Bool.not_eq_true, Option.isNone_eq_false_iff, Option.isSome_iff_exists] at hc

section Comparator

/-- The column's value of a key. -/
def Key.value (k : Key fun _ : Fin n => ExactValue) (c : Fin n) : Value := (k c).elim .null (·.1)

/-- `EqComparator` on keys of exact values, with some hash function. -/
def arrowKeys (hash : (Key fun _ : Fin n => ExactValue) → ℕ) (hash_ne_zero : ∀ k, hash k ≠ 0) :
    KeyHash (fun _ : Fin n => ExactValue) where
  hash := hash
  hash_ne_zero := hash_ne_zero
  eq k k' := Value.eqvs ((finRange n).map k.value) ((finRange n).map k'.value)
  eq_iff k k' hk hk' := by
    have hfree : ∀ k : Key fun _ : Fin n => ExactValue, k.hasNull = false → ∀ cs : List (Fin n),
        Value.allFloatFree (cs.map k.value) = true := by
      intro k hk cs
      induction cs with
      | nil => rfl
      | cons c cs ih =>
        obtain ⟨v, hv⟩ := Key.isSome_of_hasNull hk c
        exact Bool.and_eq_true_iff.2 ⟨by rw [Key.value, hv]; exact v.2.2, ih⟩
    rw [Value.eqvs_iff (hfree k hk _) (hfree k' hk' _), map_inj_left]
    constructor
    · intro h
      funext c
      obtain ⟨v, hv⟩ := Key.isSome_of_hasNull hk c
      obtain ⟨v', hv'⟩ := Key.isSome_of_hasNull hk' c
      have hc := h c (mem_finRange c)
      rw [Key.value, Key.value, hv, hv'] at hc
      rw [hv, hv', Option.some.injEq]
      exact Subtype.ext hc
    · rintro rfl _ _
      rfl

variable {cols1 cols2 : Fin n → ArrayRef}

/-- **The comparator of key columns** is the one of their keys. -/
theorem eqComparator_eq_arrowKeys (h1 : ∀ c, (cols1 c).Valid) (h2 : ∀ c, (cols2 c).Valid)
    (htypes : ∀ c, (cols1 c).dataType = (cols2 c).dataType) (hcomparable : ∀ c, comparable (cols1 c).dataType = true)
    (hash : (Key fun _ : Fin n => ExactValue) → ℕ) (hash_ne_zero : ∀ k, hash k ≠ 0) :
    ∃ comparator, EqComparator.tryNew ((finRange n).map cols1) ((finRange n).map cols2) = .ok comparator ∧
      ∀ i j (k k' : Key fun _ : Fin n => ExactValue), k.hasNull = false → k'.hasNull = false →
        (∀ c, i < (cols1 c).len ∧ (cols1 c).value i = k.value c) →
        (∀ c, j < (cols2 c).len ∧ (cols2 c).value j = k'.value c) →
        comparator.eq i j = some ((arrowKeys hash hash_ne_zero).eq k k') := by
  have hsame : ((finRange n).map cols1).map ArrayRef.dataType = ((finRange n).map cols2).map ArrayRef.dataType := by
    rw [map_map, map_map]
    exact map_congr_left fun c _ => htypes c
  obtain ⟨comparator, hnew, heq⟩ := tryNew_slots (forall_mem_map.2 fun c _ => h1 c) (forall_mem_map.2 fun c _ => h2 c)
    hsame (forall_mem_map.2 fun c _ => hcomparable c)
  have hslots : ∀ {cols : Fin n → ArrayRef} {i} {k : Key fun _ : Fin n => ExactValue}, (∀ c, (cols c).Valid) →
      k.hasNull = false → (∀ c, i < (cols c).len ∧ (cols c).value i = k.value c) →
      (∀ a ∈ (finRange n).map cols, i < a.len ∧ a.Reads i) ∧
        (((finRange n).map cols).map fun a => a.bare.value i) = (finRange n).map k.value := by
    intro cols i k hvalid hk hrow
    have hfree : ∀ a ∈ (finRange n).map cols, (a.value i).nullFree = true := forall_mem_map.2 fun c _ => by
      obtain ⟨v, hv⟩ := Key.isSome_of_hasNull hk c
      rw [(hrow c).2, Key.value, hv]
      exact v.2.1
    obtain ⟨hreads, hvalues⟩ := slots_of_nullFree (forall_mem_map.2 fun c _ => hvalid c)
      (forall_mem_map.2 fun c _ => (hrow c).1) hfree
    refine ⟨hreads, hvalues.trans ?_⟩
    rw [map_map]
    exact map_congr_left fun c _ => (hrow c).2
  refine ⟨comparator, hnew, fun i j k k' hk hk' hrow hrow' => ?_⟩
  obtain ⟨hreads, hvalues⟩ := hslots h1 hk hrow
  obtain ⟨hreads', hvalues'⟩ := hslots h2 hk' hrow'
  rw [heq i j hreads hreads', hvalues, hvalues']
  rfl

end Comparator

section Encoding

variable {κ : Fin n → Type} {ν : Type} {fields : Fin n → DataType × SortOptions}
  (converter : RowConverter ν ((finRange n).map fields)) {checker : RowNullChecker}
  (hnew : RowNullChecker.new ((finRange n).map fields) = some checker)
  {toValue : ∀ c, κ c → KeyValue ν} (hfits : ∀ c v, (toValue c v).Fits (fields c).1)

def Key.row (toValue : ∀ c, κ c → KeyValue ν) (k : Key κ) : List (Option (KeyValue ν)) :=
  (finRange n).map fun c => (k c).map (toValue c)

def encodeKey (toValue : ∀ c, κ c → KeyValue ν) (k : Key κ) : Bytes :=
  encodeRow converter.encodeNested ((finRange n).map fields) (k.row toValue)

include hnew hfits in
/-- **`RowNullChecker` on a batch of encoded keys.** -/
theorem hasNulls_encodeKey (keys : List (Key κ)) :
    checker.hasNulls (keys.map (encodeKey converter toValue)) converter = some (keys.map fun k => !k.hasNull) := by
  have hrows : ∀ row ∈ keys.map (Key.row toValue), RowFits ((finRange n).map fields) row := by
    refine forall_mem_map.2 fun k _ => ?_
    unfold RowFits Key.row
    rw [forall₂_map_left_iff, forall₂_map_right_iff, forall₂_same]
    intro c _ x hx
    obtain ⟨v, -, rfl⟩ := Option.map_eq_some_iff.1 hx
    exact hfits c v
  have h := RowNullChecker.hasNulls_encode hnew converter hrows
  rw [map_map, map_map] at h
  refine h.trans (congrArg some (map_congr_left fun k _ => ?_))
  simp [Key.row, Key.hasNull, any_map, Function.comp_def]

/-- The row encoding of keys with `RowNullChecker`, if the row format tells the keys apart. -/
def rowKeys (hinjective : Function.Injective (encodeKey (κ := κ) converter toValue)) : KeyEncoding κ where
  encode := encodeKey converter toValue
  encode_injective := hinjective
  hasNulls key := checker.hasNulls [key] converter == some [false]
  hasNulls_encode k := by
    have h := hasNulls_encodeKey converter hnew hfits [k]
    rw [map_singleton, map_singleton] at h
    rw [h]
    cases k.hasNull <;> rfl

end Encoding

end Auron.Joins
