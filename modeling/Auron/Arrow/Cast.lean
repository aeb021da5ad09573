import Auron.Io.Bytes

/-!
# Strings cast to integers (`arrow/cast.rs`)

`to_integer` accumulates the digits of a string as a negative number, in the wrapping arithmetic of the integer type.  It
compares with the tenth of the least value before a digit and with zero after it, and negates at the end; that finds
every value outside of the type (`toInteger_eq_some_iff`).
-/

namespace Auron.Arrow

open List Io

/-- The types `to_integer` is used at. -/
inductive IntegerType where
  | int8
  | int16
  | int32
  | int64

namespace IntegerType

def minValue : IntegerType → ℤ
  | int8 => -2 ^ 7
  | int16 => -2 ^ 15
  | int32 => -2 ^ 31
  | int64 => -2 ^ 63

/-- The arithmetic of the type. -/
def wrap (t : IntegerType) (x : ℤ) : ℤ := (x - t.minValue) % (-2 * t.minValue) + t.minValue

lemma minValue_neg (t : IntegerType) : t.minValue < 0 := by
  cases t <;> decide

lemma wrap_eq {t : IntegerType} {x : ℤ} (hmin : t.minValue ≤ x) (hmax : x < -t.minValue) : t.wrap x = x := by
  rw [wrap, Int.emod_eq_of_lt (by omega) (by omega)]
  omega

end IntegerType

def isAsciiDigit (b : UInt8) : Bool := 48 ≤ b ∧ b ≤ 57

/-- The loop over the bytes up to a dot, with the loop over the bytes behind it. -/
def digitLoop (t : IntegerType) (result : ℤ) : Bytes → Option ℤ
  | [] => some result
  | b :: bytes =>
    if b = 46 then if bytes.all isAsciiDigit then some result else none
    else if isAsciiDigit b then
      if result < t.minValue.tdiv 10 then none
      else if 0 < t.wrap (result * 10 - (b - 48).toNat) then none
      else digitLoop t (t.wrap (result * 10 - (b - 48).toNat)) bytes
    else none

/-- `to_integer` behind the sign. -/
def toIntegerAt (t : IntegerType) (negative : Bool) (bytes : Bytes) : Option ℤ :=
  (digitLoop t 0 bytes).bind fun result =>
    if negative then some result else if t.wrap (-result) < 0 then none else some (t.wrap (-result))

def toInteger (t : IntegerType) : Bytes → Option ℤ
  | [] => none
  | b :: bytes =>
    if b = 45 ∨ b = 43 then if bytes = [] then none else toIntegerAt t (b = 45) bytes
    else toIntegerAt t false (b :: bytes)

/-! ### The grammar -/

/-- A string with its sign taken off. -/
inductive Signed : Bytes → Bool → Bytes → Prop
  | plain (body) : Signed body false body
  | minus (body) : Signed (45 :: body) true body
  | plus (body) : Signed (43 :: body) false body

/-- All bytes are digits but for one dot at most. -/
def DigitsWithDot (bytes : Bytes) : Prop :=
  bytes.filter (fun b => !isAsciiDigit b) = [] ∨ bytes.filter (fun b => !isAsciiDigit b) = [46]

/-- The value of the digits at the front of some bytes, read on from `v`. -/
def digitsFrom (v : ℕ) (bytes : Bytes) : ℕ :=
  (bytes.takeWhile isAsciiDigit).foldl (fun v b => v * 10 + (b - 48).toNat) v

/-- The integer that a string stands for. -/
def Denotes (bytes : Bytes) (n : ℤ) : Prop :=
  ∃ negative body, Signed bytes negative body ∧ body ≠ [] ∧ DigitsWithDot body ∧
    n = if negative then -(digitsFrom 0 body : ℤ) else digitsFrom 0 body

lemma le_digitsFrom (bytes : Bytes) (v : ℕ) : v ≤ digitsFrom v bytes := by
  rw [digitsFrom]
  generalize bytes.takeWhile isAsciiDigit = digits
  induction digits generalizing v with
  | nil => exact le_rfl
  | cons b digits ih => exact (by omega : v ≤ v * 10 + (b - 48).toNat).trans (ih _)

/-! ### The loop -/

variable {t : IntegerType}

lemma digit_le_nine {b : UInt8} (h : isAsciiDigit b = true) : (b - 48).toNat ≤ 9 := by
  obtain ⟨hle, hge⟩ := of_decide_eq_true h
  rw [UInt8.toNat_sub_of_le _ _ hle]
  exact Nat.sub_le_sub_right (UInt8.le_iff_toNat_le.1 hge) 48

/-- **The two tests find every overflow** of a further digit. -/
lemma digit_fits_iff {v d : ℕ} (hv : t.minValue ≤ -v) (hd : d ≤ 9) :
    ¬ -(v : ℤ) < t.minValue.tdiv 10 ∧ ¬ 0 < t.wrap (-v * 10 - d) ↔ t.minValue ≤ -((v * 10 + d : ℕ) : ℤ) := by
  cases t <;> simp only [IntegerType.minValue, IntegerType.wrap, Int.reducePow, Int.reduceNeg, Int.reduceMul,
    Int.reduceTDiv] at * <;> omega

lemma digitLoop_eq_some_iff (bytes : Bytes) {v : ℕ} (hv : t.minValue ≤ -v) {r : ℤ} :
    digitLoop t (-v) bytes = some r ↔ DigitsWithDot bytes ∧ r = -(digitsFrom v bytes : ℤ) ∧ t.minValue ≤ r := by
  induction bytes generalizing v with
  | nil =>
    rw [digitLoop, Option.some_inj]
    exact ⟨fun h => ⟨.inl rfl, h.symm, h ▸ hv⟩, fun h => h.2.1.symm⟩
  | cons b bytes ih =>
    by_cases hdot : b = 46
    · -- behind the dot the digits are only looked at
      have hfilter : DigitsWithDot (b :: bytes) ↔ bytes.all isAsciiDigit = true := by
        simp [hdot, DigitsWithDot, isAsciiDigit, filter_eq_nil_iff]
      have hvalue : digitsFrom v (b :: bytes) = v := by
        rw [hdot]
        rfl
      rw [digitLoop, if_pos hdot, hfilter, hvalue]
      split
      case isTrue hall =>
        rw [Option.some_inj]
        exact ⟨fun h => ⟨hall, h.symm, h ▸ hv⟩, fun h => h.2.1.symm⟩
      case isFalse hall => exact ⟨nofun, fun h => absurd h.1 hall⟩
    rw [digitLoop, if_neg hdot]
    by_cases hdigit : isAsciiDigit b = true
    · have hfilter : DigitsWithDot (b :: bytes) ↔ DigitsWithDot bytes := by
        rw [DigitsWithDot, filter_cons_of_neg (by simp [hdigit]), DigitsWithDot]
      have hvalue : digitsFrom v (b :: bytes) = digitsFrom (v * 10 + (b - 48).toNat) bytes := by
        rw [digitsFrom, takeWhile_cons_of_pos hdigit, foldl_cons, digitsFrom]
      have hiff := digit_fits_iff hv (digit_le_nine hdigit)
      rw [if_pos hdigit, hfilter, hvalue]
      by_cases hfits : t.minValue ≤ -((v * 10 + (b - 48).toNat : ℕ) : ℤ)
      · obtain ⟨hstop, hsign⟩ := hiff.2 hfits
        have hx : -(v : ℤ) * 10 - (b - 48).toNat = -((v * 10 + (b - 48).toNat : ℕ) : ℤ) := by omega
        have hneg := t.minValue_neg
        rw [if_neg hstop, if_neg hsign, hx, IntegerType.wrap_eq hfits (by omega)]
        exact ih hfits
      · have hle := le_digitsFrom bytes (v * 10 + (b - 48).toNat)
        refine ⟨fun h => ?_, fun ⟨_, hr, hmin⟩ => by omega⟩
        split at h
        case isTrue => cases h
        case isFalse hstop => rw [if_pos (not_not.1 fun hsign => hfits (hiff.1 ⟨hstop, hsign⟩))] at h; cases h
    · rw [if_neg hdigit, DigitsWithDot, filter_cons_of_pos (by simp [hdigit])]
      simp [hdot]

/-! ### The sign -/

/-- The negation at the end wraps around for the least value only. -/
lemma negated_eq_some_iff {r n : ℤ} (hmin : t.minValue ≤ r) (hr : r ≤ 0) (negative : Bool) :
    (if negative then some r else if t.wrap (-r) < 0 then none else some (t.wrap (-r))) = some n ↔
      n = (if negative then r else -r) ∧ n < -t.minValue := by
  have hneg := t.minValue_neg
  cases negative with
  | true => simp; omega
  | false =>
    obtain rfl | hlt := hmin.eq_or_lt
    · have hwrap : t.wrap (-t.minValue) = t.minValue := by
        rw [IntegerType.wrap, show -t.minValue - t.minValue = -2 * t.minValue by ring, Int.emod_self, zero_add]
      simp [hwrap, hneg]
      omega
    · have hwrap : t.wrap (-r) = -r := IntegerType.wrap_eq (by omega) (by omega)
      simp [hwrap, hr]
      omega

lemma toIntegerAt_eq_some_iff {negative : Bool} {body : Bytes} {n : ℤ} :
    toIntegerAt t negative body = some n ↔ DigitsWithDot body ∧
      n = (if negative then -(digitsFrom 0 body : ℤ) else digitsFrom 0 body) ∧ t.minValue ≤ n ∧ n < -t.minValue := by
  have hneg := t.minValue_neg
  have hloop := @digitLoop_eq_some_iff t body 0 (by simpa using hneg.le)
  rw [toIntegerAt, Option.bind_eq_some_iff]
  constructor
  · rintro ⟨r, hread, hn⟩
    obtain ⟨hdigits, rfl, hmin⟩ := hloop.1 hread
    obtain ⟨rfl, hmax⟩ := (negated_eq_some_iff hmin (by omega) negative).1 hn
    rw [neg_neg] at hmax ⊢
    refine ⟨hdigits, rfl, ?_, hmax⟩
    split <;> omega
  · rintro ⟨hdigits, rfl, hmin, hmax⟩
    have hmin : t.minValue ≤ -(digitsFrom 0 body : ℤ) := by
      cases negative with
      | true => exact hmin
      | false =>
        have hmax : (digitsFrom 0 body : ℤ) < -t.minValue := hmax
        omega
    refine ⟨_, hloop.2 ⟨hdigits, rfl, hmin⟩, (negated_eq_some_iff hmin (by omega) negative).2 ?_⟩
    rw [neg_neg]
    exact ⟨rfl, hmax⟩

/-- **A string is cast to the integer it denotes**, if the type has it, and nothing else is cast. -/
theorem toInteger_eq_some_iff (t : IntegerType) (bytes : Bytes) (n : ℤ) :
    toInteger t bytes = some n ↔ Denotes bytes n ∧ t.minValue ≤ n ∧ n < -t.minValue := by
  constructor
  · intro h
    cases bytes with
    | nil => cases h
    | cons b bytes =>
      rw [toInteger] at h
      by_cases hb : b = 45 ∨ b = 43
      · rw [if_pos hb] at h
        split at h
        case isTrue => cases h
        case isFalse hbody =>
          obtain ⟨hdigits, hn, hrange⟩ := toIntegerAt_eq_some_iff.1 h
          obtain rfl | rfl := hb
          · exact ⟨⟨true, bytes, .minus _, hbody, hdigits, hn⟩, hrange⟩
          · exact ⟨⟨false, bytes, .plus _, hbody, hdigits, hn⟩, hrange⟩
      · rw [if_neg hb] at h
        obtain ⟨hdigits, hn, hrange⟩ := toIntegerAt_eq_some_iff.1 h
        exact ⟨⟨false, b :: bytes, .plain _, cons_ne_nil _ _, hdigits, hn⟩, hrange⟩
  · rintro ⟨⟨negative, body, hsigned, hbody, hdigits, hn⟩, hrange⟩
    have h : toIntegerAt t negative body = some n := toIntegerAt_eq_some_iff.2 ⟨hdigits, hn, hrange⟩
    cases hsigned with
    | plain =>
      obtain ⟨b, body, rfl⟩ := exists_cons_of_ne_nil hbody
      have hb : ¬ (b = 45 ∨ b = 43) := by
        rintro (rfl | rfl) <;> obtain hdigits | hdigits := hdigits <;> simp [isAsciiDigit] at hdigits
      rwa [toInteger, if_neg hb]
    | minus =>
      rw [toInteger, if_pos (.inl rfl), if_neg hbody]
      exact h
    | plus =>
      rw [toInteger, if_pos (.inr rfl), if_neg hbody]
      exact h

end Auron.Arrow
