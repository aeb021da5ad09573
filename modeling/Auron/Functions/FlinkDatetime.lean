import Mathlib.Tactic.IntervalCases
import Mathlib.Tactic.Ring

/-!
# The calendar of UNIX_TIMESTAMP (`flink_datetime.rs`)

`normalize` takes date and time fields of any size to seconds, with the day numbers of the Gregorian calendar from
1582-10-15 on and of the Julian calendar before.  Its 64-bit arithmetic does not overflow, and consecutive dates have
consecutive day numbers (`normalize_exact`).
-/

namespace Auron.Functions

/-- An `i64`, or an overflow on the way to it. -/
inductive I64 where
  | of (x : ℤ)
  | overflow

namespace I64

def op (f : ℤ → ℤ → ℤ) : I64 → I64 → I64
  | of x, of y => if -2 ^ 63 ≤ f x y ∧ f x y < 2 ^ 63 then of (f x y) else overflow
  | _, _ => overflow

/-- `if x >= bound { y } else { z }`. -/
def ifGe : I64 → ℤ → I64 → I64 → I64
  | of x, bound, y, z => if bound ≤ x then y else z
  | overflow, _, _, _ => overflow

instance (n : ℕ) : OfNat I64 n := ⟨of n⟩
instance : Add I64 := ⟨op (· + ·)⟩
instance : Sub I64 := ⟨op (· - ·)⟩
instance : Mul I64 := ⟨op (· * ·)⟩
/-- `div_euclid`. -/
instance : Div I64 := ⟨op (· / ·)⟩
/-- `rem_euclid`. -/
instance : Mod I64 := ⟨op (· % ·)⟩

variable {x y : ℤ}

lemma ofNat_eq (n : ℕ) : (OfNat.ofNat n : I64) = of n := rfl
lemma add_eq (h : -2 ^ 63 ≤ x + y ∧ x + y < 2 ^ 63) : of x + of y = of (x + y) := if_pos h
lemma sub_eq (h : -2 ^ 63 ≤ x - y ∧ x - y < 2 ^ 63) : of x - of y = of (x - y) := if_pos h
lemma mul_eq (h : -2 ^ 63 ≤ x * y ∧ x * y < 2 ^ 63) : of x * of y = of (x * y) := if_pos h
lemma div_eq (h : -2 ^ 63 ≤ x / y ∧ x / y < 2 ^ 63) : of x / of y = of (x / y) := if_pos h
lemma mod_eq (h : -2 ^ 63 ≤ x % y ∧ x % y < 2 ^ 63) : of x % of y = of (x % y) := if_pos h

end I64

open I64

def gregorianJdn (year month : I64) : I64 :=
  let a := (14 - month) / 12
  let y := year + 4800 - a
  let m := month + 12 * a - 3
  1 + (153 * m + 2) / 5 + 365 * y + y / 4 - y / 100 + y / 400 - 32045

def julianJdn (year month : I64) : I64 :=
  let a := (14 - month) / 12
  let y := year + 4800 - a
  let m := month + 12 * a - 3
  1 + (153 * m + 2) / 5 + 365 * y + y / 4 - 32083

/-- The fields, which are `i32`s. -/
structure Fields where
  (year month day hour minute second : ℤ)
  i32 : ∀ x ∈ [year, month, day, hour, minute, second], -2 ^ 31 ≤ x ∧ x < 2 ^ 31

def normalize (fields : Fields) : I64 :=
  let yearAdj := of fields.year + (of fields.month - 1) / 12
  let monthIdx := (of fields.month - 1) % 12 + 1
  let jdnGregorian := gregorianJdn yearAdj monthIdx + (of fields.day - 1)
  let jdn := jdnGregorian.ifGe 2299161 jdnGregorian (julianJdn yearAdj monthIdx + (of fields.day - 1))
  (jdn - 2440588) * 86400 + of fields.hour * 3600 + of fields.minute * 60 + of fields.second

/-! ### No overflow -/

/-- The year that begins in March, from -4800 on. -/
def marchYear (year month : ℤ) : ℤ := year + 4800 - (14 - month) / 12

/-- The days from 1970-01-01 to the first of a month, but for the leap days. -/
def commonFirst (year month : ℤ) : ℤ :=
  (153 * (month + 12 * ((14 - month) / 12) - 3) + 2) / 5 + 365 * marchYear year month

def gregorianFirst (year month : ℤ) : ℤ :=
  commonFirst year month + marchYear year month / 4 - marchYear year month / 100 + marchYear year month / 400 - 2472632

def julianFirst (year month : ℤ) : ℤ := commonFirst year month + marchYear year month / 4 - 2472670

/-- The branch that `normalize` takes. -/
def isGregorian (year month day : ℤ) : Bool :=
  -141427 ≤ gregorianFirst (year + (month - 1) / 12) ((month - 1) % 12 + 1) + (day - 1)

/-- The day number that `normalize` computes. -/
def dayNumber (year month day : ℤ) : ℤ :=
  if isGregorian year month day then gregorianFirst (year + (month - 1) / 12) ((month - 1) % 12 + 1) + (day - 1)
  else julianFirst (year + (month - 1) / 12) ((month - 1) % 12 + 1) + (day - 1)

section Bounds

variable {year month : ℤ} (hyear : -2 ^ 32 ≤ year ∧ year ≤ 2 ^ 32) (hmonth : 1 ≤ month ∧ month ≤ 12)

include hyear hmonth

lemma gregorianJdn_eq : gregorianJdn (of year) (of month) = of (gregorianFirst year month + 2440588) := by
  simp (disch := omega) only [gregorianJdn, ofNat_eq, add_eq, sub_eq, mul_eq, div_eq, Nat.cast_ofNat, Nat.cast_one]
  simp only [gregorianFirst, commonFirst, marchYear]
  congr 1
  ring

lemma julianJdn_eq : julianJdn (of year) (of month) = of (julianFirst year month + 2440588) := by
  simp (disch := omega) only [julianJdn, ofNat_eq, add_eq, sub_eq, mul_eq, div_eq, Nat.cast_ofNat, Nat.cast_one]
  simp only [julianFirst, commonFirst, marchYear]
  congr 1
  ring

lemma first_small : |gregorianFirst year month| ≤ 2 ^ 42 ∧ |julianFirst year month| ≤ 2 ^ 42 := by
  simp only [gregorianFirst, julianFirst, commonFirst, marchYear, abs_le]
  omega

end Bounds

lemma normalize_eq (f : Fields) :
    normalize f = of (dayNumber f.year f.month f.day * 86400 + f.hour * 3600 + f.minute * 60 + f.second) := by
  have hi32 := f.i32
  simp only [List.forall_mem_cons] at hi32
  have hyear : -2 ^ 32 ≤ f.year + (f.month - 1) / 12 ∧ f.year + (f.month - 1) / 12 ≤ 2 ^ 32 := by omega
  have hmonth : 1 ≤ (f.month - 1) % 12 + 1 ∧ (f.month - 1) % 12 + 1 ≤ 12 := by omega
  have hsmall := first_small hyear hmonth
  rw [abs_le, abs_le] at hsmall
  rw [dayNumber, isGregorian]
  simp (disch := omega) only [normalize, ofNat_eq, add_eq, sub_eq, div_eq, mod_eq, Nat.cast_ofNat, Nat.cast_one,
    gregorianJdn_eq hyear hmonth, julianJdn_eq hyear hmonth, ifGe]
  generalize gregorianFirst _ _ = g at *
  generalize julianFirst _ _ = j at *
  by_cases h : -141427 ≤ g + (f.day - 1)
  · rw [if_pos (decide_eq_true h), if_pos (by omega)]
    simp (disch := omega) only [add_eq, sub_eq, mul_eq]
    congr 1
    ring
  · rw [if_neg (show ¬decide (-141427 ≤ g + (f.day - 1)) = true by simpa using h), if_neg (by omega)]
    simp (disch := omega) only [add_eq, sub_eq, mul_eq]
    congr 1
    ring

/-! ### The hybrid calendar -/

/-- The years 1582 and before have the leap days of the Julian calendar. -/
def isLeap (year : ℤ) : Bool := year % 4 = 0 ∧ (year ≤ 1582 ∨ year % 100 ≠ 0 ∨ year % 400 = 0)

def monthLen (year month : ℤ) : ℤ :=
  if month = 2 then if isLeap year then 29 else 28
  else if month = 4 ∨ month = 6 ∨ month = 9 ∨ month = 11 then 30 else 31

/-- A date, in astronomical years. -/
structure Date where
  (year month day : ℤ)

namespace Date

def Valid (date : Date) : Prop :=
  (1 ≤ date.month ∧ date.month ≤ 12) ∧ (1 ≤ date.day ∧ date.day ≤ monthLen date.year date.month) ∧
    ¬(date.year = 1582 ∧ date.month = 10 ∧ 4 < date.day ∧ date.day < 15)

/-- The next day: after 1582-10-04 comes 1582-10-15. -/
def next : Date → Date
  | ⟨y, m, d⟩ =>
    if y = 1582 ∧ m = 10 ∧ d = 4 then ⟨y, m, 15⟩
    else if d < monthLen y m then ⟨y, m, d + 1⟩
    else if m < 12 then ⟨y, m + 1, 1⟩
    else ⟨y + 1, 1, 1⟩

def dayNumber (date : Date) : ℤ := Functions.dayNumber date.year date.month date.day

end Date

/-- **The branch is the calendar** of the date. -/
lemma isGregorian_iff {y m d : ℤ} (hm : 1 ≤ m ∧ m ≤ 12) (hd : 1 ≤ d ∧ d ≤ 31) :
    isGregorian y m d = true ↔ 1582 < y ∨ y = 1582 ∧ (10 < m ∨ m = 10 ∧ 15 ≤ d) := by
  obtain ⟨hle, hge⟩ := hm
  rw [isGregorian, decide_eq_true_iff]
  simp only [gregorianFirst, commonFirst, marchYear]
  obtain hy | rfl | hy := lt_trichotomy y 1582 <;> interval_cases m <;> omega

lemma dayNumber_eq {y m d : ℤ} (hm : 1 ≤ m ∧ m ≤ 12) (hd : 1 ≤ d ∧ d ≤ 31) : dayNumber y m d =
    if 1582 < y ∨ y = 1582 ∧ (10 < m ∨ m = 10 ∧ 15 ≤ d) then gregorianFirst y m + (d - 1)
    else julianFirst y m + (d - 1) := by
  rw [dayNumber, if_congr (isGregorian_iff hm hd) rfl rfl, show y + (m - 1) / 12 = y by omega,
    show (m - 1) % 12 + 1 = m by omega]

lemma first_succ {y m : ℤ} (hm : 1 ≤ m ∧ m ≤ 11) :
    (1582 < y ∨ m ≠ 2 → gregorianFirst y (m + 1) = gregorianFirst y m + monthLen y m) ∧
      (y ≤ 1582 ∨ m ≠ 2 → julianFirst y (m + 1) = julianFirst y m + monthLen y m) := by
  obtain ⟨hle, hge⟩ := hm
  interval_cases m <;> simp [gregorianFirst, julianFirst, commonFirst, marchYear, monthLen, isLeap] <;>
    (try split_ifs) <;> omega

lemma first_year (y : ℤ) :
    gregorianFirst (y + 1) 1 = gregorianFirst y 12 + 31 ∧ julianFirst (y + 1) 1 = julianFirst y 12 + 31 := by
  simp [gregorianFirst, julianFirst, commonFirst, marchYear]
  omega

lemma monthLen_le (y m : ℤ) : 28 ≤ monthLen y m ∧ monthLen y m ≤ 31 := by
  rw [monthLen]
  split_ifs <;> omega

namespace Date

variable {date : Date}

lemma Valid.next (h : date.Valid) : date.next.Valid ∧ date.next.dayNumber = date.dayNumber + 1 := by
  obtain ⟨y, m, d⟩ := date
  obtain ⟨hm, hd, hcut⟩ := h
  have hlen := monthLen_le y m
  dsimp only at hm hd hcut
  rw [Date.next]
  split_ifs with h4 hday hmonth
  all_goals simp only [Valid, dayNumber]
  · obtain ⟨rfl, rfl, rfl⟩ := h4
    exact ⟨by decide, rfl⟩
  · refine ⟨by omega, ?_⟩
    rw [dayNumber_eq hm (by omega), dayNumber_eq hm (by omega)]
    split_ifs <;> omega
  · have hlen' := monthLen_le y (m + 1)
    obtain ⟨hgregorian, hjulian⟩ := @first_succ y m (by omega)
    refine ⟨by omega, ?_⟩
    rw [dayNumber_eq (by omega) (by omega), dayNumber_eq (by omega) (by omega)]
    split_ifs <;> omega
  · obtain rfl : m = 12 := by omega
    have hlen' := monthLen_le (y + 1) 1
    obtain ⟨hgregorian, hjulian⟩ := first_year y
    rw [show monthLen y 12 = 31 from rfl] at hday hd
    refine ⟨by omega, ?_⟩
    rw [dayNumber_eq (by omega) (by omega), dayNumber_eq (by omega) (by omega)]
    split_ifs <;> omega

lemma Valid.exists_prev (h : date.Valid) : ∃ prev : Date, prev.Valid ∧ prev.next = date := by
  obtain ⟨y, m, d⟩ := date
  obtain ⟨hm, hd, hcut⟩ := h
  dsimp only at hm hd hcut
  by_cases h15 : y = 1582 ∧ m = 10 ∧ d = 15
  · obtain ⟨rfl, rfl, rfl⟩ := h15
    exact ⟨⟨1582, 10, 4⟩, by simp only [Valid]; decide, rfl⟩
  by_cases hd1 : 1 < d
  · refine ⟨⟨y, m, d - 1⟩, by simp only [Valid]; omega, ?_⟩
    rw [Date.next, if_neg (by omega), if_pos (by omega), sub_add_cancel]
  obtain rfl : d = 1 := by omega
  by_cases hm1 : 1 < m
  · have hlen := monthLen_le y (m - 1)
    refine ⟨⟨y, m - 1, monthLen y (m - 1)⟩, by simp only [Valid]; omega, ?_⟩
    rw [Date.next, if_neg (by omega), if_neg (by omega), if_pos (by omega), sub_add_cancel]
  · obtain rfl : m = 1 := by omega
    refine ⟨⟨y - 1, 12, 31⟩, by simp [Valid, monthLen], ?_⟩
    rw [Date.next, if_neg (by omega), if_neg (by simp [monthLen]), if_neg (by omega), sub_add_cancel]

lemma Valid.eq_epoch (h : date.Valid) (hzero : date.dayNumber = 0) : date = ⟨1970, 1, 1⟩ := by
  obtain ⟨y, m, d⟩ := date
  obtain ⟨⟨hle, hge⟩, hd, -⟩ := h
  have hlen := monthLen_le y m
  dsimp only [dayNumber] at hle hge hd hzero
  rw [dayNumber_eq ⟨hle, hge⟩ (by omega)] at hzero
  simp only [gregorianFirst, julianFirst, commonFirst, marchYear] at hzero
  obtain ⟨hy, hy'⟩ : 1969 ≤ y ∧ y ≤ 1970 := by split_ifs at hzero <;> omega
  have hdate : y = 1970 ∧ m = 1 ∧ d = 1 := by interval_cases y <;> interval_cases m <;> omega
  obtain ⟨rfl, rfl, rfl⟩ := hdate
  rfl

lemma Valid.iterate_next {n : ℕ} (h : date.Valid) :
    (date.dayNumber = n → Date.next^[n] ⟨1970, 1, 1⟩ = date) ∧
      (date.dayNumber = -n → Date.next^[n] date = ⟨1970, 1, 1⟩) := by
  induction n generalizing date with
  | zero => exact ⟨fun h0 => (h.eq_epoch h0).symm, h.eq_epoch⟩
  | succ n ih =>
    constructor
    · intro hn
      obtain ⟨prev, hprev, rfl⟩ := h.exists_prev
      have := hprev.next.2
      rw [Function.iterate_succ_apply', (ih hprev).1 (by omega)]
    · intro hn
      obtain ⟨hnext, hnumber⟩ := h.next
      rw [Function.iterate_succ_apply, (ih hnext).2 (by omega)]

end Date

/-- **`normalize` is exact.**  It does not overflow, and counts the days from 1970-01-01 by the dates of the hybrid
calendar; months roll over to years, and days to days within a calendar. -/
theorem normalize_exact :
    (∀ f : Fields,
      normalize f = of (dayNumber f.year f.month f.day * 86400 + f.hour * 3600 + f.minute * 60 + f.second)) ∧
    (∀ date : Date, date.Valid → date.next.Valid ∧ date.next.dayNumber = date.dayNumber + 1) ∧
    (∀ (date : Date) (n : ℕ), date.Valid → (date.dayNumber = n → Date.next^[n] ⟨1970, 1, 1⟩ = date) ∧
      (date.dayNumber = -n → Date.next^[n] date = ⟨1970, 1, 1⟩)) ∧
    (∀ y m d k, dayNumber (y + k) (m - 12 * k) d = dayNumber y m d) ∧
    ∀ y m d e, isGregorian y m (d + e) = isGregorian y m d → dayNumber y m (d + e) = dayNumber y m d + e := by
  refine ⟨normalize_eq, fun _ h => h.next, fun _ _ h => h.iterate_next, fun y m d k => ?_, fun y m d e h => ?_⟩
  · rw [dayNumber, isGregorian, show y + k + (m - 12 * k - 1) / 12 = y + (m - 1) / 12 by omega,
      show (m - 12 * k - 1) % 12 = (m - 1) % 12 by omega]
    rfl
  · rw [dayNumber, h, dayNumber]
    split_ifs <;> ring

end Auron.Functions
