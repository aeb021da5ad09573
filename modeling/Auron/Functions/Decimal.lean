import Auron.Agg.Avg

/-!
# Rounding of decimals (`spark_check_overflow.rs`)

A decimal is its unscaled value, an `i128`, and a scale.  `change_precision_round_half_up` multiplies and doubles in
arithmetic that wraps around, and only then looks at the range.  A product that has wrapped can be back in the range, and
the double of 38 dropped digits can be negative; apart from these the result is exact (`changePrecision_exact_iff`).
-/

namespace Auron.Functions

open Agg (roundHalfUp roundHalfUp_eq_iff)

/-- The arithmetic of `i128`. -/
def wrap128 (x : ℤ) : ℤ := x.bmod (2 ^ 128)

lemma wrap128_eq {x : ℤ} (h : |x| < 2 ^ 127) : wrap128 x = x := by
  rw [abs_lt] at h
  exact Int.bmod_eq_of_le (by omega) (by omega)

lemma pow_le_pow_38 {n : ℕ} (h : n ≤ 38) : (10 : ℤ) ^ n ≤ 10 ^ 38 := pow_le_pow_right₀ (by norm_num) h

lemma exists_wrap128_eq (x : ℤ) : ∃ k, wrap128 x = x - k * 2 ^ 128 := by
  refine ⟨(x - wrap128 x) / 2 ^ 128, ?_⟩
  rw [wrap128, Int.bmod_def]
  omega

lemma wrap128_sub_mul (x k : ℤ) : wrap128 (x - k * 2 ^ 128) = wrap128 x := by
  rw [wrap128, wrap128, Int.bmod_def, Int.bmod_def]
  omega

/-- A number that is not small does not wrap around to a small one if it is not close to a multiple of 2^128. -/
lemma wrap128_small_iff {x b : ℤ} (hb : b ≤ 10 ^ 38) :
    (b ≤ |x| → b ≤ |wrap128 x|) ↔ ∀ k ≠ 0, b ≤ |x - k * 2 ^ 128| := by
  constructor
  · intro h k hk
    by_contra hlt
    have hsmall : |x - k * 2 ^ 128| < 10 ^ 38 := (not_le.1 hlt).trans_le hb
    have hwrap := wrap128_eq (hsmall.trans (by norm_num))
    rw [wrap128_sub_mul] at hwrap
    rw [← hwrap] at hlt
    refine hlt (h (hb.trans ?_))
    rw [abs_lt] at hsmall
    rw [le_abs]
    omega
  · intro h hx
    obtain ⟨k, hk⟩ := exists_wrap128_eq x
    rw [hk]
    by_cases hzero : k = 0
    · simpa [hzero] using hx
    · exact h k hzero

def pow10 (n : ℕ) : ℤ := wrap128 (10 ^ n)

lemma pow10_eq {n : ℕ} (h : n ≤ 38) : pow10 n = 10 ^ n := by
  refine wrap128_eq (lt_of_le_of_lt ?_ (show (10 : ℤ) ^ 38 < 2 ^ 127 by norm_num))
  rw [abs_of_pos (by positivity)]
  exact pow_le_pow_38 h

/-! ### `change_precision_round_half_up` -/

/-- The digits behind a power of ten are dropped, and the value is rounded half up. -/
def dropDigits (val pow10diff : ℤ) : ℤ :=
  if pow10diff ≤ wrap128 (|val.tmod pow10diff| * 2) then
    wrap128 (val.tdiv pow10diff + if val.tmod pow10diff < 0 then -1 else 1)
  else val.tdiv pow10diff

def rescale (val scale toScale : ℤ) : ℤ :=
  if toScale < scale then dropDigits val (pow10 (scale - toScale).toNat)
  else if scale < toScale then wrap128 (val * pow10 (toScale - scale).toNat)
  else val

def changePrecisionRoundHalfUp (val : ℤ) (precision : ℕ) (scale : ℤ) (toPrecision : ℕ) (toScale : ℤ) : Option ℤ :=
  if toPrecision = precision ∧ toScale = scale then some val
  else
    let p := pow10 (min toPrecision 38)
    if rescale val scale toScale ≤ -p ∨ p ≤ rescale val scale toScale then none else some (rescale val scale toScale)

/-- The value of a decimal rounded to `toScale` digits, if it has at most `toPrecision` digits. -/
def rounded (val : ℤ) (scale toPrecision toScale : ℕ) : Option ℤ :=
  let w := roundHalfUp ((val : ℚ) * 10 ^ toScale / 10 ^ scale)
  if |w| < 10 ^ toPrecision then some w else none

lemma roundHalfUp_intCast (k : ℤ) : roundHalfUp k = k := by
  have := (roundHalfUp_eq_iff k one_pos k).2 (by split <;> omega)
  simpa using this

lemma roundHalfUp_div (v : ℤ) {m : ℤ} (hm : 0 < m) :
    roundHalfUp (v / m) = if m ≤ |v.tmod m| * 2 then v.tdiv m + if v.tmod m < 0 then -1 else 1 else v.tdiv m := by
  have hdiv := Int.mul_tdiv_add_tmod v m
  have hlt := Int.tmod_lt_of_pos v hm
  have hlt' : -m < v.tmod m := Int.lt_tmod_of_pos v hm
  have hsign : if 0 ≤ v then 0 ≤ v.tmod m else v.tmod m ≤ 0 := by
    split
    · next hv => exact Int.tmod_nonneg m hv
    · next hv =>
      have := Int.tmod_nonneg m (neg_nonneg.2 (not_le.1 hv).le)
      rwa [Int.neg_tmod, neg_nonneg] at this
  rw [roundHalfUp_eq_iff v hm]
  split at hsign
  · next hv =>
    rw [if_pos hv, abs_of_nonneg hsign, if_neg (not_lt.2 hsign)]
    split <;> constructor <;> linarith
  · next hv =>
    rw [if_neg hv, abs_of_nonpos hsign]
    split
    · next hhalf =>
      rw [if_pos (by omega)]
      constructor <;> linarith
    · constructor <;> linarith

variable {v : ℤ} {p s tp ts : ℕ}

lemma dropDigits_eq_iff {m : ℤ} (hv : |v| < 10 ^ 38) (hm : 0 < m) (hm' : m ≤ 10 ^ 38) :
    (dropDigits v m = roundHalfUp (v / m) ↔ |v.tmod m| * 2 < 2 ^ 127) ∧
      (dropDigits v m ≠ roundHalfUp (v / m) → dropDigits v m = v.tdiv m) := by
  have hmod : |v.tmod m| < m := abs_lt.2 ⟨Int.lt_tmod_of_pos v hm, Int.tmod_lt_of_pos v hm⟩
  have hq : |v.tdiv m| < 10 ^ 38 := by
    refine lt_of_le_of_lt ?_ hv
    rw [← Int.natCast_natAbs, ← Int.natCast_natAbs]
    exact_mod_cast Int.natAbs_tdiv_le_natAbs v m
  have hround : wrap128 (v.tdiv m + if v.tmod m < 0 then -1 else 1) = v.tdiv m + if v.tmod m < 0 then -1 else 1 := by
    refine wrap128_eq ?_
    rw [abs_lt] at hq ⊢
    split <;> omega
  rw [dropDigits, roundHalfUp_div v hm, hround]
  by_cases hwrap : |v.tmod m| * 2 < 2 ^ 127
  · rw [wrap128_eq (by rwa [abs_of_nonneg (by positivity)])]
    exact ⟨iff_of_true rfl hwrap, fun h => absurd rfl h⟩
  · have hneg : wrap128 (|v.tmod m| * 2) < 0 := by
      rw [wrap128, Int.bmod_def]
      omega
    rw [if_neg (by omega), if_pos (by omega)]
    refine ⟨iff_of_false ?_ hwrap, fun _ => rfl⟩
    split <;> omega

lemma natAbs_lt_of_abs_lt (hv : |v| < 10 ^ 38) : v.natAbs < ((10 : ℤ) ^ 38).natAbs := by
  rw [← Int.natCast_natAbs] at hv
  exact Int.ofNat_lt.1 (hv.trans_eq rfl)

lemma tmod_small_iff (hv : |v| < 10 ^ 38) (hs : s ≤ 38) (hlt : ts < s) :
    |v.tmod (10 ^ (s - ts))| * 2 < 2 ^ 127 ↔ (s = 38 ∧ ts = 0 → |v| < 2 ^ 126) := by
  have hm : (0 : ℤ) < 10 ^ (s - ts) := by positivity
  have hmod : |v.tmod (10 ^ (s - ts))| < 10 ^ (s - ts) := abs_lt.2 ⟨Int.lt_tmod_of_pos v hm, Int.tmod_lt_of_pos v hm⟩
  by_cases hall : s = 38 ∧ ts = 0
  · obtain ⟨rfl, rfl⟩ := hall
    have hself : |v.tmod (10 ^ (38 - 0))| = |v| := by
      rw [← Int.natCast_natAbs, Int.natAbs_tmod, Nat.mod_eq_of_lt (natAbs_lt_of_abs_lt hv), Int.natCast_natAbs]
    rw [hself]
    constructor <;> intro h <;> omega
  · have := pow_le_pow_right₀ (show (1 : ℤ) ≤ 10 by norm_num) (show s - ts ≤ 37 by omega)
    refine iff_of_true ?_ (fun h => absurd h hall)
    omega

def inRange (tp : ℕ) (w : ℤ) : Option ℤ := if |w| < 10 ^ tp then some w else none

lemma inRange_drop_iff (hv : |v| < 10 ^ 38) (hs : s ≤ 38) (hlt : ts < s) :
    inRange tp (rescale v s ts) = rounded v s tp ts ↔ (s = 38 ∧ ts = 0 → |v| < 2 ^ 126) := by
  have hscale : (v : ℚ) * 10 ^ ts / 10 ^ s = v / ((10 ^ (s - ts) : ℤ) : ℚ) := by
    have hpow : (10 : ℚ) ^ s = 10 ^ (s - ts) * 10 ^ ts := by rw [← pow_add, Nat.sub_add_cancel hlt.le]
    push_cast
    rw [hpow, mul_div_mul_right _ _ (by positivity)]
  have hrescale : rescale v s ts = dropDigits v (10 ^ (s - ts)) := by
    rw [rescale, if_pos (by omega), show ((s : ℤ) - ts).toNat = s - ts by omega, pow10_eq (by omega)]
  obtain ⟨hexact, hother⟩ := dropDigits_eq_iff hv (show (0 : ℤ) < 10 ^ (s - ts) by positivity) (pow_le_pow_38 (by omega))
  rw [tmod_small_iff hv hs hlt] at hexact
  rw [inRange, rounded, hrescale, hscale, ← hexact]
  refine ⟨fun h => ?_, fun h => by rw [h]⟩
  -- otherwise all digits are dropped, and the result is zero
  by_contra hne
  have hall : s = 38 ∧ ts = 0 := by
    by_contra hall
    exact hne (hexact.2 fun h => absurd h hall)
  have hzero : dropDigits v (10 ^ (s - ts)) = 0 := by
    rw [hother hne, hall.1, hall.2, ← Int.natAbs_eq_zero, Int.natAbs_tdiv]
    exact Nat.div_eq_of_lt (natAbs_lt_of_abs_lt hv)
  rw [hzero, abs_zero, if_pos (by positivity)] at h
  split at h
  · exact hne (hzero.trans (Option.some.inj h))
  · cases h

lemma inRange_raise_iff (htp : tp ≤ 38) (hts : ts ≤ 38) (hlt : s < ts) :
    inRange tp (rescale v s ts) = rounded v s tp ts ↔
      ∀ k : ℤ, k ≠ 0 → 10 ^ tp ≤ |v * 10 ^ (ts - s) - k * 2 ^ 128| := by
  have hscale : (v : ℚ) * 10 ^ ts / 10 ^ s = ((v * 10 ^ (ts - s) : ℤ) : ℚ) := by
    have hpow : (10 : ℚ) ^ ts = 10 ^ (ts - s) * 10 ^ s := by rw [← pow_add, Nat.sub_add_cancel hlt.le]
    push_cast
    rw [hpow, ← mul_assoc, mul_div_cancel_right₀ _ (by positivity)]
  have hrescale : rescale v s ts = wrap128 (v * 10 ^ (ts - s)) := by
    rw [rescale, if_neg (by omega), if_pos (by omega), show ((ts : ℤ) - s).toNat = ts - s by omega,
      pow10_eq (by omega)]
  rw [inRange, rounded, hrescale, hscale, roundHalfUp_intCast, ← wrap128_small_iff (pow_le_pow_38 htp)]
  by_cases hin : |v * 10 ^ (ts - s)| < 10 ^ tp
  · have := pow_le_pow_38 htp
    rw [wrap128_eq (hin.trans_le (this.trans (by norm_num)))]
    exact iff_of_true rfl fun h => absurd h (not_le.2 hin)
  · rw [if_neg hin, ite_eq_right_iff]
    constructor
    · refine fun h _ => not_lt.1 fun hwrap => ?_
      cases h hwrap
    · intro h hwrap
      exact absurd (h (not_lt.1 hin)) (not_le.2 hwrap)

/-- **When a changed precision is exact**: not all 38 digits of a value of at least 2^126 are dropped, and the product with
the power of ten is within 10^tp of no multiple of 2^128 but zero. -/
theorem changePrecision_exact_iff (hp : p ≤ 38) (hs : s ≤ p) (hv : |v| < 10 ^ p) (htp : tp ≤ 38) (hts : ts ≤ tp)
    (hne : (tp, ts) ≠ (p, s)) :
    changePrecisionRoundHalfUp v p s tp ts = rounded v s tp ts ↔ (s = 38 ∧ ts = 0 → |v| < 2 ^ 126) ∧
      (s < ts → ∀ k : ℤ, k ≠ 0 → 10 ^ tp ≤ |v * 10 ^ (ts - s) - k * 2 ^ 128|) := by
  have hv' : |v| < 10 ^ 38 := lt_of_lt_of_le hv (pow_le_pow_38 hp)
  have hne' : ¬ (tp = p ∧ (ts : ℤ) = s) := fun h => hne (Prod.ext h.1 (by exact_mod_cast h.2))
  have hrange : ∀ w : ℤ, (w ≤ -10 ^ tp ∨ 10 ^ tp ≤ w) ↔ ¬ |w| < 10 ^ tp := by
    intro w
    rw [abs_lt]
    omega
  rw [changePrecisionRoundHalfUp, if_neg hne', Nat.min_eq_left htp, pow10_eq htp]
  simp only [hrange, ite_not]
  change inRange tp _ = _ ↔ _
  rcases lt_trichotomy ts s with hlt | rfl | hlt
  · rw [inRange_drop_iff hv' (hs.trans hp) hlt]
    exact ⟨fun h => ⟨h, fun h => absurd h hlt.not_gt⟩, fun h => h.1⟩
  · have hself : rescale v ts ts = roundHalfUp ((v : ℚ) * 10 ^ ts / 10 ^ ts) := by
      rw [mul_div_cancel_right₀ _ (by positivity), roundHalfUp_intCast]
      simp [rescale]
    rw [hself]
    exact iff_of_true rfl ⟨by omega, fun h => absurd h (lt_irrefl _)⟩
  · rw [inRange_raise_iff htp (hts.trans htp) hlt]
    exact ⟨fun h => ⟨by omega, fun _ => h⟩, fun h => h.2 hlt⟩

/-- 1.5 to no digits is 2. -/
theorem changePrecision_exact_half : changePrecisionRoundHalfUp 15 2 1 2 0 = rounded 15 1 2 0 :=
  (changePrecision_exact_iff (by decide) (by decide) (by decide) (by decide) (by decide) (by decide)).2
    ⟨by decide, fun h => absurd h (by decide)⟩

/-- 0.9 with 38 digits to none is zero and not one, and a product of more than 38 digits is accepted. -/
theorem changePrecision_wraps :
    (changePrecisionRoundHalfUp (9 * 10 ^ 37) 38 38 38 0 = some 0 ∧ rounded (9 * 10 ^ 37) 38 38 0 = some 1) ∧
    changePrecisionRoundHalfUp (35 * 10 ^ 36) 38 0 38 1 = some (35 * 10 ^ 37 - 2 ^ 128) ∧
      rounded (35 * 10 ^ 36) 0 38 1 = none := by
  have hone : roundHalfUp (((9 * 10 ^ 37 : ℤ) : ℚ) / ((10 ^ 38 : ℤ) : ℚ)) = 1 :=
    (roundHalfUp_eq_iff _ (by norm_num) _).2 (by norm_num)
  have hmany := roundHalfUp_intCast (35 * 10 ^ 37)
  refine ⟨⟨by decide, ?_⟩, by decide, ?_⟩
  · norm_num [rounded] at hone ⊢
    simp [hone]
  · norm_num [rounded] at hmany ⊢
    simp [hmany]

end Auron.Functions
