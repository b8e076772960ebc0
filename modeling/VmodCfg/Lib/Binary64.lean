import Mathlib.Algebra.Order.Field.Power
import Mathlib.Data.Int.Log
import Mathlib.Data.Rat.Floor
import Mathlib.Tactic.Linarith

/-!
# Doubles, by their values

A double that is not a NaN is a rational number of the binary64 format, or an infinity; the two
zeros are one. `Double.ofRat` rounds to the nearest double, ties to even. Integers of at most 53
bits are rounded to themselves.
-/

namespace Binary64

/-- The values of the finite doubles. -/
def Representable (q : ℚ) : Prop :=
  |q| < 2 ^ 1024 ∧ ∃ m e : ℤ, q = m * 2 ^ e ∧ |m| ≤ 2 ^ 53 ∧ -1074 ≤ e

inductive Double where
  | finite (value : ℚ) (representable : Representable value)
  | infinite (negative : Bool)

def roundHalfEven (q : ℚ) : ℤ :=
  if q - ⌊q⌋ < 1 / 2 then ⌊q⌋
  else if 1 / 2 < q - ⌊q⌋ then ⌊q⌋ + 1
  else if ⌊q⌋ % 2 = 0 then ⌊q⌋
  else ⌊q⌋ + 1

def exponent (q : ℚ) : ℤ := max (Int.log 2 |q| - 52) (-1074)

def significand (q : ℚ) : ℤ := roundHalfEven (q / 2 ^ exponent q)

/-- The double next to `q`, if it were not for the largest exponent. -/
def nearest (q : ℚ) : ℚ := significand q * 2 ^ exponent q

def truncate (q : ℚ) : ℤ := q.num.tdiv q.den

theorem roundHalfEven_bounds (q : ℚ) : ⌊q⌋ ≤ roundHalfEven q ∧ roundHalfEven q ≤ ⌊q⌋ + 1 := by
  unfold roundHalfEven
  split
  · omega
  · split
    · omega
    · split <;> omega

theorem roundHalfEven_intCast (n : ℤ) : roundHalfEven n = n := by
  rw [roundHalfEven, Int.floor_intCast, sub_self, if_pos (by norm_num)]

theorem lt_two_zpow_exponent (q : ℚ) : |q| < 2 ^ 53 * 2 ^ exponent q := by
  have hlog : |q| < (2 : ℚ) ^ (Int.log 2 |q| + 1) := Int.lt_zpow_succ_log_self (by decide) _
  have hle : Int.log 2 |q| + 1 ≤ 53 + exponent q := by
    have : Int.log 2 |q| - 52 ≤ exponent q := le_max_left _ _
    omega
  calc |q| < 2 ^ (Int.log 2 |q| + 1) := hlog
    _ ≤ 2 ^ (53 + exponent q) := zpow_le_zpow_right₀ (by norm_num) hle
    _ = 2 ^ 53 * 2 ^ exponent q := by rw [zpow_add₀ (by norm_num)]; norm_num

theorem significand_abs_le (q : ℚ) : |significand q| ≤ 2 ^ 53 := by
  have hpos : (0 : ℚ) < 2 ^ exponent q := zpow_pos (by norm_num) _
  have hdiv : |q / 2 ^ exponent q| < 2 ^ 53 := by
    rw [abs_div, abs_of_pos hpos, div_lt_iff₀ hpos]
    exact lt_two_zpow_exponent q
  obtain ⟨hlo, hhi⟩ := abs_lt.mp hdiv
  have hfloor : ⌊q / 2 ^ exponent q⌋ < 2 ^ 53 := Int.floor_lt.2 (by exact_mod_cast hhi)
  have hfloor' : -2 ^ 53 ≤ ⌊q / 2 ^ exponent q⌋ := Int.le_floor.2 (by push_cast; exact hlo.le)
  have := roundHalfEven_bounds (q / 2 ^ exponent q)
  rw [significand, abs_le]
  omega

theorem representable_nearest {q : ℚ} (h : |nearest q| < 2 ^ 1024) : Representable (nearest q) :=
  ⟨h, significand q, exponent q, rfl, significand_abs_le q, le_max_right _ _⟩

/-- The double next to `q`. -/
def Double.ofRat (q : ℚ) : Double :=
  if h : |nearest q| < 2 ^ 1024 then .finite (nearest q) (representable_nearest h)
  else .infinite (q < 0)

/-- A multiple of the last place is not rounded. -/
theorem nearest_of_mul {q : ℚ} {k : ℤ} (h : q = k * 2 ^ exponent q) : nearest q = q := by
  have hne : (2 : ℚ) ^ exponent q ≠ 0 := zpow_ne_zero _ (by norm_num)
  have hdiv : q / 2 ^ exponent q = k := by
    rw [div_eq_iff hne]
    exact h
  rw [nearest, significand, hdiv, roundHalfEven_intCast]
  exact h.symm

theorem exponent_intCast_le {n : ℤ} (h : |n| ≤ 2 ^ 53) :
    exponent n ≤ 0 ∨ (exponent (n : ℚ) = 1 ∧ |n| = 2 ^ 53) := by
  have hcast : |(n : ℚ)| = ((|n| : ℤ) : ℚ) := by push_cast; rfl
  rcases eq_or_lt_of_le (abs_nonneg n) with hzero | hpos
  · left
    rw [exponent, hcast, ← hzero]
    simp
  · have hq : (0 : ℚ) < |(n : ℚ)| := by
      rw [hcast]
      exact_mod_cast hpos
    by_cases hfull : |n| = 2 ^ 53
    · right
      refine ⟨?_, hfull⟩
      have hpow : |(n : ℚ)| = ((2 : ℕ) : ℚ) ^ (53 : ℤ) := by
        rw [hcast, hfull, zpow_ofNat]
        exact Int.cast_pow 2 53
      rw [exponent, hpow, Int.log_zpow (by decide)]
      decide
    · left
      have hlt : |(n : ℚ)| < (2 : ℚ) ^ (53 : ℤ) := by
        rw [hcast]
        have : |n| < 2 ^ 53 := lt_of_le_of_ne h hfull
        exact_mod_cast this
      have hlog : Int.log 2 |(n : ℚ)| < 53 := (Int.lt_zpow_iff_log_lt (by decide) hq).1 hlt
      rw [exponent]
      omega

/-- **Integers of at most 53 bits are doubles.** -/
theorem nearest_intCast {n : ℤ} (h : |n| ≤ 2 ^ 53) : nearest n = n := by
  rcases exponent_intCast_le h with hexp | ⟨hexp, habs⟩
  · obtain ⟨j, hj⟩ := Int.eq_ofNat_of_zero_le (Int.neg_nonneg.2 hexp)
    have hpow : (2 : ℚ) ^ exponent (n : ℚ) = ((2 : ℚ) ^ j)⁻¹ := by
      rw [← zpow_natCast, ← zpow_neg, show -(j : ℤ) = exponent (n : ℚ) by omega]
    refine nearest_of_mul (k := n * 2 ^ j) ?_
    rw [hpow]
    push_cast
    rw [mul_assoc, mul_inv_cancel₀ (pow_ne_zero _ (by norm_num)), mul_one]
  · rcases abs_eq (show (0 : ℤ) ≤ 2 ^ 53 by decide) |>.1 habs with rfl | rfl
    · refine nearest_of_mul (k := 2 ^ 52) ?_
      rw [hexp]
      norm_num
    · refine nearest_of_mul (k := -2 ^ 52) ?_
      rw [hexp]
      norm_num

theorem representable_intCast {n : ℤ} (h : |n| ≤ 2 ^ 53) : Representable n := by
  refine ⟨?_, n, 0, by simp, h, by decide⟩
  have hcast : |(n : ℚ)| = ((|n| : ℤ) : ℚ) := by push_cast; rfl
  rw [hcast]
  have hlt : |n| < 2 ^ 1024 := lt_of_le_of_lt h (pow_lt_pow_right₀ (by decide) (by decide))
  calc ((|n| : ℤ) : ℚ) < ((2 ^ 1024 : ℤ) : ℚ) := Int.cast_lt.2 hlt
    _ = 2 ^ 1024 := Int.cast_pow 2 1024

theorem ofRat_intCast {n : ℤ} (h : |n| ≤ 2 ^ 53) :
    Double.ofRat n = .finite n (representable_intCast h) := by
  have hlt : |nearest (n : ℚ)| < 2 ^ 1024 := by
    rw [nearest_intCast h]
    exact (representable_intCast h).1
  unfold Double.ofRat
  rw [dif_pos hlt]
  congr 1
  exact nearest_intCast h

theorem truncate_intCast (n : ℤ) : truncate n = n := by
  simp [truncate]

end Binary64
