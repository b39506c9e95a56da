import ExactSphere.Proofs.Decimal.Logarithm
import ExactSphere.Proofs.Rounding.Digits

/-!
# Rounding to significant digits

The decimal of a binary number is exact. Rounding it to `k` significant digits picks the nearest
number of so many digits (`picks_round`). With `k + 1` digits it moves by at most half a unit in
`10 ^ k` (`abs_value_round_sub_le`), so that decimals which are far enough apart for their size stay
in order (`value_round_lt`).
-/

namespace ExactSphere

namespace Decimal

/-- The number that a decimal stands for. -/
def value (d : Decimal) : ℚ := d.coefficient * 10 ^ d.exponent

theorem value_nonneg (d : Decimal) : 0 ≤ d.value := by
  unfold value
  positivity

theorem coefficient_ne_zero {d : Decimal} (hd : 0 < d.value) : d.coefficient ≠ 0 := by
  intro hzero
  rw [value, hzero, Nat.cast_zero, zero_mul] at hd
  exact hd.false

theorem value_ofBinary (m : ℕ) (e : ℤ) : (ofBinary m e).value = m * 2 ^ e := by
  unfold ofBinary
  split_ifs with he
  · rw [value, Nat.shiftLeft_eq, zpow_zero, mul_one]
    push_cast
    rw [← zpow_natCast, Int.toNat_of_nonneg he]
  · have hten : (10 : ℚ) ^ e = 2 ^ e * 5 ^ e := by
      rw [← mul_zpow]
      norm_num
    have hfive : ((Nat.pow 5 e.natAbs : ℕ) : ℚ) * 5 ^ e = 1 := by
      rw [Nat.pow_eq, Nat.cast_pow, ← zpow_natCast, Nat.cast_ofNat, ← zpow_add₀ (by norm_num),
        show (e.natAbs : ℤ) + e = 0 by omega, zpow_zero]
    rw [value, hten, Nat.cast_mul]
    linear_combination (m * 2 ^ e : ℚ) * hfive

variable {d : Decimal} {k : ℕ}

theorem round_of_le (h : digitCount d.coefficient ≤ k) : d.round k = d :=
  if_pos (Nat.sub_eq_zero_of_le h)

theorem round_of_excess {excess : ℕ} (h : digitCount d.coefficient = k + excess)
    (hexcess : excess ≠ 0) :
    d.round k =
      ⟨RoundingMode.tiesEven.divide false d.coefficient (10 ^ excess), d.exponent + excess⟩ := by
  rw [round, h, Nat.add_sub_cancel_left]
  exact if_neg hexcess

/-- The place of the last of `k` digits. -/
theorem lastPlace_value (hd : d.coefficient ≠ 0) (k : ℕ) :
    LastPlace 10 k (d.exponent + digitCount d.coefficient - k) d.value := by
  have hlow : (10 ^ (digitCount d.coefficient - 1) : ℚ) ≤ d.coefficient := by
    exact_mod_cast ten_pow_digitCount_le hd
  have hhigh : (d.coefficient : ℚ) < 10 ^ digitCount d.coefficient := by
    exact_mod_cast lt_ten_pow_digitCount d.coefficient
  have hcount := digitCount_pos hd
  have hpos : (0 : ℚ) < 10 ^ d.exponent := by positivity
  constructor
  · rw [abs_of_nonneg d.value_nonneg, Nat.cast_ofNat, sub_add_cancel, value,
      show d.exponent + digitCount d.coefficient - 1 =
        (digitCount d.coefficient - 1 : ℕ) + d.exponent by omega,
      zpow_add₀ (by norm_num), zpow_natCast]
    exact mul_le_mul_of_nonneg_right hlow hpos.le
  · rw [abs_of_nonneg d.value_nonneg, Nat.cast_ofNat, sub_add_cancel, value, add_comm,
      zpow_add₀ (by norm_num), zpow_natCast]
    exact mul_lt_mul_of_pos_right hhigh hpos

/-- If there are digits to drop, the rounded decimal is the rounded multiple of the last place. -/
theorem value_round_of_excess (hk : k < digitCount d.coefficient) :
    (d.round k).value =
      RoundingMode.tiesEven.integer (d.value / 10 ^ (d.exponent + digitCount d.coefficient - k)) *
        10 ^ (d.exponent + digitCount d.coefficient - k) := by
  obtain ⟨excess, hexcess⟩ := Nat.exists_eq_add_of_le hk.le
  have hplace : d.exponent + digitCount d.coefficient - k = d.exponent + excess := by omega
  have hquotient : d.value / 10 ^ (d.exponent + excess) = d.coefficient / (10 ^ excess : ℕ) := by
    rw [value, zpow_add₀ (by norm_num), zpow_natCast, mul_comm,
      mul_div_mul_left _ _ (by positivity)]
    norm_cast
  rw [hplace, hquotient, ← RoundingMode.divide_eq _ _ (by positivity),
    round_of_excess hexcess (by omega), Int.cast_natCast]
  rfl

/-- Rounding to `k` digits picks among the numbers that have no more. -/
theorem picks_round (hd : d.coefficient ≠ 0) (hk : k ≠ 0) :
    RoundingMode.tiesEven.Picks (FitsDigits 10 k)
      (Multiple (2 * 10 ^ (d.exponent + digitCount d.coefficient - k))) d.value
      (d.round k).value := by
  rcases lt_or_ge k (digitCount d.coefficient) with hlt | hle
  · rw [value_round_of_excess hlt]
    exact_mod_cast RoundingMode.picks_digits (by norm_num) hk (lastPlace_value hd k) .tiesEven
  · rw [round_of_le hle]
    refine .self _ ⟨d.coefficient, d.exponent, ?_, rfl⟩
    rw [Nat.abs_cast]
    exact_mod_cast lt_ten_pow_of_digitCount_le hle

/-- The error of rounding to `k + 1` digits. -/
theorem abs_value_round_sub_le (d : Decimal) (k : ℕ) :
    |(d.round (k + 1)).value - d.value| * (2 * 10 ^ k) ≤ d.value := by
  rcases lt_or_ge (k + 1) (digitCount d.coefficient) with hlt | hle
  · have hlow := (lastPlace_value (ne_zero_of_lt_digitCount hlt) (k + 1)).le
    rw [value_round_of_excess hlt]
    generalize d.exponent + digitCount d.coefficient - (k + 1 : ℕ) = place at hlow ⊢
    have hunit : (0 : ℚ) < 10 ^ place := by positivity
    rw [abs_of_nonneg d.value_nonneg, Nat.cast_ofNat] at hlow
    have herror := Binary64.abs_roundEven_sub_le_half (d.value / 10 ^ place)
    rw [RoundingMode.abs_mul_sub hunit]
    calc _ ≤ 1 / 2 * 10 ^ place * (2 * 10 ^ k) := by gcongr; exact herror
      _ = (10 : ℚ) ^ (place + (k + 1 : ℕ) - 1) := by
        rw [show place + (k + 1 : ℕ) - 1 = place + (k : ℕ) by omega, zpow_add₀ (by norm_num),
          zpow_natCast]
        ring
      _ ≤ d.value := hlow
  · rw [round_of_le hle, sub_self, abs_zero, zero_mul]
    exact d.value_nonneg

theorem value_round_pos {d : Decimal} (hd : 0 < d.value) (k : ℕ) : 0 < (d.round (k + 1)).value := by
  have hone : (1 : ℚ) ≤ 10 ^ k := one_le_pow₀ (by norm_num)
  have herror := abs_value_round_sub_le d k
  by_contra! hnonpos
  have habs : d.value ≤ |(d.round (k + 1)).value - d.value| := by
    linarith [neg_le_abs ((d.round (k + 1)).value - d.value)]
  nlinarith

/-- Rounding to `k + 1` digits keeps decimals in order that are one of at most `10 ^ k` units
apart. -/
theorem value_round_lt {x y : Decimal} {k : ℕ} {unit : ℚ} (hunit : 0 < unit)
    (hgap : x.value + unit ≤ y.value) (hsize : x.value + unit ≤ 10 ^ k * unit) :
    (x.round (k + 1)).value < (y.round (k + 1)).value := by
  have hpos : (0 : ℚ) < 2 * 10 ^ k := by positivity
  have hone : (1 : ℚ) ≤ 10 ^ k := one_le_pow₀ (by norm_num)
  have hx := le_abs_self ((x.round (k + 1)).value - x.value)
  have hy := neg_abs_le ((y.round (k + 1)).value - y.value)
  have hxerror := abs_value_round_sub_le x k
  have hyerror := abs_value_round_sub_le y k
  refine lt_of_mul_lt_mul_right ?_ hpos.le
  calc (x.round (k + 1)).value * (2 * 10 ^ k)
      ≤ x.value * (2 * 10 ^ k) + x.value := by
        linarith [mul_le_mul_of_nonneg_right hx hpos.le]
    _ < (x.value + unit) * (2 * 10 ^ k - 1) := by linarith
    _ ≤ y.value * (2 * 10 ^ k - 1) := mul_le_mul_of_nonneg_right hgap (by linarith)
    _ ≤ (y.round (k + 1)).value * (2 * 10 ^ k) := by
        linarith [mul_le_mul_of_nonneg_right hy hpos.le]

end Decimal
end ExactSphere
