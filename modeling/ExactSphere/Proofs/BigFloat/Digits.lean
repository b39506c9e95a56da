import ExactSphere.BigFloat.Decimal
import ExactSphere.Proofs.BigFloat.Double
import ExactSphere.Proofs.BigFloat.Expression
import ExactSphere.Proofs.BigFloat.Integer
import ExactSphere.Proofs.Binary64.Literals
import ExactSphere.Proofs.Decimal.Logarithm

/-!
# Enough digits

A value is shown with so many digits that one digit fewer still counts further than its mantissa
(`exists_displayDigits`). The number of digits is a rounded product of doubles; rounding it up to an
integer makes up for the error of the product.
-/

namespace ExactSphere.BigFloat

open Binary64 (datum nearest)

/-- The product of a precision with the logarithm is rounded, but stays above a convergent of it. -/
theorem datum_mul_log10Two {p : ℕ} (hp : 0 < p) (hmax : p ≤ maxPrecision) :
    ∃ w, datum ((ofInt p).toFloat * Binary64.log10Two) = .number w ∧
      (15392313 * p : ℚ) < w * 51132157 ∧ w ≤ 2 ^ 25 := by
  have hbits : p ≤ 67108864 := hmax
  have hpos : (1 : ℚ) ≤ p := by exact_mod_cast hp
  have hle : (p : ℚ) ≤ 67108864 := by exact_mod_cast hbits
  have hlog : (5422874305198591 * 2 ^ (-54 : ℤ) : ℚ) = 5422874305198591 / 18014398509481984 := by
    norm_num
  have hproduct : |(p : ℚ) * (5422874305198591 * 2 ^ (-54 : ℤ))| =
      p * (5422874305198591 / 18014398509481984) := by
    rw [hlog, abs_of_pos (by positivity)]
  have hlarge := Binary64.abs_nearest_le_zpow (e := 25) (by norm_num)
    (hproduct.trans_le (by norm_num; linarith))
  have hsmall : (2 : ℚ) ^ (-1022 : ℤ) ≤ |(p : ℚ) * (5422874305198591 * 2 ^ (-54 : ℤ))| := by
    rw [hproduct]
    refine (zpow_le_zpow_right₀ one_le_two (show (-1022 : ℤ) ≤ -2 by norm_num)).trans ?_
    norm_num
    linarith
  have herror := abs_le.1 (Binary64.abs_nearest_sub_le_unit hsmall)
  have hfactor : datum (ofInt p).toFloat = .number p := datum_toFloat_ofInt (by omega)
  refine ⟨_, Binary64.datum_mul_of_lt hfactor Binary64.datum_log10Two
    (hlarge.trans_lt (zpow_lt_zpow_right₀ one_lt_two (by norm_num))), ?_, ?_⟩
  · rw [hproduct] at herror
    generalize nearest _ = w at herror
    norm_num at herror
    linarith
  · exact (le_abs_self _).trans (hlarge.trans_eq (by norm_num))

/-- The digits of a precision are one more than a power of ten above its power of two. -/
theorem significantDigits_ofNat {p : ℕ} (hp : 0 < p) (hmax : p ≤ maxPrecision) :
    ∃ k : ℕ, significantDigits (.ofNat p) = 1 + k ∧ 2 ^ p ≤ 10 ^ k ∧ k ≤ 2 ^ 25 := by
  obtain ⟨w, hdatum, hlower, hupper⟩ := datum_mul_log10Two hp hmax
  have hbits : p ≤ 67108864 := hmax
  have hpos : (0 : ℚ) < p := by exact_mod_cast hp
  have hw : 0 < w := by linarith
  have hvalue := represents_ofFloat (Binary64.isFinite_of_datum hdatum)
  rw [Binary64.value_of_datum hdatum] at hvalue
  have hceil : ⌈w⌉ ≤ 2 ^ 25 := Int.ceil_le.2 (by exact_mod_cast hupper)
  have hinteger : (ofFloat ((ofInt p).toFloat * Binary64.log10Two)).toIntClamped .towardPositive 0
      18446744073709551615 = max 0 (min 18446744073709551615 ⌈w⌉) := by
    rw [toIntClamped_eq (canonical_ofFloat _) hvalue.isFinite (by decide) (by decide) (by decide),
      hvalue.value_eq]
    rfl
  have hword : (Int32.ofNat p).toInt = p := Int32.toInt_ofNat_of_lt (by omega)
  have hpositive := Int.ceil_pos.2 hw
  refine ⟨⌈w⌉.toNat, ?_, Decimal.two_pow_le_ten_pow ?_ (by omega), by omega⟩
  · unfold significantDigits
    rw [hword]
    dsimp only
    rw [hinteger]
    omega
  · have hround : w ≤ (⌈w⌉.toNat : ℚ) := by
      rw [← Int.cast_natCast, Int.toNat_of_nonneg hpositive.le]
      exact Int.le_ceil w
    have hcast : (15392313 * p : ℚ) < ⌈w⌉.toNat * 51132157 := by linarith
    exact_mod_cast hcast

/-- One digit fewer than a value is shown with counts as far as its mantissa. -/
theorem exists_displayDigits {x : BigFloat} (hx : x.precision ≤ maxPrecision) :
    ∃ k : ℕ, x.displayDigits.toNat = k + 1 ∧ 2 ^ x.precision ≤ 10 ^ k := by
  rcases Nat.eq_zero_or_pos x.precision with hzero | hpos
  · refine ⟨9, ?_, ?_⟩
    · rw [displayDigits, hzero]
      decide +kernel
    · rw [hzero]
      norm_num
  · obtain ⟨k, hdigits, hpower, hk⟩ := significantDigits_ofNat hpos hx
    refine ⟨max 9 k, ?_, hpower.trans (Nat.pow_le_pow_right (by norm_num) (le_max_right 9 k))⟩
    have hcount : max 10 (1 + (k : ℤ)).toNat = max 9 k + 1 := by omega
    rw [displayDigits, hdigits, hcount, UInt64.toNat_ofNat_of_lt' ?_]
    exact (show max 9 k + 1 < 2 ^ 64 by omega)

end ExactSphere.BigFloat
