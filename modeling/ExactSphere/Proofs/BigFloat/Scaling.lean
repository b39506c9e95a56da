import ExactSphere.Proofs.BigFloat.Arithmetic
import ExactSphere.Proofs.BigFloat.Checked

/-!
# Scaling by powers of two

A canonical value times a power of two keeps its odd mantissa: within the exponent range only the
exponent moves (`Canonical.scale_eq`), and beyond it the result is the zero or the infinity of the
sign. The shift is bounded before it is added to the exponent, which changes nothing and keeps all
sums within their words, whatever the power is (`scale_exact`). A value is split into a fraction and
a power of two, and scaling puts it together again.
-/

namespace ExactSphere.BigFloat

variable {x : BigFloat} {s : Bool} {m : ℕ} {e n : ℤ}

/-- An odd mantissa within the limits is stored as it is. -/
theorem ofParts_of_odd (hodd : m % 2 = 1) (hmin : minExponent ≤ e + bitLength m)
    (hmax : e + bitLength m ≤ maxExponent) (hbits : bitLength m ≤ maxPrecision) (s : Bool) :
    ofParts s m e = ⟨s, .finite m e⟩ := by
  rw [ofParts_of_le (by omega) hmin hmax, trailingZeros_of_odd hodd, Nat.shiftRight_zero,
    if_neg hbits.not_gt, Nat.cast_zero, add_zero]

/-- Within the exponent range, scaling moves the exponent and nothing else. -/
theorem Canonical.scale_eq (hx : Canonical ⟨s, .finite m e⟩)
    (hmin : minExponent ≤ e + bitLength m + n) (hmax : e + bitLength m + n ≤ maxExponent) :
    scale ⟨s, .finite m e⟩ n = ⟨s, .finite m (e + n)⟩ :=
  ofParts_of_odd hx.1 (by omega) (by omega) hx.2.2.2 s

theorem value_finite_add (s : Bool) (m : ℕ) (e n : ℤ) :
    value ⟨s, .finite m (e + n)⟩ = value ⟨s, .finite m e⟩ * 2 ^ n := by
  change (signedInt s m * 2 ^ (e + n) : ℚ) = signedInt s m * 2 ^ e * 2 ^ n
  rw [zpow_add₀ two_ne_zero, mul_assoc]

/-! ## Scaling -/

/-- `z` is `x * 2 ^ n`, for `x` of exponent `e`, or what becomes of it beyond the exponent range. -/
structure ScaledBy (n : ℤ) (e : ℤ) (x z : BigFloat) : Prop where
  exact : minExponent ≤ e + n → e + n ≤ maxExponent →
    z.isNormal = true ∧ z.Canonical ∧ z.exponent? = some (e + n) ∧ z.value = x.value * 2 ^ n
  underflow : e + n < minExponent → z = zero x.negative
  overflow : maxExponent < e + n → z = infinity x.negative

theorem Canonical.scaledBy_scale (hx : Canonical ⟨s, .finite m e⟩) (n : ℤ) :
    ScaledBy n (e + bitLength m) ⟨s, .finite m e⟩ (scale ⟨s, .finite m e⟩ n) where
  exact hmin hmax := by
    have hcanonical := canonical_scale hx n
    rw [hx.scale_eq hmin hmax] at hcanonical ⊢
    refine ⟨rfl, hcanonical, ?_, value_finite_add s m e n⟩
    change some (e + n + bitLength m) = _
    rw [add_right_comm]
  underflow hlow := ofParts_of_lt s (by omega)
  overflow hhigh := ofParts_of_gt s hx.mantissa_ne_zero (by omega)

/-! ## Splitting -/

/-- The fraction has the mantissa of the value. -/
theorem Canonical.split_eq (hx : Canonical ⟨s, .finite m e⟩) :
    split ⟨s, .finite m e⟩ = (⟨s, .finite m (e + -(e + bitLength m))⟩, e + bitLength m) := by
  change (scale ⟨s, .finite m e⟩ (-(e + bitLength m)), e + (bitLength m : ℤ)) = _
  rw [hx.scale_eq (by unfold minExponent; omega) (by unfold maxExponent; omega)]

/-- The fraction lies between one half and one. -/
theorem Canonical.hasExponent_fraction (hx : Canonical ⟨s, .finite m e⟩) :
    HasExponent 0 (value ⟨s, .finite m (e + -(e + bitLength m))⟩) := by
  have hexponent := HasExponent.signedInt hx.mantissa_ne_zero s (e + -(e + bitLength m))
  have hzero : e + -(e + (bitLength m : ℤ)) + bitLength m = 0 := by omega
  rwa [hzero] at hexponent

/-- Scaling the fraction gives the value back. -/
theorem Canonical.scale_fraction (hx : Canonical ⟨s, .finite m e⟩) :
    scale ⟨s, .finite m (e + -(e + bitLength m))⟩ (e + bitLength m) = ⟨s, .finite m e⟩ := by
  change ofParts s m (e + -(e + bitLength m) + (e + bitLength m)) = _
  rw [neg_add_cancel_right]
  exact ofParts_of_odd hx.1 hx.2.1 hx.2.2.1 hx.2.2.2 s

theorem beq_self (h : x.isNaN = false) : (x == x) = true := by
  change (!x.isNaN && !x.isNaN && ((x.isZero && x.isZero) || decide (x = x))) = true
  simp [h]

/-- Scaling a normal value by any power of two is exact within the exponent range and saturates
beyond it. The bounded shift gives the same result, and no word overflows. The parts into which the
value is split are a fraction in `[1/2, 1)` and the exponent, and scaling gives the value back. -/
theorem scale_exact (hx : x.Canonical) (hnormal : x.isNormal = true) :
    ∃ e, x.exponent? = some e ∧ HasExponent e x.value ∧
      (∀ n, ScaledBy n e x (x.scale n) ∧ x.scale (clampedShift e n) = x.scale n ∧
        scaleFits x n = true) ∧
      ∃ f, x.split = (f, e) ∧ splitFits x = true ∧ f.isNormal = true ∧ f.Canonical ∧
        1 / 2 ≤ |f.value| ∧ |f.value| < 1 ∧ (f.scale e == x) = true := by
  obtain ⟨s, m, e, rfl⟩ := exists_of_isNormal hnormal
  refine ⟨e + bitLength m, rfl, HasExponent.signedInt hx.mantissa_ne_zero s e,
    fun n => ⟨hx.scaledBy_scale n, ?bounded, scaleFits_of_canonical hx n⟩,
    _, hx.split_eq, splitFits_of_canonical hx, rfl, ?canonical, ?half, ?one, ?back⟩
  case bounded => exact (scale_eq_clamped hx.mantissa_ne_zero s e n).symm
  case canonical =>
    have hcanonical := canonical_split hx
    rwa [hx.split_eq] at hcanonical
  case half =>
    have hle := hx.hasExponent_fraction.le
    rwa [zero_sub, zpow_neg_one, ← one_div] at hle
  case one =>
    have hlt := hx.hasExponent_fraction.lt
    rwa [zpow_zero] at hlt
  case back =>
    rw [hx.scale_fraction]
    exact beq_self rfl

/-- The value `-12` at both ends of the 32-bit range of powers, and its fraction `-3/4`. -/
theorem scale_exact_twelve :
    let x : BigFloat := ⟨true, .finite 3 2⟩
    (x.Canonical ∧ x.isNormal = true) ∧
      x.scale 2147483647 = infinity true ∧ scaleFits x 2147483647 = true ∧
      x.scale (-2147483648) = zero true ∧ scaleFits x (-2147483648) = true ∧
      x.split = (⟨true, .finite 3 (-2)⟩, 4) ∧
      (scale ⟨true, .finite 3 (-2)⟩ 4 == x) = true := by
  intro x
  have hx : x.Canonical := by unfold Canonical; decide
  obtain ⟨e, hexponent, -, hscale, f, hsplit, -, -, -, -, -, hback⟩ := scale_exact hx rfl
  obtain rfl : 4 = e := Option.some.inj hexponent
  have hfraction : x.split = (⟨true, .finite 3 (-2)⟩, 4) := by decide
  obtain rfl : f = ⟨true, .finite 3 (-2)⟩ := congrArg Prod.fst (hsplit.symm.trans hfraction)
  obtain ⟨hlarge, -, hlargeFits⟩ := hscale 2147483647
  obtain ⟨hsmall, -, hsmallFits⟩ := hscale (-2147483648)
  exact ⟨⟨hx, rfl⟩, hlarge.overflow (by decide), hlargeFits, hsmall.underflow (by decide),
    hsmallFits, hsplit, hback⟩

end ExactSphere.BigFloat
