import ExactSphere.ErrorFree
import ExactSphere.Proofs.Binary64.Literals
import ExactSphere.Proofs.Binary64.Overflow

/-!
# The error of a sum

`twoSum` gives the rounded sum and its exact error as long as its steps are finite (`FiniteSteps`,
`twoSum_exact`). Besides the sum only the part of the second term can overflow
(`FiniteSteps.of_part`), and only if that term is the largest double (`FiniteSteps.of_lt_largest`).
A finite error tells that all steps before it are finite (`FiniteSteps.of_error`).
-/

namespace ExactSphere.ErrorFree

open Binary64

variable {x y : ℚ} {a b : Float}

/-! ## The error -/

/-- What `twoSum` computes for the error of a sum `s`. -/
def errorOfSum (x y s : ℚ) : ℚ :=
  nearest (nearest (x - nearest (s - nearest (s - x))) + nearest (y - nearest (s - x)))

/-- The second term minus its computed part is representable, though that part is rounded. -/
theorem representable_sub_part (hy : Representable y) (h : |x| ≤ |y|) :
    Representable (y - nearest (nearest (x + y) - x)) := by
  set s := nearest (x + y) with hs
  obtain ⟨e, he, hgx, hgy, hlt⟩ :
      ∃ e, -1074 ≤ e ∧ (-1074 < e → 2 ^ (e + 52) ≤ |y|) ∧ OnGrid e y ∧ |y| < 2 ^ (e + 53) :=
    ⟨ulpExponent y, min_le_ulpExponent y, fun hlt => zpow_ulpExponent_le hlt,
      by simpa [nearest_eq_self hy] using onGrid_nearest y, abs_lt_zpow_ulpExponent y⟩
  have hpos : (0 : ℚ) < 2 ^ e := by positivity
  have hsumError : |s - (x + y)| ≤ 2 ^ e := by
    have hle : |x + y| ≤ 2 ^ (e + 1 + 53) := by
      have htri := abs_add_le x y
      rw [zpow_add₀ two_ne_zero] at hlt
      rw [add_assoc, zpow_add₀ two_ne_zero]
      norm_num at hlt ⊢
      linarith
    simpa using abs_nearest_sub_le_of_le (by omega) hle
  have hpart : |s - x| ≤ |y| + 2 ^ e := by
    have htri := abs_add_le y (s - (x + y))
    rw [show y + (s - (x + y)) = s - x by ring] at htri
    linarith
  have hpartError : |nearest (s - x) - (s - x)| ≤ 2 ^ e := by
    have hle : |s - x| ≤ 2 ^ (e + 1 + 53) := by
      rw [zpow_add₀ two_ne_zero] at hlt
      rw [add_assoc, zpow_add₀ two_ne_zero]
      norm_num at hlt ⊢
      linarith
    simpa using abs_nearest_sub_le_of_le (by omega) hle
  have hgrid : OnGrid (e - 1) (nearest (s - x)) := by
    rcases he.eq_or_lt with rfl | hlt'
    · exact ((representable_nearest _).onGrid).mono (by omega)
    · refine onGrid_nearest_of_le ?_
      have hyle := hgx hlt'
      have htri := abs_sub_abs_le_abs_sub y (y - (s - x))
      rw [show y - (s - x) = -(s - (x + y)) by ring, abs_neg,
        show y - -(s - (x + y)) = s - x by ring] at htri
      rw [zpow_add₀ two_ne_zero] at hyle
      rw [show e - 1 + 52 = e + 51 by ring, zpow_add₀ two_ne_zero]
      norm_num at hyle ⊢
      linarith
  refine representable_of_onGrid ((hgy.mono (by omega)).sub hgrid)
    (hy.onGrid.sub (representable_nearest _).onGrid) ?_
  have htri := abs_add_le (s - (x + y)) (nearest (s - x) - (s - x))
  rw [show s - (x + y) + (nearest (s - x) - (s - x)) = -(y - nearest (s - x)) by ring,
    abs_neg] at htri
  rw [show e - 1 + 53 = e + 52 by ring, zpow_add₀ two_ne_zero]
  norm_num
  linarith

/-- The error of a sum is exact. -/
theorem errorOfSum_eq (hx : Representable x) (hy : Representable y) :
    errorOfSum x y (nearest (x + y)) = x + y - nearest (x + y) := by
  have herror := representable_sub_nearest hx hy
  set s := nearest (x + y) with hs
  unfold errorOfSum
  rcases le_total |y| |x| with h | h
  · -- the part of the smaller term is exact, and nothing of the larger one is lost
    have hpart : nearest (s - x) = s - x := nearest_eq_self (representable_nearest_sub hx hy h)
    rw [hpart, sub_sub_cancel, nearest_eq_self hx, sub_self, nearest_zero, zero_add,
      show y - (s - x) = x + y - s by ring, nearest_eq_self herror, nearest_eq_self herror]
  · by_cases hexact : Representable (x + y)
    · have hsum : s = x + y := nearest_eq_self hexact
      rw [hsum, add_sub_cancel_left, nearest_eq_self hy, add_sub_cancel_right, nearest_eq_self hx,
        sub_self, sub_self, nearest_zero, add_zero, nearest_zero, sub_self]
    · -- the sum is larger than the first term, so only the part of the second is rounded
      have hlarge : |x| ≤ |s| := by
        by_contra! hlt
        have hle : |x + y| ≤ |x| := by
          by_contra! hgt
          have := abs_nearest_mono (x := x) (y := |x + y|) hgt.le
          rw [nearest_eq_self hx, ← abs_nearest] at this
          linarith
        exact hexact (representable_add_of_abs_le hx hy hle (hle.trans h))
      have hrep : Representable s := representable_nearest _
      have hfirst : Representable (s - nearest (s - x)) := by
        have := (representable_nearest_sub hrep hx.neg (by rwa [abs_neg])).neg
        rwa [neg_sub, ← sub_eq_add_neg] at this
      have hloss : Representable (x - (s - nearest (s - x))) := by
        have := (representable_sub_nearest hrep hx.neg).neg
        rw [← sub_eq_add_neg] at this
        rwa [show x - (s - nearest (s - x)) = -(s - x - nearest (s - x)) by ring]
      rw [nearest_eq_self hfirst, nearest_eq_self hloss,
        nearest_eq_self (representable_sub_part hy h),
        show x - (s - nearest (s - x)) + (y - nearest (s - x)) = x + y - s by ring,
        nearest_eq_self herror]

/-! ## The steps -/

/-- The sum is finite, and so is what `twoSum` computes from it on the way to the error. -/
structure FiniteSteps (a b : Float) : Prop where
  sum : (a + b).isFinite = true
  bPart : (a + b - a).isFinite = true
  aPart : (a + b - (a + b - a)).isFinite = true
  bError : (b - (a + b - a)).isFinite = true
  aError : (a - (a + b - (a + b - a))).isFinite = true

theorem FiniteSteps.of_error (h : (twoSum a b).2.isFinite = true) : FiniteSteps a b := by
  obtain ⟨haError, hbError, -⟩ := finite_of_add h
  obtain ⟨-, haPart, -⟩ := finite_of_sub haError
  obtain ⟨-, hbPart, -⟩ := finite_of_sub hbError
  obtain ⟨hsum, -, -⟩ := finite_of_sub hbPart
  exact ⟨hsum, hbPart, haPart, hbError, haError⟩

/-- The last step does not overflow: the error is not larger than a term. -/
theorem FiniteSteps.datum_twoSum (h : FiniteSteps a b) :
    datum (twoSum a b).1 = .number (nearest (value a + value b)) ∧
      datum (twoSum a b).2 = .number (value a + value b - nearest (value a + value b)) := by
  obtain ⟨ha, hb, hsum⟩ := finite_of_add h.sum
  obtain ⟨-, -, hbPart⟩ := finite_of_sub h.bPart
  obtain ⟨-, -, haPart⟩ := finite_of_sub h.aPart
  obtain ⟨-, -, hbError⟩ := finite_of_sub h.bError
  obtain ⟨-, -, haError⟩ := finite_of_sub h.aError
  have hexact := errorOfSum_eq (representable_value a) (representable_value b)
  rw [errorOfSum, ← hsum, ← hbPart, ← haPart, ← hbError, ← haError] at hexact
  have herror := abs_nearest_add_sub_le_right (y := value b) (representable_value a)
  rw [← hsum, abs_sub_comm] at herror
  rw [← hsum]
  refine ⟨isFinite_iff.1 h.sum, ?_⟩
  rw [← hexact] at herror ⊢
  exact datum_add_of_lt (isFinite_iff.1 h.aError) (isFinite_iff.1 h.bError)
    (herror.trans_lt (abs_value_lt b))

/-- If the computed error is a number, so are the terms and the sum, and the error is exact. -/
theorem number_of_twoSum {e : ℚ} (h : datum (twoSum a b).2 = .number e) :
    ∃ x y, datum a = .number x ∧ datum b = .number y ∧
      datum (twoSum a b).1 = .number (nearest (x + y)) ∧ e = x + y - nearest (x + y) := by
  have hsteps := FiniteSteps.of_error (isFinite_of_datum h)
  obtain ⟨ha, hb, -⟩ := finite_of_add hsteps.sum
  obtain ⟨hsum, herror⟩ := hsteps.datum_twoSum
  exact ⟨_, _, isFinite_iff.1 ha, isFinite_iff.1 hb, hsum,
    Datum.number.inj (h.symm.trans herror)⟩

/-! ## Overflow -/

/-- The part of the first term does not overflow: it is that term, or close to it if the second one
is larger. -/
theorem abs_first_part_lt (hx : Representable x) (hy : Representable y)
    (hxlt : |x| < 2 ^ (1024 : ℤ)) (hylt : |y| < 2 ^ (1024 : ℤ))
    (hpart : |nearest (nearest (x + y) - x)| < 2 ^ (1024 : ℤ)) :
    |nearest (nearest (x + y) - nearest (nearest (x + y) - x))| < 2 ^ (1024 : ℤ) := by
  have hpartError := abs_nearest_sub_le_of_lt hpart
  set s := nearest (x + y)
  rcases le_or_gt |y| |x| with h | h
  · rw [nearest_eq_self (representable_nearest_sub hx hy h), sub_sub_cancel, nearest_eq_self hx]
    exact hxlt
  · have htri := abs_sub x (nearest (s - x) - (s - x))
    rw [show x - (nearest (s - x) - (s - x)) = s - nearest (s - x) by ring] at htri
    rw [abs_nearest_lt_iff]
    linarith [hy.abs_le_largest hylt]

/-- If the sum and the part of the second term are finite, then so are the other steps. -/
theorem FiniteSteps.of_part (ha : datum a = .number x) (hb : datum b = .number y)
    (hs : |nearest (x + y)| < 2 ^ (1024 : ℤ))
    (hpart : |nearest (nearest (x + y) - x)| < 2 ^ (1024 : ℤ)) : FiniteSteps a b := by
  have hfirst := abs_first_part_lt (representable_of_datum ha) (representable_of_datum hb)
    (abs_lt_of_datum ha) (abs_lt_of_datum hb) hpart
  have hsum := datum_add_of_lt ha hb hs
  have hbPart := datum_sub_of_lt hsum ha hpart
  have haPart := datum_sub_of_lt hsum hbPart hfirst
  have hsumError := abs_le.1 (abs_nearest_sub_le_of_lt hs)
  have hbPartError := abs_le.1 (abs_nearest_sub_le_of_lt hpart)
  have haPartError := abs_le.1 (abs_nearest_sub_le_of_lt hfirst)
  -- what the parts leave of the terms are rounding errors
  have hsmall : ∀ {z : ℚ}, |z| ≤ 2 * 2 ^ (970 : ℤ) → |nearest z| < 2 ^ (1024 : ℤ) := fun hz => by
    have hle := hz.trans_eq (zpow_one_add₀ two_ne_zero 970).symm
    exact lt_zpow_of_le (abs_nearest_le_zpow (by norm_num) hle) (by norm_num)
  have hbError := datum_sub_of_lt hb hbPart
    (hsmall (abs_le.2 ⟨by linarith, by linarith⟩))
  have haError := datum_sub_of_lt ha haPart
    (hsmall (abs_le.2 ⟨by linarith, by linarith⟩))
  exact ⟨isFinite_of_datum hsum, isFinite_of_datum hbPart, isFinite_of_datum haPart,
    isFinite_of_datum hbError, isFinite_of_datum haError⟩

/-- The error is a number if the sum is, unless the second term is the largest double. -/
theorem FiniteSteps.of_lt_largest (ha : datum a = .number x) (hb : datum b = .number y)
    (hs : |nearest (x + y)| < 2 ^ (1024 : ℤ)) (hy : |y| < largest) : FiniteSteps a b := by
  refine .of_part ha hb hs ?_
  have htri := abs_add_le (nearest (x + y) - (x + y)) y
  rw [show nearest (x + y) - (x + y) + y = nearest (x + y) - x by ring] at htri
  rw [abs_nearest_lt_iff]
  linarith [abs_nearest_sub_le_of_lt hs]

/-- A sum that is a double has finite steps for any terms. -/
theorem FiniteSteps.of_representable (ha : datum a = .number x) (hb : datum b = .number y)
    (hs : Representable (x + y)) (hlt : |x + y| < 2 ^ (1024 : ℤ)) : FiniteSteps a b := by
  have hself := nearest_eq_self hs
  refine .of_part ha hb (by rwa [hself]) ?_
  rw [hself, add_sub_cancel_left, nearest_eq_self (representable_of_datum hb)]
  exact abs_lt_of_datum hb

theorem datum_twoSum (ha : datum a = .number x) (hb : datum b = .number y)
    (hs : |nearest (x + y)| < 2 ^ (1024 : ℤ)) (hy : |y| < largest) :
    datum (twoSum a b).1 = .number (nearest (x + y)) ∧
      datum (twoSum a b).2 = .number (x + y - nearest (x + y)) := by
  have h := (FiniteSteps.of_lt_largest ha hb hs hy).datum_twoSum
  rwa [value_of_datum ha, value_of_datum hb] at h

/-- An error of an infinite or undefined sum is undefined. -/
theorem datum_twoSum_of_not_number (h : ∀ z, datum (twoSum a b).1 ≠ .number z) :
    datum (twoSum a b).2 = .nan := by
  have hpart : ∀ d e : Datum, (∀ z, d ≠ .number z) → d + -(d + e) = .nan := by
    intro d e hd
    cases d with
    | number z => exact (hd z rfl).elim
    | nan => rfl
    | infinity s =>
      cases e with
      | nan => rfl
      | number z => cases s <;> rfl
      | infinity t => cases s <;> cases t <;> rfl
  have haPart : datum ((a + b) - ((a + b) - a)) = .nan := by
    rw [datum_sub, datum_sub]
    exact hpart _ _ h
  change datum ((a - ((a + b) - ((a + b) - a))) + (b - ((a + b) - a))) = .nan
  rw [datum_add, datum_sub, haPart, Datum.neg_nan, Datum.add_nan, Datum.nan_add]

/-! ## Exact sums -/

/-- With finite steps the two words add up to the two terms, and the error is zero just if the sum
of the terms is a double. The steps are finite if the rounded sum is, but for the largest double as
second term of a sum that is no double. -/
theorem twoSum_exact (ha : a.isFinite = true) (hb : b.isFinite = true) :
    (FiniteSteps a b →
      (twoSum a b).1.isFinite = true ∧ (twoSum a b).2.isFinite = true ∧
      (twoSum a b).1 = a + b ∧ value (a + b) = nearest (value a + value b) ∧
      value (twoSum a b).1 + value (twoSum a b).2 = value a + value b ∧
      (((twoSum a b).2 == 0) = true ↔
        ∃ s : Float, s.isFinite = true ∧ value s = value a + value b)) ∧
    ((a + b).isFinite = true →
      (|value b| = largest → ∃ s : Float, s.isFinite = true ∧ value s = value a + value b) →
      FiniteSteps a b) := by
  have hrepresentable : ∀ s : Float, value s = value a + value b →
      Representable (value a + value b) := fun s hs => hs ▸ representable_value s
  refine ⟨fun h => ?_, fun hsum hexact => ?_⟩
  · obtain ⟨hhi, hlo⟩ := h.datum_twoSum
    rw [value_of_datum hhi, value_of_datum hlo, beq_zero_iff, hlo]
    refine ⟨isFinite_of_datum hhi, isFinite_of_datum hlo, rfl, value_of_datum hhi,
      add_sub_cancel _ _, ?_⟩
    rw [Datum.number.injEq, sub_eq_zero]
    constructor
    · intro hzero
      exact ⟨_, isFinite_of_datum hhi, (value_of_datum hhi).trans hzero.symm⟩
    · rintro ⟨s, -, hs⟩
      exact (nearest_eq_self (hrepresentable s hs)).symm
  · obtain ⟨-, -, hvalue⟩ := finite_of_add hsum
    have hlt := abs_value_lt (a + b)
    rw [hvalue] at hlt
    rcases ((representable_value b).abs_le_largest (abs_value_lt b)).eq_or_lt with heq | hsmall
    · obtain ⟨s, -, hs⟩ := hexact heq
      have hrep := hrepresentable s hs
      rw [nearest_eq_self hrep] at hlt
      exact .of_representable (isFinite_iff.1 ha) (isFinite_iff.1 hb) hrep hlt
    · exact .of_lt_largest (isFinite_iff.1 ha) (isFinite_iff.1 hb) hlt hsmall

/-- Both parts are rounded here, and so is the sum. With the largest double as second term, a step
overflows though the sum does not. -/
theorem twoSum_exact_rounded_parts :
    let a : Float := 541.5
    let b : Float := 9007199254740991
    let c : Float := .ofBits 0xFCA8000000000000
    let d : Float := .ofBits 0x7FEFFFFFFFFFFFFF
    (FiniteSteps a b ∧ value (a + b - a) ≠ value (a + b) - value a ∧
      value (a + b - (a + b - a)) ≠ value a ∧ value (twoSum a b).1 = 9007199254741532 ∧
      value (twoSum a b).1 + value (twoSum a b).2 = value a + value b ∧
      ¬∃ s : Float, s.isFinite = true ∧ value s = value a + value b) ∧
    (c + d).isFinite = true ∧ |value d| = largest ∧ (twoSum c d).2.isFinite = false := by
  intro a b c d
  obtain ⟨hexact, hsteps⟩ := twoSum_exact (a := a) (b := b) (by decide +kernel) (by decide +kernel)
  have hfinite : FiniteSteps a b :=
    hsteps (by decide +kernel) fun h => absurd h (by decide +kernel)
  obtain ⟨-, -, -, -, hadd, hzero⟩ := hexact hfinite
  refine ⟨⟨hfinite, by decide +kernel, by decide +kernel, by decide +kernel, hadd, ?_⟩,
    by decide +kernel, by decide +kernel, by decide +kernel⟩
  exact mt hzero.2 (by decide +kernel)

end ExactSphere.ErrorFree
