import ExactSphere.Proofs.DoubleWord
import ExactSphere.Proofs.Expression

/-!
# Reduced double-words

Of all pairs of doubles with one sum, a double-word is the one whose high word is the rounded sum
(`Reduced`). The operations of the library preserve this as long as nothing overflows, with the
error bounds that tracked numbers count on (`arithmetic_accurate`), so whole formulas do as well
(`reduced_compute`). Operations on numbers up to `2 ^ 500` never overflow. Since rounding is
monotone and a tie has one outcome, the words of reduced pairs compare as their values do
(`words_faithful`).
-/

namespace ExactSphere.DoubleWord

open Binary64 ErrorFree

/-- The exact sum of the words. -/
def value (a : DoubleWord) : ℚ := Binary64.value a.hi + Binary64.value a.lo

/-- Both words are finite, and the high one is their rounded sum. -/
structure Reduced (a : DoubleWord) : Prop where
  hi : a.hi.isFinite = true
  lo : a.lo.isFinite = true
  rounded : (a.hi == a.toFloat) = true

variable {a b : DoubleWord} {x y r : ℚ}

instance (a : DoubleWord) : Decidable a.Reduced :=
  decidable_of_iff (a.hi.isFinite = true ∧ a.lo.isFinite = true ∧ (a.hi == a.toFloat) = true)
    ⟨fun ⟨hhi, hlo, hrounded⟩ => ⟨hhi, hlo, hrounded⟩, fun h => ⟨h.hi, h.lo, h.rounded⟩⟩

/-! ## Reduced pairs and numbers -/

theorem IsNumber.value_eq (h : a.IsNumber x) : a.value = x := by
  rw [value, value_of_datum h.hi, value_of_datum h.lo, add_sub_cancel]

theorem IsNumber.reduced (h : a.IsNumber x) : a.Reduced where
  hi := isFinite_of_datum h.hi
  lo := isFinite_of_datum h.lo
  rounded := by
    have hsum := datum_add_of_lt h.hi h.lo (by
      rw [add_sub_cancel]
      exact abs_lt_of_datum h.hi)
    rw [add_sub_cancel] at hsum
    rw [beq_iff_datum_eq, toFloat, hsum, h.hi]
    exact ⟨rfl, nofun⟩

theorem Reduced.isNumber (h : a.Reduced) : a.IsNumber a.value := by
  have hhi := isFinite_iff.1 h.hi
  have hlo := isFinite_iff.1 h.lo
  obtain ⟨hrounded, -⟩ := (beq_iff_datum_eq _ _).1 h.rounded
  rw [hhi, toFloat, datum_add, hhi, hlo, Datum.add_number] at hrounded
  obtain ⟨-, hnearest⟩ := Datum.round_eq_number_iff.1 hrounded.symm
  rw [← value] at hnearest
  refine ⟨by rw [hhi, hnearest], ?_⟩
  rw [hlo, ← hnearest, value, add_sub_cancel_left]

/-! ## Range -/

section Range

/-- Nothing overflows to an infinity unless the exact result is huge. -/
theorem Outcome.isFinite {P : ℚ → Prop} (h : Outcome r P a) (hr : |r| < 2 ^ (1022 : ℤ)) :
    a.hi.isFinite = true := by
  cases h with
  | number h => exact isFinite_of_datum h.hi
  | overflow _ hlarge => exact absurd hlarge hr.not_ge

/-- The words of a number are not larger than a power of two that bounds it. -/
theorem IsNumber.abs_words_le (h : a.IsNumber x) {k : ℤ} (hk : -1074 ≤ k) (hx : |x| ≤ 2 ^ k) :
    |nearest x| ≤ 2 ^ k ∧ |x - nearest x| ≤ 2 ^ k := by
  refine ⟨abs_nearest_le_zpow hk hx, (h.abs_lo_le.trans ?_).trans hx⟩
  exact mul_le_of_le_one_left (abs_nonneg x) (zpow_le_one_of_nonpos₀ one_le_two (by norm_num))

variable (ha : a.IsNumber x) (hb : b.IsNumber y) (hx : |x| ≤ 2 ^ (500 : ℤ))
  (hy : |y| ≤ 2 ^ (500 : ℤ))

include ha hb hx hy

theorem isFinite_add : (a + b).hi.isFinite = true := by
  obtain ⟨hxh, hxl⟩ := ha.abs_words_le (by norm_num) hx
  obtain ⟨hyh, hyl⟩ := hb.abs_words_le (by norm_num) hy
  rcases add_spec ha.normalised hb.normalised with hnan | ⟨x', y', hx', hy', h⟩
  · -- the three terms of the high word are numbers
    have hs := nearest_add_le_zpow (by norm_num) hxh hyh
    have ht := nearest_add_le_zpow (by norm_num) hxl hyl
    obtain ⟨hhigh₁, hhigh₂⟩ := datum_twoSum ha.hi hb.hi (lt_zpow_of_le hs (by norm_num))
      (lt_largest_of_le hyh (by norm_num))
    obtain ⟨hlow₁, hlow₂⟩ := datum_twoSum ha.lo hb.lo (lt_zpow_of_le ht (by norm_num))
      (lt_largest_of_le hyl (by norm_num))
    have herror := (abs_nearest_add_sub_le_right (representable_of_datum ha.hi)).trans hyh
    rw [abs_sub_comm] at herror
    have hc := nearest_add_le_zpow (by norm_num) (le_zpow_of_le herror (by norm_num)) ht
    have hcarry := datum_add_of_lt hhigh₂ hlow₁ (lt_zpow_of_le hc (by norm_num))
    have hs' := nearest_add_le_zpow (by norm_num) (le_zpow_of_le hs (by norm_num)) hc
    obtain ⟨hsum₁, hsum₂⟩ := datum_twoSum hhigh₁ hcarry (lt_zpow_of_le hs' (by norm_num))
      (lt_largest_of_le hc (by norm_num))
    change datum ((twoSum (twoSum a.hi b.hi).1 ((twoSum a.hi b.hi).2 + (twoSum a.lo b.lo).1)).1 +
      ((twoSum a.lo b.lo).2 +
        (twoSum (twoSum a.hi b.hi).1 ((twoSum a.hi b.hi).2 + (twoSum a.lo b.lo).1)).2)) = _ at hnan
    rw [datum_add, datum_add, hsum₁, hlow₂, hsum₂] at hnan
    exact absurd hnan (Datum.number_add_ne_nan (Datum.number_add_ne_nan nofun))
  · rw [hx'.unique ha, hy'.unique hb] at h
    refine h.isFinite (((abs_add_le x y).trans (add_le_add hx hy)).trans_lt ?_)
    rw [← two_mul, ← zpow_one_add₀ two_ne_zero]
    exact zpow_lt_zpow_right₀ one_lt_two (by norm_num)

theorem isFinite_mul : (a * b).hi.isFinite = true := by
  obtain ⟨hxh, hxl⟩ := ha.abs_words_le (by norm_num) hx
  obtain ⟨hyh, hyl⟩ := hb.abs_words_le (by norm_num) hy
  rcases mul_spec ha.normalised hb.normalised with hnan | ⟨x', y', hx', hy', h⟩
  · have hlt := lt_zpow_of_le (j := 1024)
      (abs_nearest_le_zpow (by norm_num) (abs_mul_le_zpow_add hxh hyh)) (by norm_num)
    have hproduct := datum_mul_of_lt ha.hi hb.hi hlt
    obtain ⟨r, hr⟩ := exists_twoProduct_of_lt ha.hi hb.hi (le_zpow_of_le hxh (by norm_num))
      (le_zpow_of_le hyh (by norm_num))
      (lt_zpow_of_le (abs_mul_le_zpow_add hxh hyh) (by norm_num))
    obtain ⟨hcrossed, -⟩ := datum_crossed ha hb (factors_of_lt ha.onGrid hb.onGrid hlt)
    change datum (a.hi * b.hi + ((twoProduct a.hi b.hi).2 + (a.hi * b.lo + a.lo * b.hi))) = _
      at hnan
    rw [datum_add, datum_add, hproduct, hr, hcrossed] at hnan
    exact absurd hnan (Datum.number_add_ne_nan (Datum.number_add_ne_nan nofun))
  · rw [hx'.unique ha, hy'.unique hb] at h
    exact h.isFinite (lt_zpow_of_le (abs_mul_le_zpow_add hx hy) (by norm_num))

end Range

/-! ## Accuracy -/

/-- A result with a finite high word is reduced, and overflowed at no step. -/
theorem Outcome.of_finite {P : ℚ → Prop} (h : Outcome r P a) (hfinite : a.hi.isFinite = true) :
    a.Reduced ∧ P a.value := by
  cases h with
  | number h hP =>
    rw [h.value_eq]
    exact ⟨h.reduced, hP⟩
  | overflow h => cases h.symm.trans (isFinite_iff.1 hfinite)

theorem not_finite_of_nan (h : datum a.hi = .nan) : ¬a.hi.isFinite = true := fun hfinite => by
  cases h.symm.trans (isFinite_iff.1 hfinite)

theorem value_neg (a : DoubleWord) : (-a).value = -a.value := by
  rw [value, neg_hi, neg_lo, Binary64.value_neg, Binary64.value_neg, value]
  ring

theorem Reduced.neg (ha : a.Reduced) : (-a).Reduced := ha.isNumber.neg.reduced

theorem Reduced.add (ha : a.Reduced) (hb : b.Reduced) (hfinite : (a + b).hi.isFinite = true) :
    (a + b).Reduced ∧
      |(a + b).value - (a.value + b.value)| ≤ 2 ^ (-103 : ℤ) * |a.value + b.value| := by
  rcases add_spec ha.isNumber.normalised hb.isNumber.normalised with hnan | ⟨x, y, hx, hy, h⟩
  · exact absurd hfinite (not_finite_of_nan hnan)
  · rw [hx.value_eq, hy.value_eq]
    exact h.of_finite hfinite

theorem Reduced.mul (ha : a.Reduced) (hb : b.Reduced) (hfinite : (a * b).hi.isFinite = true) :
    (a * b).Reduced ∧ |(a * b).value - a.value * b.value| ≤ productError (a.value * b.value) := by
  rcases mul_spec ha.isNumber.normalised hb.isNumber.normalised with hnan | ⟨x, y, hx, hy, h⟩
  · exact absurd hfinite (not_finite_of_nan hnan)
  · rw [hx.value_eq, hy.value_eq]
    obtain ⟨hreduced, hbound, -⟩ := h.of_finite hfinite
    exact ⟨hreduced, hbound⟩

/-- Sums and differences of reduced pairs have a relative error of at most `2 ^ -100`, also after
cancellation, and products have that of underflow besides. An overflow on the way leaves no finite
high word, and up to `2 ^ 500` there is none. -/
theorem arithmetic_accurate (ha : a.Reduced) (hb : b.Reduced) :
    ((a + b).hi.isFinite = true →
      |(a + b).value - (a.value + b.value)| ≤ 2 ^ (-100 : ℤ) * |a.value + b.value|) ∧
    ((a - b).hi.isFinite = true →
      |(a - b).value - (a.value - b.value)| ≤ 2 ^ (-100 : ℤ) * |a.value - b.value|) ∧
    ((a * b).hi.isFinite = true →
      |(a * b).value - a.value * b.value| ≤
        2 ^ (-100 : ℤ) * |a.value * b.value| + 2 ^ (-1060 : ℤ)) ∧
    (|a.value| ≤ 2 ^ (500 : ℤ) → |b.value| ≤ 2 ^ (500 : ℤ) →
      (a + b).hi.isFinite = true ∧ (a - b).hi.isFinite = true ∧ (a * b).hi.isFinite = true) := by
  have hsum : ∀ z : ℚ, 2 ^ (-103 : ℤ) * |z| ≤ 2 ^ (-100 : ℤ) * |z| := fun z =>
    mul_le_mul_of_nonneg_right (zpow_le_zpow_right₀ one_le_two (by norm_num)) (abs_nonneg z)
  refine ⟨fun hfinite => ?_, fun hfinite => ?_, fun hfinite => ?_, fun hale hble => ⟨?_, ?_, ?_⟩⟩
  · exact (ha.add hb hfinite).2.trans (hsum _)
  · have hbound := (ha.add hb.neg hfinite).2
    rw [value_neg, ← sub_eq_add_neg] at hbound
    exact hbound.trans (hsum _)
  · refine (ha.mul hb hfinite).2.trans (add_le_add ?_ ?_)
    · exact mul_le_mul_of_nonneg_right (zpow_le_zpow_right₀ one_le_two (by norm_num)) (abs_nonneg _)
    · exact zpow_le_zpow_right₀ one_le_two (by norm_num)
  · exact isFinite_add ha.isNumber hb.isNumber hale hble
  · refine isFinite_add ha.isNumber hb.neg.isNumber hale ?_
    rwa [value_neg, abs_neg]
  · exact isFinite_mul ha.isNumber hb.isNumber hale hble

/-- A sum that cancels all but the low words, and a product that is not exact. -/
theorem arithmetic_accurate_cancelling :
    let a : DoubleWord := ⟨1, .ofBits 0x3CA0000000000000⟩
    let b : DoubleWord := ⟨-1, .ofBits 0xBC90000000000000⟩
    a.Reduced ∧ b.Reduced ∧ a.value + b.value = 2 ^ (-54 : ℤ) ∧
      |(a + b).value - 2 ^ (-54 : ℤ)| ≤ 2 ^ (-154 : ℤ) ∧
      |(a - b).value - (a.value - b.value)| ≤ 2 ^ (-100 : ℤ) * |a.value - b.value| ∧
      (a * b).value ≠ a.value * b.value ∧
      |(a * b).value - a.value * b.value| ≤
        2 ^ (-100 : ℤ) * |a.value * b.value| + 2 ^ (-1060 : ℤ) := by
  intro a b
  have ha : a.Reduced := by decide +kernel
  have hb : b.Reduced := by decide +kernel
  have hvalue : a.value + b.value = 2 ^ (-54 : ℤ) := by decide +kernel
  obtain ⟨hsum, hdifference, hproduct, hrange⟩ := arithmetic_accurate ha hb
  obtain ⟨hfiniteSum, hfiniteDifference, hfiniteProduct⟩ :=
    hrange (by decide +kernel) (by decide +kernel)
  refine ⟨ha, hb, hvalue, ?_, hdifference hfiniteDifference, by decide +kernel,
    hproduct hfiniteProduct⟩
  rw [← hvalue]
  refine (hsum hfiniteSum).trans_eq ?_
  rw [hvalue, abs_of_pos (by positivity), ← zpow_add₀ two_ne_zero]
  norm_num

/-! ## Formulas -/

/-- The formula computed in double-words. -/
def compute : Expression → DoubleWord
  | .leaf x => ofFloat x
  | .add e f => compute e + compute f
  | .sub e f => compute e - compute f
  | .mul e f => compute e * compute f
  | .neg e => -compute e
  | .abs e => (compute e).abs

theorem normalised_compute (e : Expression) : (compute e).Normalised := by
  induction e with
  | leaf x => exact normalised_ofFloat x
  | add e f ihe ihf => exact ihe.add ihf
  | sub e f ihe ihf => exact ihe.add ihf.neg
  | mul e f ihe ihf => exact ihe.mul ihf
  | neg e ih => exact ih.neg
  | abs e ih => exact ih.abs

theorem reduced_compute (e : Expression) (hfinite : (compute e).hi.isFinite = true) :
    (compute e).Reduced := by
  obtain ⟨x, hx⟩ := normalised_compute e _ (isFinite_iff.1 hfinite)
  exact hx.reduced

/-! ## Comparison -/

theorem Reduced.beq_iff (ha : a.Reduced) (hb : b.Reduced) :
    (a == b) = true ↔ a.value = b.value := by
  change (a.hi == b.hi && a.lo == b.lo) = true ↔ _
  rw [Bool.and_eq_true, beq_of_finite ha.hi hb.hi, beq_of_finite ha.lo hb.lo]
  constructor
  · rintro ⟨hhi, hlo⟩
    rw [value, value, hhi, hlo]
  · intro h
    -- one value has one rounding, so the high words agree, and with them what is left
    have hhi : Binary64.value a.hi = Binary64.value b.hi := by
      rw [value_of_datum ha.isNumber.hi, value_of_datum hb.isNumber.hi, h]
    refine ⟨hhi, ?_⟩
    rwa [value, value, hhi, add_right_inj] at h

/-- The words of a formula are reduced if the high word is finite, which it is only if nothing
overflowed. The words of reduced pairs are compared, found equal and made positive as their exact
sums are. -/
theorem words_faithful :
    (∀ e : Expression, (compute e).hi.isFinite = true → (compute e).Reduced) ∧
    (∀ a b : DoubleWord, a.Reduced → b.Reduced →
      a.compare? b = some (compare a.value b.value) ∧
      ((a == b) = true ↔ a.value = b.value)) ∧
    (∀ a : DoubleWord, a.Reduced → a.abs.Reduced ∧ a.abs.value = |a.value|) := by
  refine ⟨reduced_compute, fun a b ha hb => ⟨?_, ?_⟩, fun a ha => ⟨?_, ?_⟩⟩
  · exact ha.isNumber.compare? hb.isNumber
  · exact ha.beq_iff hb
  · exact ha.isNumber.abs.reduced
  · exact ha.isNumber.abs.value_eq

/-- The midpoint between one and the next double, from below and from above, has the same words. Its
high word is the even one of the two. -/
theorem words_faithful_midpoint :
    let below : Expression := .add (.leaf 1) (.leaf (.ofBits 0x3CA0000000000000))
    let above : Expression :=
      .sub (.leaf (.ofBits 0x3FF0000000000001)) (.leaf (.ofBits 0x3CA0000000000000))
    (compute below).value = (compute above).value ∧ (compute below == compute above) = true ∧
      (compute below).compare? (compute above) = some .eq ∧
      (compute (.neg below)).abs.value = (compute below).value := by
  intro below above
  obtain ⟨hreduced, hwords, habs⟩ := words_faithful
  have hbelow := hreduced below (by decide +kernel)
  have habove := hreduced above (by decide +kernel)
  have hnegated := hreduced (.neg below) (by decide +kernel)
  have hvalue : (compute below).value = (compute above).value := by decide +kernel
  obtain ⟨horder, hequal⟩ := hwords _ _ hbelow habove
  refine ⟨hvalue, hequal.2 hvalue, ?_, ?_⟩
  · rw [horder, compare_eq_iff_eq.2 hvalue]
  · rw [(habs _ hnegated).2]
    decide +kernel

end ExactSphere.DoubleWord
