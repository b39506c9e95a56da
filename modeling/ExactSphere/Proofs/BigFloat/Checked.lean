import ExactSphere.BigFloat.Double
import ExactSphere.BigFloat.Order
import ExactSphere.BigFloat.Rounding
import ExactSphere.BigFloat.Scaling
import ExactSphere.Proofs.BigFloat.Words

/-!
# The words of scaling, rounding, comparison and conversion

The operations beside sums and products add and subtract exponents and bit counts too. Canonical
values leave room for all of these words, whatever the arguments, and the results are canonical.
-/

namespace ExactSphere.BigFloat

variable {x y : BigFloat} {s : Bool} {m n : ℕ} {e f unit : ℤ} {mode : RoundingMode}

/-! ## Comparison -/

/-- Whether words hold what a comparison computes: the upper ends of both values, and the shift
that aligns one with the other. -/
def comparisonFits (x y : BigFloat) : Bool :=
  match x.magnitude, y.magnitude with
  | .finite m e, .finite n f =>
    fitsWord (e + bitLength m) && fitsWord (f + bitLength n) && fitsWord (e - f) &&
      fitsWord (f - e)
  | _, _ => true

theorem comparisonFits_of_canonical (hx : x.Canonical) (hy : y.Canonical) :
    comparisonFits x y = true := by
  obtain ⟨s, _ | ⟨m, e⟩ | _ | _⟩ := x <;> obtain ⟨t, _ | ⟨n, f⟩ | _ | _⟩ := y
  case finite.finite =>
    have := hx.exponent_le
    have := hy.exponent_le
    simp only [comparisonFits, Bool.and_eq_true, fitsWord_iff]
    omega
  all_goals rfl

theorem maximum_eq_or (x y : BigFloat) : x.maximum y = x ∨ x.maximum y = y := by
  unfold maximum
  split_ifs <;> simp

theorem minimum_eq_or (x y : BigFloat) : x.minimum y = x ∨ x.minimum y = y := by
  unfold minimum
  split_ifs <;> simp

theorem canonical_maximum (hx : x.Canonical) (hy : y.Canonical) : (x.maximum y).Canonical := by
  rcases maximum_eq_or x y with h | h <;> rw [h] <;> assumption

theorem canonical_minimum (hx : x.Canonical) (hy : y.Canonical) : (x.minimum y).Canonical := by
  rcases minimum_eq_or x y with h | h <;> rw [h] <;> assumption

theorem canonical_positiveDifference (hx : x.Canonical) (hy : y.Canonical) :
    (x.positiveDifference y).Canonical := by
  unfold positiveDifference
  rcases x.compare? y with _ | _ | _ | _
  case some.gt => exact canonical_sub hx hy
  all_goals exact trivial

/-! ## Scaling -/

theorem ofParts_of_lt (s : Bool) (h : e + bitLength m < minExponent) :
    ofParts s m e = zero s := by
  rw [ofParts]
  split_ifs <;> rfl

theorem ofParts_of_gt (s : Bool) (hm : m ≠ 0) (h : maxExponent < e + bitLength m) :
    ofParts s m e = infinity s := by
  have hle : ¬e + bitLength m < minExponent := by
    unfold maxExponent at h
    unfold minExponent
    omega
  rw [ofParts, if_neg hm, if_neg hle, if_pos h]

/-- The part of a shift that matters for a value below `2 ^ top`: one that leads out of the
exponent range need not lead farther. -/
def clampedShift (top n : ℤ) : ℤ := max (minExponent - 1 - top) (min n (maxExponent + 1 - top))

/-- The bounded shift leads at most one place out of the exponent range. -/
theorem clampedShift_mem {top : ℤ} (hmin : minExponent ≤ top) (hmax : top ≤ maxExponent) (n : ℤ) :
    minExponent - 1 ≤ top + clampedShift top n ∧ top + clampedShift top n ≤ maxExponent + 1 := by
  unfold clampedShift
  omega

/-- A bounded shift scales as the whole one does. -/
theorem scale_eq_clamped (hm : m ≠ 0) (s : Bool) (e n : ℤ) :
    scale ⟨s, .finite m e⟩ n = ofParts s m (e + clampedShift (e + bitLength m) n) := by
  change ofParts s m (e + n) = _
  by_cases hlow : n < minExponent - 1 - (e + bitLength m)
  · rw [ofParts_of_lt s (by omega), ofParts_of_lt s]
    unfold clampedShift maxExponent minExponent at *
    omega
  by_cases hhigh : maxExponent + 1 - (e + bitLength m) < n
  · rw [ofParts_of_gt s hm (by omega), ofParts_of_gt s hm]
    unfold clampedShift
    omega
  · congr 2
    unfold clampedShift
    omega

/-- Whether words hold what scaling computes: the bounds of the shift, and the parts of the result
of the bounded shift. -/
def scaleFits (x : BigFloat) (n : ℤ) : Bool :=
  match x.magnitude with
  | .finite m e =>
    fitsWord (e + bitLength m) && fitsWord (minExponent - 1 - (e + bitLength m)) &&
      fitsWord (maxExponent + 1 - (e + bitLength m)) &&
      partsFit m (e + clampedShift (e + bitLength m) n)
  | _ => true

theorem scaleFits_of_canonical (hx : x.Canonical) (n : ℤ) : scaleFits x n = true := by
  obtain ⟨s, _ | ⟨m, e⟩ | _ | _⟩ := x
  case finite =>
    have := hx.exponent_le
    obtain ⟨hlow, hhigh⟩ := clampedShift_mem hx.2.1 hx.2.2.1 n
    unfold minExponent at hlow
    unfold maxExponent at hhigh
    dsimp only [scaleFits]
    rw [partsFit_of_le (by omega) (by omega) (by omega)]
    simp only [Bool.and_true, Bool.and_eq_true, fitsWord_iff, minExponent, maxExponent]
    omega
  all_goals rfl

theorem canonical_scale (hx : x.Canonical) (n : ℤ) : (x.scale n).Canonical := by
  obtain ⟨s, _ | ⟨m, e⟩ | _ | _⟩ := x
  case finite => exact canonical_ofParts s m _
  all_goals exact trivial

/-- Whether words hold what splitting computes: the exponent and its negation. -/
def splitFits (x : BigFloat) : Bool :=
  match x.exponent? with
  | some e => fitsWord e && fitsWord (-e) && scaleFits x (-e)
  | none => true

theorem splitFits_of_canonical (hx : x.Canonical) : splitFits x = true := by
  obtain ⟨s, _ | ⟨m, e⟩ | _ | _⟩ := x
  case finite =>
    have := hx.exponent_le
    change (fitsWord _ && fitsWord _ && scaleFits _ _) = true
    rw [scaleFits_of_canonical hx]
    simp only [Bool.and_true, Bool.and_eq_true, fitsWord_iff]
    omega
  all_goals rfl

theorem canonical_split (hx : x.Canonical) : x.split.1.Canonical := by
  unfold split
  split
  · exact canonical_scale hx _
  · exact hx

/-- Whether words hold what the exponent as a value computes. -/
def leadingExponentFits (x : BigFloat) : Bool :=
  match x.magnitude with
  | .finite m e =>
    fitsWord (e + bitLength m) && fitsWord (e + bitLength m - 1) &&
      partsFit (e + bitLength m - 1).natAbs 0
  | _ => true

theorem leadingExponentFits_of_canonical (hx : x.Canonical) : leadingExponentFits x = true := by
  obtain ⟨s, _ | ⟨m, e⟩ | _ | _⟩ := x
  case finite =>
    have := hx.exponent_le
    have hbits : bitLength (e + bitLength m - 1).natAbs ≤ 30 :=
      bitLength_le_iff.2 (by omega)
    dsimp only [leadingExponentFits]
    rw [partsFit_of_le (by omega) (by omega) (by omega)]
    simp only [Bool.and_true, Bool.and_eq_true, fitsWord_iff]
    omega
  all_goals rfl

theorem canonical_leadingExponentValue (hx : x.Canonical) : x.leadingExponentValue.Canonical := by
  obtain ⟨s, _ | ⟨m, e⟩ | _ | _⟩ := x
  case finite => exact canonical_ofParts _ _ _
  all_goals exact trivial

/-! ## Rounding -/

/-- Whether words hold what rounding to a unit computes: the parts of the rounded value. -/
def unitFits (x : BigFloat) (unit : ℤ) (mode : RoundingMode) : Bool :=
  match x.magnitude with
  | .finite m e =>
    fitsWord unit &&
      (unit ≤ e || partsFit (mode.shiftRight x.negative m (unit - e).toNat) unit)
  | _ => true

/-- Whether words hold what rounding to a precision computes: the excess of bits and the unit. -/
def precisionFits (x : BigFloat) (bits : ℤ) (mode : RoundingMode) : Bool :=
  match x.magnitude with
  | .finite m e =>
    fitsWord (bitLength m - bits) &&
      (bitLength m ≤ bits ||
        fitsWord (e + (bitLength m - bits)) && unitFits x (e + (bitLength m - bits)) mode)
  | _ => true

theorem shiftRight_le (mode : RoundingMode) (negative : Bool) (m k : ℕ) :
    mode.shiftRight negative m k ≤ m / 2 ^ k + 1 := by
  unfold RoundingMode.shiftRight
  rw [Nat.shiftRight_eq_div_pow]
  dsimp only
  split_ifs <;> omega

theorem bitLength_shiftRight_le (mode : RoundingMode) (negative : Bool) (m k : ℕ) :
    bitLength (mode.shiftRight negative m k) ≤ bitLength m + 1 := by
  have hle := shiftRight_le mode negative m k
  have hdiv := Nat.div_le_self m (2 ^ k)
  have hlt := lt_two_pow_bitLength m
  rw [bitLength_le_iff, Nat.pow_succ]
  omega

theorem unitFits_of_canonical (hx : x.Canonical) (hmin : minExponent - maxPrecision ≤ unit)
    (hmax : unit ≤ maxExponent) (mode : RoundingMode) : unitFits x unit mode = true := by
  obtain ⟨s, _ | ⟨m, e⟩ | _ | _⟩ := x
  case finite =>
    have := hx.exponent_le
    have hbits := bitLength_shiftRight_le mode s m (unit - e).toNat
    unfold minExponent maxPrecision at hmin
    unfold maxExponent at hmax
    dsimp only [unitFits]
    rw [partsFit_of_le (by omega) (by omega) (by omega)]
    simp only [Bool.or_true, Bool.and_true, fitsWord_iff]
    omega
  all_goals rfl

theorem canonical_roundTo (hx : x.Canonical) (unit : ℤ) (mode : RoundingMode) :
    (x.roundTo unit mode).Canonical := by
  obtain ⟨s, _ | ⟨m, e⟩ | _ | _⟩ := x
  case finite =>
    change (if unit ≤ e then _ else ofParts s _ unit).Canonical
    split_ifs
    · exact hx
    · exact canonical_ofParts _ _ _
  all_goals exact trivial

theorem canonical_roundToInteger (hx : x.Canonical) (mode : RoundingMode) :
    (x.roundToInteger mode).Canonical :=
  canonical_roundTo hx 0 mode

/-- A unit within the limits is one that values can have. -/
theorem roundToUnit_eq (hmin : minExponent - maxPrecision ≤ unit) (hmax : unit ≤ maxExponent)
    (x : BigFloat) (mode : RoundingMode) : x.roundToUnit unit mode = .ok (x.roundTo unit mode) := by
  rw [roundToUnit, if_neg (not_lt.2 hmin), if_neg (not_lt.2 hmax)]

/-- The unit of a narrower mantissa is one that values can have. -/
theorem unit_of_narrower {bits : ℤ} (hx : Canonical ⟨s, .finite m e⟩) (hbits : 2 ≤ bits)
    (hwide : bits < bitLength m) :
    minExponent - maxPrecision ≤ e + (bitLength m - bits) ∧
      e + (bitLength m - bits) ≤ maxExponent := by
  obtain ⟨-, hmin, hmax, hprecision⟩ := hx
  omega

theorem precisionFits_of_canonical {bits : ℤ} (hx : x.Canonical) (hmin : 2 ≤ bits)
    (hmax : bits ≤ maxPrecision) (mode : RoundingMode) : precisionFits x bits mode = true := by
  obtain ⟨s, _ | ⟨m, e⟩ | _ | _⟩ := x
  case finite =>
    have := hx.exponent_le
    unfold maxPrecision at hmax
    by_cases hwide : bits < bitLength m
    · obtain ⟨hlow, hhigh⟩ := unit_of_narrower hx hmin hwide
      dsimp only [precisionFits]
      rw [unitFits_of_canonical hx hlow hhigh]
      simp only [Bool.and_true, Bool.or_eq_true, Bool.and_eq_true, fitsWord_iff, decide_eq_true_eq]
      omega
    · simp only [precisionFits, Bool.and_eq_true, Bool.or_eq_true, fitsWord_iff, decide_eq_true_eq]
      omega
  all_goals rfl

/-- Rounding to a precision within the limits returns a value. -/
theorem exists_roundToPrecision {bits : ℤ} (hx : x.Canonical) (hmin : 2 ≤ bits)
    (hmax : bits ≤ maxPrecision) (mode : RoundingMode) :
    ∃ z, x.roundToPrecision bits mode = .ok z ∧ z.Canonical := by
  rw [roundToPrecision, if_neg (not_lt.2 hmin), if_neg (not_lt.2 hmax)]
  obtain ⟨s, _ | ⟨m, e⟩ | _ | _⟩ := x
  case finite =>
    dsimp only
    split_ifs with hnarrow
    · exact ⟨_, rfl, hx⟩
    · obtain ⟨hlow, hhigh⟩ := unit_of_narrower hx hmin (not_le.1 hnarrow)
      exact ⟨_, roundToUnit_eq hlow hhigh _ mode, canonical_roundTo hx _ mode⟩
  all_goals exact ⟨_, rfl, trivial⟩

/-! ## Conversion

A conversion to a double rounds to its precision, below the normal range to its last bit, and then
scales the mantissa by powers of two in two steps at most. A conversion to an integer rounds to one
and shifts the mantissa of what is small enough. -/

/-- Whether words hold what the rounding of the mantissa for a double computes. -/
def doubleRoundingFits (x : BigFloat) : Bool :=
  match x.exponent? with
  | some e =>
    fitsWord e &&
      if e ≤ Binary64.minExponent + Binary64.precision then
        unitFits x Binary64.minExponent .tiesEven
      else precisionFits x Binary64.precision .tiesEven
  | none => true

/-- Whether the mantissa is that of a double, and words hold the exponents of its scaling. -/
def doubleScalingFits (x : BigFloat) : Bool :=
  match x.magnitude with
  | .finite m e => bitLength m ≤ Binary64.precision && fitsWord (e - 2046) && fitsWord (e + 1938)
  | _ => true

/-- Whether words hold what the conversion to a 64-bit integer computes. -/
def integerFits (x : BigFloat) (mode : RoundingMode) : Bool :=
  unitFits x 0 mode &&
    match (x.roundToInteger mode).magnitude with
    | .finite m e =>
      fitsWord (e + bitLength m) &&
        (64 ≤ e + bitLength m || 0 ≤ e && e < 64 && m * 2 ^ e.toNat < 9223372036854775808)
    | _ => true

/-- A finite value keeps the odd part of its mantissa. -/
theorem ofParts_eq_or (s : Bool) (m : ℕ) (e : ℤ) :
    (ofParts s m e).isNormal = false ∨ m ≠ 0 ∧
      ofParts s m e = ⟨s, .finite (m >>> trailingZeros m) (e + trailingZeros m)⟩ := by
  by_cases hm : m = 0
  · exact .inl (by rw [ofParts, if_pos hm]; rfl)
  by_cases hlow : e + bitLength m < minExponent
  · exact .inl (by rw [ofParts_of_lt s hlow]; rfl)
  by_cases hhigh : maxExponent < e + bitLength m
  · exact .inl (by rw [ofParts_of_gt s hm hhigh]; rfl)
  rw [ofParts_of_le hm (not_lt.1 hlow) (not_lt.1 hhigh)]
  split_ifs
  · exact .inl rfl
  · exact .inr ⟨hm, rfl⟩

theorem precision_of_not_isNormal (h : x.isNormal = false) : x.precision = 0 := by
  obtain ⟨s, _ | ⟨m, e⟩ | _ | _⟩ := x
  case finite => cases h
  all_goals rfl

/-- The carry into a new leading bit leaves a one. -/
theorem precision_ofParts_le {k : ℕ} (hk : k ≠ 0) (hm : m ≤ 2 ^ k) (s : Bool) (e : ℤ) :
    (ofParts s m e).precision ≤ k := by
  rcases ofParts_eq_or s m e with hspecial | ⟨hzero, hparts⟩
  · rw [precision_of_not_isNormal hspecial]
    exact Nat.zero_le k
  · have hodd := (shiftRight_trailingZeros hzero).1
    have hle := (Nat.shiftRight_le m (trailingZeros m)).trans hm
    have hne : m >>> trailingZeros m ≠ 2 ^ k := by
      intro h
      rw [h, Nat.pow_mod] at hodd
      simp [hk] at hodd
    rw [hparts]
    exact bitLength_le_iff.2 (lt_of_le_of_ne hle hne)

theorem precision_roundTo_le {k : ℕ} (hk : k ≠ 0) (hm : bitLength m ≤ (unit - e).toNat + k)
    (s : Bool) (mode : RoundingMode) : (roundTo ⟨s, .finite m e⟩ unit mode).precision ≤ k := by
  change precision (if unit ≤ e then _ else ofParts s _ unit) ≤ k
  split_ifs with hunit
  · change bitLength m ≤ k
    omega
  · refine precision_ofParts_le hk ((shiftRight_le _ _ _ _).trans ?_) s unit
    have hlt := bitLength_le_iff.1 hm
    rw [pow_add] at hlt
    exact Nat.div_lt_of_lt_mul hlt

theorem negative_ofParts {s : Bool} (h : (ofParts s m e).isNaN = false) :
    (ofParts s m e).negative = s := by
  unfold ofParts at h ⊢
  dsimp only at h ⊢
  split_ifs at h ⊢
  all_goals first | rfl | cases h

/-- A rounded value keeps its sign. -/
theorem negative_roundTo (h : (x.roundTo unit mode).isNaN = false) :
    (x.roundTo unit mode).negative = x.negative := by
  obtain ⟨s, _ | ⟨n, f⟩ | _ | _⟩ := x
  case finite =>
    change (if unit ≤ f then _ else ofParts s _ unit).isNaN = false at h
    change (if unit ≤ f then _ else ofParts s _ unit).negative = s
    split_ifs at h ⊢
    · rfl
    · exact negative_ofParts h
  all_goals rfl

/-- A rounded value is a multiple of the unit. -/
theorem unit_le_of_roundTo {t : Bool} (h : x.roundTo unit mode = ⟨t, .finite m e⟩) : unit ≤ e := by
  obtain ⟨s, _ | ⟨n, f⟩ | _ | _⟩ := x
  case finite =>
    change (if unit ≤ f then _ else ofParts s _ unit) = _ at h
    split_ifs at h with hunit
    · cases h
      exact hunit
    · rcases ofParts_eq_or s (mode.shiftRight s n (unit - f).toNat) unit with
        hspecial | ⟨-, hparts⟩
      · rw [h] at hspecial
        cases hspecial
      · rw [hparts] at h
        cases h
        omega
  all_goals cases h

theorem integerFits_of_canonical (hx : x.Canonical) (mode : RoundingMode) :
    integerFits x mode = true := by
  have hrounded := canonical_roundToInteger hx mode
  rw [integerFits, unitFits_of_canonical hx (by decide) (by decide), Bool.true_and]
  cases hinteger : x.roundToInteger mode with
  | mk t magnitude =>
    cases magnitude with
    | finite m e =>
      rw [hinteger] at hrounded
      have := hrounded.exponent_le
      have hnonneg := unit_le_of_roundTo hinteger
      have hvalue : e + bitLength m < 64 → m * 2 ^ e.toNat < 9223372036854775808 := by
        intro hsmall
        calc m * 2 ^ e.toNat < 2 ^ bitLength m * 2 ^ e.toNat :=
              Nat.mul_lt_mul_of_pos_right (lt_two_pow_bitLength m) (by positivity)
          _ = 2 ^ (bitLength m + e.toNat) := (pow_add _ _ _).symm
          _ ≤ 2 ^ 63 := Nat.pow_le_pow_right two_pos (by omega)
      simp only [Bool.and_eq_true, Bool.or_eq_true, fitsWord_iff, decide_eq_true_eq]
      omega
    | zero | infinity | nan => rfl

/-- Rounding to a precision leaves no more bits than that. -/
theorem precision_le_of_roundToPrecision {bits : ℤ} {z : BigFloat}
    (h : x.roundToPrecision bits mode = .ok z) : (z.precision : ℤ) ≤ bits := by
  unfold roundToPrecision at h
  split_ifs at h with hmin hmax
  obtain ⟨k, rfl⟩ : ∃ k : ℕ, bits = k := ⟨bits.toNat, by omega⟩
  obtain ⟨s, _ | ⟨m, e⟩ | _ | _⟩ := x
  case neg.finite =>
    dsimp only at h
    split_ifs at h with hnarrow
    · cases h
      exact hnarrow
    · unfold roundToUnit at h
      split_ifs at h
      cases h
      have hle := precision_roundTo_le (by omega)
        (show bitLength m ≤ (e + (bitLength m - k) - e).toNat + k by omega) s mode
      exact_mod_cast hle
  all_goals
    cases h
    exact Int.natCast_nonneg k

theorem doubleScalingFits_of_canonical (hx : x.Canonical)
    (hprecision : x.precision ≤ Binary64.precision) : doubleScalingFits x = true := by
  obtain ⟨s, _ | ⟨m, e⟩ | _ | _⟩ := x
  case finite =>
    have := hx.exponent_le
    simp only [doubleScalingFits, Bool.and_eq_true, fitsWord_iff, decide_eq_true_eq]
    exact ⟨⟨hprecision, by omega⟩, by omega⟩
  all_goals rfl

theorem doubleRoundingFits_of_canonical (hx : x.Canonical) : doubleRoundingFits x = true := by
  obtain ⟨s, _ | ⟨m, e⟩ | _ | _⟩ := x
  case finite =>
    have := hx.exponent_le
    change (fitsWord (e + bitLength m) && if e + bitLength m ≤ _ then _ else _) = true
    rw [unitFits_of_canonical hx (by decide) (by decide),
      precisionFits_of_canonical hx (by decide) (by decide), ite_self, Bool.and_true, fitsWord_iff]
    omega
  all_goals rfl

/-- The conversion to a double rounds to one of its mantissas. -/
theorem exists_roundToDouble (hx : x.Canonical) :
    ∃ z, x.roundToDouble = .ok z ∧ doubleScalingFits z = true := by
  obtain ⟨s, _ | ⟨m, e⟩ | _ | _⟩ := x
  case finite =>
    change ∃ z, (if e + bitLength m ≤ _ then _ else _) = _ ∧ _
    split_ifs with hsmall
    · refine ⟨_, roundToUnit_eq (by decide) (by decide) _ _, ?_⟩
      have hbits : bitLength m ≤ (Binary64.minExponent - e).toNat + Binary64.precision := by omega
      exact doubleScalingFits_of_canonical (canonical_roundTo hx _ _)
        (precision_roundTo_le (by decide) hbits s _)
    · obtain ⟨z, hz, hcanonical⟩ := exists_roundToPrecision hx
        (show 2 ≤ (Binary64.precision : ℤ) by decide) (by decide) .tiesEven
      have hle := precision_le_of_roundToPrecision hz
      exact ⟨z, hz, doubleScalingFits_of_canonical hcanonical (by exact_mod_cast hle)⟩
  all_goals exact ⟨_, rfl, rfl⟩

end ExactSphere.BigFloat
