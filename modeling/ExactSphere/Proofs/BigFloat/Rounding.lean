import ExactSphere.BigFloat.Rounding
import ExactSphere.Proofs.BigFloat.Arithmetic
import ExactSphere.Proofs.BigFloat.Checked
import ExactSphere.Proofs.Rounding.Digits

/-!
# Rounding to a unit and to a precision

A shift that discards low bits divides by a power of two, so that a rounded value is the number
that the mode picks among the multiples of the unit. This number has no more bits than the value and
does not underflow, but it may reach the end of the exponent range (`holds_roundTo`).
-/

namespace ExactSphere

theorem bitLength_mono {m n : ℕ} (h : m ≤ n) : bitLength m ≤ bitLength n :=
  bitLength_le_iff.2 (h.trans_lt (lt_two_pow_bitLength n))

/-! ## Discarded bits -/

/-- The low bits of a number are the remainder of a division by a power of two. -/
theorem Discarded.ofLowBits_eq_ofRemainder (m k : ℕ) :
    ofLowBits m k = ofRemainder (m % 2 ^ k) (2 ^ k) := by
  have hlow : m - ((m >>> k) <<< k) = m % 2 ^ k := by
    rw [Nat.shiftRight_eq_div_pow, Nat.shiftLeft_eq, Nat.mul_comm]
    have := Nat.div_add_mod m (2 ^ k)
    omega
  have hlt : m % 2 ^ k < 2 ^ k := Nat.mod_lt m (by positivity)
  unfold ofLowBits ofRemainder
  rw [hlow]
  dsimp only
  generalize m % 2 ^ k = low at hlt
  by_cases hzero : low = 0
  · rw [if_pos hzero, if_pos hzero]
  obtain ⟨j, rfl⟩ : ∃ j, k = j + 1 := Nat.exists_eq_succ_of_ne_zero (by rintro rfl; omega)
  have hbelow : bitLength low < j + 1 ↔ 2 * low < 2 ^ (j + 1) := by
    rw [Nat.lt_succ_iff, bitLength_le_iff, pow_succ]
    omega
  have hhalf : low = 1 <<< (j + 1 - 1) ↔ 2 * low = 2 ^ (j + 1) := by
    rw [Nat.add_sub_cancel, Nat.one_shiftLeft, pow_succ]
    omega
  simp only [hzero, if_false, hbelow, hhalf]

namespace RoundingMode

theorem shiftRight_eq_divide (mode : RoundingMode) (s : Bool) (m k : ℕ) :
    mode.shiftRight s m k = mode.divide s m (2 ^ k) := by
  rw [shiftRight, divide, Discarded.ofLowBits_eq_ofRemainder, Nat.shiftRight_eq_div_pow]

/-- A mantissa with a sign in front of it is rounded by its low bits. -/
theorem signedInt_shiftRight (mode : RoundingMode) (s : Bool) (m k : ℕ) :
    signedInt s (mode.shiftRight s m k) = mode.integer (signedInt s m / 2 ^ k) := by
  rw [shiftRight_eq_divide, signedInt_divide mode s m (by positivity), Nat.cast_pow,
    Nat.cast_ofNat]

variable (mode : RoundingMode) (s : Bool) {m k : ℕ}

/-- A mantissa does not grow when it is shifted, since the carry takes at most the place of a bit
that is discarded. -/
theorem shiftRight_le_self (hm : m ≠ 0) (hk : k ≠ 0) : mode.shiftRight s m k ≤ m := by
  have hle := BigFloat.shiftRight_le mode s m k
  have htwo : 2 ^ 1 ≤ 2 ^ k := Nat.pow_le_pow_right two_pos (by omega)
  have hdiv : m / 2 ^ k ≤ m / 2 := Nat.div_le_div_left htwo two_pos
  omega

theorem bitLength_le_shiftRight (m k : ℕ) :
    bitLength m ≤ bitLength (mode.shiftRight s m k) + k := by
  have hkept : m / 2 ^ k ≤ mode.shiftRight s m k := by
    unfold shiftRight
    rw [Nat.shiftRight_eq_div_pow]
    dsimp only
    split_ifs <;> omega
  rw [bitLength_le_iff, pow_add, ← Nat.div_lt_iff_lt_mul (by positivity)]
  exact hkept.trans_lt (lt_two_pow_bitLength _)

end RoundingMode

/-- A number in units of a larger power of two. -/
theorem mul_zpow_div_zpow (n : ℤ) {e unit : ℤ} (h : e ≤ unit) :
    (n * 2 ^ e / 2 ^ unit : ℚ) = n / 2 ^ (unit - e).toNat := by
  rw [div_eq_div_iff (by positivity) (by positivity), mul_assoc, ← zpow_natCast,
    ← zpow_add₀ two_ne_zero, Int.toNat_of_nonneg (by omega), add_sub_cancel]

namespace BigFloat

/-! ## Rounded values -/

/-- `z` holds the number `w`: a zero of the sign `s`, an infinity of this sign for a number beyond
the exponent range, or the number itself. -/
structure Holds (s : Bool) (w : ℚ) (z : BigFloat) : Prop where
  zero : w = 0 → z = BigFloat.zero s
  infinity : 2 ^ maxExponent ≤ |w| → z = BigFloat.infinity s
  finite : w ≠ 0 → |w| < 2 ^ maxExponent → z.isNormal = true ∧ z.Canonical ∧ z.value = w

variable {x : BigFloat} {mode : RoundingMode} {s : Bool} {m n : ℕ} {e unit : ℤ}

/-- A normal value holds its own number. -/
theorem Holds.self (hx : x.Canonical) (hnormal : x.isNormal = true) :
    Holds x.negative x.value x := by
  obtain ⟨s, m, e, rfl⟩ := exists_of_isNormal hnormal
  have hexponent := HasExponent.signedInt hx.mantissa_ne_zero s e
  refine ⟨fun hzero => absurd hzero hexponent.ne_zero, fun hlarge => ?_, fun _ _ => ⟨rfl, hx, rfl⟩⟩
  have hlt := (zpow_lt_zpow_iff_right₀ one_lt_two).1 (hlarge.trans_lt hexponent.lt)
  exact absurd hx.2.2.1 (not_le.2 hlt)

/-- Parts that do not underflow and fit the precision hold their number. -/
theorem holds_ofParts (hmin : n ≠ 0 → minExponent ≤ e + bitLength n)
    (hprecision : bitLength n ≤ maxPrecision) (s : Bool) :
    Holds s (signedInt s n * 2 ^ e) (ofParts s n e) := by
  by_cases hn : n = 0
  · subst hn
    have hpos : (0 : ℚ) < 2 ^ maxExponent := by positivity
    rw [signedInt_zero, Int.cast_zero, zero_mul]
    exact ⟨fun _ => rfl, fun hlarge => absurd (abs_zero (α := ℚ) ▸ hlarge) hpos.not_ge,
      fun hne => absurd rfl hne⟩
  have hexponent := HasExponent.signedInt hn s e
  have hsettles := settles_ofParts hn s e
  refine ⟨fun hzero => absurd hzero hexponent.ne_zero, fun hlarge => ?_, fun _ hlt => ?_⟩
  · have hmax := (zpow_lt_zpow_iff_right₀ one_lt_two).1 (hlarge.trans_lt hexponent.lt)
    rw [hsettles.overflow _ hexponent hmax, signedInt_mul_zpow_lt_zero hn]
  · exact hsettles.exact _ hexponent (hmin hn) (hexponent.le_of_lt hlt)
      (fitsBits_signedInt hprecision s e)

/-- A rounded value holds the number that its quotient by the unit is rounded to. -/
theorem holds_roundTo (hx : x.Canonical) (hnormal : x.isNormal = true) (unit : ℤ)
    (mode : RoundingMode) :
    Holds x.negative (mode.integer (x.value / 2 ^ unit) * 2 ^ unit) (x.roundTo unit mode) := by
  obtain ⟨s, m, e, rfl⟩ := exists_of_isNormal hnormal
  obtain ⟨-, hmin, -, hprecision⟩ := id hx
  change Holds s (mode.integer (signedInt s m * 2 ^ e / 2 ^ unit) * 2 ^ unit)
    (if unit ≤ e then _ else ofParts s _ unit)
  split_ifs with hunit
  · have hmultiple : Multiple (2 ^ unit) (signedInt s m * 2 ^ e) :=
      multiple_zpow two_ne_zero hunit _
    rw [RoundingMode.integer_div_mul (zpow_pos two_pos unit) mode hmultiple]
    exact Holds.self hx hnormal
  · have hlength := RoundingMode.bitLength_le_shiftRight mode s m (unit - e).toNat
    have hle := RoundingMode.shiftRight_le_self mode s hx.mantissa_ne_zero
      (show (unit - e).toNat ≠ 0 by omega)
    rw [mul_zpow_div_zpow _ (by omega), ← RoundingMode.signedInt_shiftRight]
    exact holds_ofParts (fun _ => by omega) ((bitLength_mono hle).trans hprecision) s

/-! ## Rounding to a precision -/

/-- `w` has an even mantissa of `p` bits. -/
def EvenMantissa (p : ℕ) (w : ℚ) : Prop :=
  ∃ n f : ℤ, 2 ^ (p - 1) ≤ |n| ∧ |n| < 2 ^ p ∧ Even n ∧ w = n * 2 ^ f

theorem fitsDigits_two (p : ℕ) : FitsDigits 2 p = FitsBits p := by
  ext w
  unfold FitsDigits FitsBits
  simp only [Nat.cast_ofNat]

/-- An even multiple of the last place has an even mantissa, even after a carry. -/
theorem evenMantissa_of_multiple {p : ℕ} {n f : ℤ} (hp : 2 ≤ p) (hlow : 2 ^ (p - 1) ≤ |n|)
    (hhigh : |n| ≤ 2 ^ p) (h : Multiple (2 * 2 ^ f) (n * 2 ^ f)) :
    EvenMantissa p (n * 2 ^ f) := by
  rcases hhigh.lt_or_eq with hlt | hcarry
  · have heven := (RoundingMode.multiple_two_mul_iff (zpow_pos two_pos f)).1 h
    exact ⟨n, f, hlow, hlt, even_iff_two_dvd.2 heven, rfl⟩
  · obtain ⟨q, rfl⟩ : ∃ q, p = q + 2 := ⟨p - 2, by omega⟩
    obtain ⟨c, hc, rfl⟩ : ∃ c : ℤ, |c| = 1 ∧ n = c * 2 ^ (q + 2) := by
      rcases (abs_eq (by positivity)).1 hcarry with rfl | rfl
      · exact ⟨1, abs_one, (one_mul _).symm⟩
      · exact ⟨-1, by simp, (neg_one_mul _).symm⟩
    have habs : |c * 2 ^ (q + 1)| = 2 ^ (q + 1) := by
      rw [abs_mul, hc, one_mul]
      exact abs_of_pos (by positivity)
    refine ⟨c * 2 ^ (q + 1), f + 1, habs.ge, ?_, ⟨c * 2 ^ q, by ring⟩, ?_⟩
    · exact habs.trans_lt (pow_lt_pow_right₀ one_lt_two (Nat.lt_succ_self _))
    · rw [zpow_add_one₀ two_ne_zero]
      push_cast
      ring

theorem lastPlace_signedInt {p : ℕ} (hm : m ≠ 0) (hbits : unit + p = e + bitLength m) (s : Bool) :
    LastPlace 2 p unit (signedInt s m * 2 ^ e) := by
  refine ⟨?_, ?_⟩
  · rw [hbits]
    exact_mod_cast zpow_le_abs_signedInt hm s e
  · rw [hbits]
    exact_mod_cast abs_signedInt_lt_zpow s m e

/-- Among the numbers of `p` bits, a mode picks the rounded multiple of the last place. -/
theorem picks_bits {p : ℕ} {v : ℚ} (hp : 2 ≤ p) (hv : LastPlace 2 p unit v) (mode : RoundingMode) :
    mode.Picks (FitsBits p) (EvenMantissa p) v (mode.integer (v / 2 ^ unit) * 2 ^ unit) := by
  have hpicks := RoundingMode.picks_digits one_lt_two (by omega) hv mode
  have hlow := RoundingMode.le_abs_integer mode (hv.le_abs_div two_ne_zero (by omega))
  have hhigh := RoundingMode.abs_integer_le mode (hv.abs_div_lt two_ne_zero).le
  rw [fitsDigits_two, Nat.cast_ofNat] at hpicks
  exact hpicks.imp (evenMantissa_of_multiple hp (by exact_mod_cast hlow) (by exact_mod_cast hhigh))

/-- Rounding to a precision picks among the numbers of that many bits; a value that fits is kept. -/
theorem exists_picks_roundToPrecision {bits : ℕ} (hx : x.Canonical) (hnormal : x.isNormal = true)
    (hmin : 2 ≤ bits) (hmax : bits ≤ maxPrecision) (mode : RoundingMode) :
    ∃ z w, x.roundToPrecision bits mode = .ok z ∧ (FitsBits bits x.value → z = x) ∧
      mode.Picks (FitsBits bits) (EvenMantissa bits) x.value w ∧ Holds x.negative w z := by
  obtain ⟨s, m, e, rfl⟩ := exists_of_isNormal hnormal
  have hm := hx.mantissa_ne_zero
  have hfits : FitsBits bits (value ⟨s, .finite m e⟩) ↔ bitLength m ≤ bits :=
    fitsBits_iff_of_odd hx.1 s e bits
  rw [roundToPrecision, if_neg (by omega), if_neg (by omega)]
  dsimp only
  split_ifs with hnarrow
  · have hkept := hfits.2 (by exact_mod_cast hnarrow)
    exact ⟨_, _, rfl, fun _ => rfl, .self mode hkept, .self hx hnormal⟩
  · obtain ⟨hlow, hhigh⟩ := unit_of_narrower hx (by exact_mod_cast hmin) (not_le.1 hnarrow)
    refine ⟨_, _, roundToUnit_eq hlow hhigh _ mode, fun h => ?_, picks_bits hmin ?_ mode,
      holds_roundTo hx hnormal _ mode⟩
    · exact absurd (by exact_mod_cast hfits.1 h) hnarrow
    · exact lastPlace_signedInt hm (by ring) s

/-- A normal value is rounded to the number that the mode picks: among the multiples of a unit, or
among the numbers of at most so many bits, where a value that has no more of them is kept. A zero
has the sign of the value, and so has the infinity that stands for a number beyond the range. -/
theorem rounding_picks (hx : x.Canonical) (hnormal : x.isNormal = true) (mode : RoundingMode) :
    (∀ unit : ℤ, minExponent - maxPrecision ≤ unit → unit ≤ maxExponent →
      ∃ z w, x.roundToUnit unit mode = .ok z ∧
        mode.Picks (Multiple (2 ^ unit)) (Multiple (2 * 2 ^ unit)) x.value w ∧
        Holds x.negative w z) ∧
    ∀ bits : ℕ, 2 ≤ bits → bits ≤ maxPrecision →
      ∃ z w, x.roundToPrecision bits mode = .ok z ∧ z.precision ≤ bits ∧
        (FitsBits bits x.value → z = x) ∧
        mode.Picks (FitsBits bits) (EvenMantissa bits) x.value w ∧ Holds x.negative w z := by
  constructor
  · intro unit hmin hmax
    exact ⟨_, _, roundToUnit_eq hmin hmax x mode,
      RoundingMode.picks_multiple (zpow_pos two_pos unit) mode _,
      holds_roundTo hx hnormal unit mode⟩
  · intro bits hmin hmax
    obtain ⟨z, w, hz, hfits, hpicks, hholds⟩ :=
      exists_picks_roundToPrecision hx hnormal hmin hmax mode
    exact ⟨z, w, hz, by exact_mod_cast precision_le_of_roundToPrecision hz, hfits, hpicks, hholds⟩

/-- Toward positive infinity, one is rounded to an infinity if the unit is beyond the range, and a
quarter below zero to the negative zero; three eighths fit two bits. -/
theorem rounding_picks_ends :
    roundToUnit ⟨false, .finite 1 0⟩ maxExponent .towardPositive = .ok (infinity false) ∧
      roundToUnit ⟨true, .finite 1 (-2)⟩ 0 .towardPositive = .ok (zero true) ∧
      roundToPrecision ⟨false, .finite 3 (-3)⟩ 2 .tiesEven = .ok ⟨false, .finite 3 (-3)⟩ := by
  have hone : Canonical ⟨false, .finite 1 0⟩ := by unfold Canonical; decide
  have hquarter : Canonical ⟨true, .finite 1 (-2)⟩ := by unfold Canonical; decide
  have heighths : Canonical ⟨false, .finite 3 (-3)⟩ := by unfold Canonical; decide
  refine ⟨?_, ?_, ?_⟩
  · obtain ⟨z, w, hz, ⟨⟨⟨n, rfl⟩, habove⟩, -⟩, hholds⟩ :=
      (rounding_picks hone rfl .towardPositive).1 maxExponent (by decide) le_rfl
    have hpos : (0 : ℚ) < 2 ^ maxExponent := by positivity
    have hvalue : value ⟨false, .finite 1 0⟩ = 1 := by simp [value, signedInt]
    have hne : n ≠ 0 := by
      rintro rfl
      norm_num [hvalue] at habove
    have hle : (1 : ℚ) ≤ |(n : ℚ)| := by exact_mod_cast Int.one_le_abs hne
    rw [hz, hholds.infinity]
    rw [abs_mul, abs_of_pos hpos]
    exact le_mul_of_one_le_left hpos.le hle
  · obtain ⟨z, w, hz, hpicks, hholds⟩ :=
      (rounding_picks hquarter rfl .towardPositive).1 0 (by decide) (by decide)
    have hvalue : value ⟨true, .finite 1 (-2)⟩ / 2 ^ (0 : ℤ) = -1 / 4 := by
      norm_num [value, signedInt]
    have hceil : RoundingMode.towardPositive.integer (-1 / 4) = 0 :=
      Int.ceil_eq_iff.2 (by norm_num)
    rw [RoundingMode.picks_multiple_iff (zpow_pos two_pos 0), hvalue, hceil, Int.cast_zero,
      zero_mul] at hpicks
    rw [hz, hholds.zero hpicks]
  · obtain ⟨z, w, hz, -, hfits, -⟩ := (rounding_picks heighths rfl .tiesEven).2 2 le_rfl
      (by decide)
    rw [show (2 : ℤ) = (2 : ℕ) by rfl, hz, hfits ⟨3, -3, by norm_num, rfl⟩]

end BigFloat
end ExactSphere
