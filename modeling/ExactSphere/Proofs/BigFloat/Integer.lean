import ExactSphere.Proofs.BigFloat.Rounding

/-!
# Conversion to integers

A finite value is rounded once to an integer, which is then clamped to the range of the result
(`toIntClamped_eq`). The mantissa is only shifted if its bits fit the range, so that no word of the
conversion overflows, and the conversion can be made in words of 64 bits (`toInt64InWords_eq`).
-/

namespace ExactSphere.BigFloat

variable {x : BigFloat} {mode : RoundingMode} {n lo hi : ℤ} {k : ℕ}

/-! ## Clamping -/

/-- An integer of more bits than the ends of the range lies beyond the end on its side. -/
theorem clamp_of_large (hle : lo ≤ hi) (hlo : bitLength lo.natAbs ≤ k)
    (hhi : bitLength hi.natAbs ≤ k) (hlarge : 2 ^ k ≤ n.natAbs) :
    max lo (min hi n) = if n < 0 then lo else hi := by
  rw [bitLength_le_iff] at hlo hhi
  split_ifs <;> omega

theorem signedInt_lt_zero_iff {m : ℕ} (hm : m ≠ 0) (s : Bool) :
    signedInt s m < 0 ↔ s = true := by
  cases s with
  | false => simp [signedInt]
  | true =>
    simp only [signedInt, if_true, iff_true]
    omega

theorem integer_value_lt_zero_iff (h : mode.integer x.value ≠ 0) :
    mode.integer x.value < 0 ↔ x.negative = true := by
  cases hnegative : x.negative with
  | false =>
    have := RoundingMode.integer_nonneg mode (value_nonneg hnegative)
    simpa using this
  | true =>
    have := RoundingMode.integer_nonpos mode (value_nonpos hnegative)
    simp only [iff_true]
    omega

theorem signedInt_mul_zpow_of_nonneg (s : Bool) (m : ℕ) {e : ℤ} (he : 0 ≤ e) :
    (signedInt s m * 2 ^ e : ℚ) = signedInt s (m * 2 ^ e.toNat) := by
  rw [← Nat.shiftLeft_eq, signedInt_shiftLeft, ← Int.toNat_of_nonneg he, zpow_natCast]
  push_cast
  rfl

theorem negative_of_roundToInteger {s : Bool} {magnitude : Magnitude}
    (h : x.roundToInteger mode = ⟨s, magnitude⟩) (hnan : isNaN ⟨s, magnitude⟩ = false) :
    x.negative = s := by
  have hnegative : (x.roundToInteger mode).negative = x.negative :=
    negative_roundTo (show (x.roundToInteger mode).isNaN = false by rw [h, hnan])
  rw [← hnegative, h]

/-- A rounded value that is not zero is clamped, whether its mantissa is shifted or not. -/
theorem toIntClamped_of_finite {s : Bool} {m : ℕ} {e : ℤ}
    (h : x.roundToInteger mode = ⟨s, .finite m e⟩) (hm : m ≠ 0) (hle : lo ≤ hi) :
    x.toIntClamped mode lo hi = max lo (min hi (signedInt s (m * 2 ^ e.toNat))) := by
  have hnegative := negative_of_roundToInteger h rfl
  have he := unit_le_of_roundTo h
  unfold toIntClamped
  rw [h]
  dsimp only
  rw [hnegative, Nat.shiftLeft_eq]
  by_cases hlarge : (max (bitLength lo.natAbs) (bitLength hi.natAbs) : ℤ) < e + bitLength m
  · have hbits := bitLength_mul_two_pow hm e.toNat
    have hpower : 2 ^ max (bitLength lo.natAbs) (bitLength hi.natAbs) ≤ m * 2 ^ e.toNat := by
      rw [← not_lt, ← bitLength_le_iff]
      omega
    rw [if_pos (by exact_mod_cast hlarge), clamp_of_large hle (le_max_left _ _) (le_max_right _ _)
      (by rwa [signedInt_natAbs])]
    simp only [signedInt_lt_zero_iff (Nat.mul_ne_zero hm (pow_ne_zero _ two_ne_zero))]
  · rw [if_neg (by exact_mod_cast hlarge)]

/-- An infinity lies beyond the end of the range on its side. -/
theorem toIntClamped_of_infinity (h : x.roundToInteger mode = infinity x.negative)
    (hn : mode.integer x.value ≠ 0) (hle : lo ≤ hi) (hlo : bitLength lo.natAbs ≤ k)
    (hhi : bitLength hi.natAbs ≤ k) (hlarge : 2 ^ k ≤ (mode.integer x.value).natAbs) :
    x.toIntClamped mode lo hi = max lo (min hi (mode.integer x.value)) := by
  rw [clamp_of_large hle hlo hhi hlarge]
  unfold toIntClamped
  rw [h]
  simp only [integer_value_lt_zero_iff hn]
  rfl

/-- A finite value is rounded once and clamped to the range. -/
theorem toIntClamped_eq (hx : x.Canonical) (hfinite : x.isFinite = true) (hle : lo ≤ hi)
    (hlo : bitLength lo.natAbs ≤ maxExponent) (hhi : bitLength hi.natAbs ≤ maxExponent) :
    x.toIntClamped mode lo hi = max lo (min hi (mode.integer x.value)) := by
  cases hnormal : x.isNormal with
  | false =>
    have hzero : x.isZero = true := by simpa [isFinite, hnormal] using hfinite
    rw [eq_zero_of_isZero hzero]
    have hinteger : mode.integer (zero x.negative).value = 0 :=
      (RoundingMode.integer_intCast mode 0 :)
    rw [hinteger]
    rfl
  | true =>
    have hholds := holds_roundTo hx hnormal 0 mode
    rw [zpow_zero, div_one, mul_one] at hholds
    by_cases hzero : mode.integer x.value = 0
    · unfold toIntClamped roundToInteger
      rw [hholds.zero (by rw [hzero, Int.cast_zero]), hzero]
      rfl
    by_cases hlarge : (2 : ℚ) ^ maxExponent ≤ |(mode.integer x.value : ℚ)|
    · have hrounded := hholds.infinity hlarge
      obtain ⟨k, hk⟩ := Int.eq_ofNat_of_zero_le (show 0 ≤ maxExponent by decide)
      rw [hk] at hlo hhi hlarge
      have hpower : (2 ^ k : ℤ) ≤ |mode.integer x.value| := by exact_mod_cast hlarge
      rw [Int.abs_eq_natAbs] at hpower
      exact toIntClamped_of_infinity hrounded hzero hle (by exact_mod_cast hlo)
        (by exact_mod_cast hhi) (by exact_mod_cast hpower)
    · obtain ⟨hrounded, hcanonical, hvalue⟩ :=
        hholds.finite (by exact_mod_cast hzero) (not_le.1 hlarge)
      obtain ⟨s, m, e, hz⟩ := exists_of_isNormal hrounded
      rw [hz] at hcanonical hvalue
      have hinteger := signedInt_mul_zpow_of_nonneg s m (unit_le_of_roundTo hz)
      rw [toIntClamped_of_finite hz hcanonical.mantissa_ne_zero hle]
      congr 2
      exact_mod_cast hinteger.symm.trans hvalue

/-! ## Words -/

theorem toIntClamped_mem (x : BigFloat) (mode : RoundingMode) (hle : lo ≤ hi) :
    lo ≤ x.toIntClamped mode lo hi ∧ x.toIntClamped mode lo hi ≤ hi := by
  unfold toIntClamped
  dsimp only
  cases (x.roundToInteger mode).magnitude with
  | nan => exact ⟨hle, le_rfl⟩
  | zero => exact ⟨le_max_left _ _, max_le hle (min_le_left _ _)⟩
  | infinity =>
    dsimp only
    split_ifs
    · exact ⟨le_rfl, hle⟩
    · exact ⟨hle, le_rfl⟩
  | finite m e =>
    dsimp only
    split_ifs
    · exact ⟨le_rfl, hle⟩
    · exact ⟨hle, le_rfl⟩
    · exact ⟨le_max_left _ _, max_le hle (min_le_left _ _)⟩

theorem toInt_toInt64 (x : BigFloat) (mode : RoundingMode) :
    (x.toInt64 mode).toInt = x.toIntClamped mode (-2 ^ 63) (2 ^ 63 - 1) := by
  obtain ⟨hlo, hhi⟩ := x.toIntClamped_mem mode (show (-2 ^ 63 : ℤ) ≤ 2 ^ 63 - 1 by decide)
  exact Int64.toInt_ofInt_of_le hlo (hhi.trans_lt (by decide))

theorem toInt_toInt32 (x : BigFloat) (mode : RoundingMode) :
    (x.toInt32 mode).toInt = x.toIntClamped mode (-2 ^ 31) (2 ^ 31 - 1) := by
  obtain ⟨hlo, hhi⟩ := x.toIntClamped_mem mode (show (-2 ^ 31 : ℤ) ≤ 2 ^ 31 - 1 by decide)
  exact Int32.toInt_ofInt_of_le hlo (hhi.trans_lt (by decide))

/-! ## Conversion in words

The magnitude of a rounded value below `2 ^ 63` is shifted as an unsigned word, read as a signed
one and negated. Neither of these steps overflows (`integerFits_of_canonical`), so that the result
is the clamped integer. The narrower conversion clamps the wider one once more. -/

/-- The conversion to 64 bits in words. A mantissa that is too wide is taken for the largest
word. -/
def toInt64InWords (x : BigFloat) (mode : RoundingMode) : Int64 :=
  let rounded := x.roundToInteger mode
  let saturated := if rounded.negative then Int64.minValue else Int64.maxValue
  match rounded.magnitude with
  | .nan => Int64.maxValue
  | .zero => 0
  | .infinity => saturated
  | .finite mantissa exponent =>
    if exponent + bitLength mantissa < 64 then
      let word := UInt64.ofNat (min mantissa (2 ^ 64 - 1)) <<< UInt64.ofNat exponent.toNat
      if rounded.negative then -word.toInt64 else word.toInt64
    else saturated

/-- A word of 64 bits clamped to 32 bits. -/
def narrowed (word : Int64) : Int32 :=
  (if word < -2147483648 then -2147483648
    else if 2147483647 < word then 2147483647 else word).toInt32

/-- The conversion to 32 bits in words, from that to 64 bits. -/
def toInt32InWords (x : BigFloat) (mode : RoundingMode) : Int32 :=
  if x.isNaN then Int32.maxValue else narrowed (x.toInt64InWords mode)

theorem toInt_neg_of_lt {word : Int64} (hmin : 0 ≤ word.toInt) (hmax : word.toInt < 2 ^ 63) :
    (-word).toInt = -word.toInt := by
  rw [Int64.toInt_neg, Int.bmod_eq_of_le] <;> omega

/-- A magnitude that is shifted within a word with a bit to spare is the shifted one. -/
theorem toInt_shiftedWord {m k : ℕ} (hk : k < 64) (h : m * 2 ^ k < 2 ^ 63) :
    (UInt64.ofNat (min m (2 ^ 64 - 1)) <<< UInt64.ofNat k).toInt64.toInt = (m * 2 ^ k : ℕ) := by
  have hm : m ≤ m * 2 ^ k := Nat.le_mul_of_pos_right m (by positivity)
  have hword : (UInt64.ofNat (min m (2 ^ 64 - 1)) <<< UInt64.ofNat k).toNat = m * 2 ^ k := by
    rw [min_eq_left (by omega), UInt64.toNat_shiftLeft,
      UInt64.toNat_ofNat_of_lt' (show m < 2 ^ 64 by omega),
      UInt64.toNat_ofNat_of_lt' (show k < 2 ^ 64 by omega), Nat.mod_eq_of_lt hk, Nat.shiftLeft_eq,
      Nat.mod_eq_of_lt (by omega)]
  rw [toInt_toInt64_of_lt (by omega), hword]

/-- A mantissa of fewer than 64 bits is shifted into a word. Any other one lies beyond the end of
the range on its side. -/
theorem toInt64InWords_of_finite {s : Bool} {m : ℕ} {e : ℤ} (hx : x.Canonical)
    (h : x.roundToInteger mode = ⟨s, .finite m e⟩) (hm : m ≠ 0) :
    (x.toInt64InWords mode).toInt =
      max (-2 ^ 63) (min (2 ^ 63 - 1) (signedInt s (m * 2 ^ e.toNat))) := by
  have hfits := integerFits_of_canonical hx mode
  rw [integerFits, h, Bool.and_eq_true] at hfits
  unfold toInt64InWords
  rw [h]
  dsimp only
  by_cases hsmall : e + bitLength m < 64
  · simp only [Bool.and_eq_true, Bool.or_eq_true, decide_eq_true_eq] at hfits
    have hshifted := toInt_shiftedWord (m := m) (k := e.toNat) (by omega) (by omega)
    rw [if_pos hsmall]
    cases s with
    | false =>
      rw [if_neg Bool.false_ne_true, hshifted, signedInt, if_neg Bool.false_ne_true]
      omega
    | true =>
      rw [if_pos rfl, toInt_neg_of_lt (by omega) (by omega), hshifted, signedInt, if_pos rfl]
      omega
  · have hlarge : 2 ^ 63 ≤ m * 2 ^ e.toNat := by
      rw [← not_lt, ← bitLength_le_iff, bitLength_mul_two_pow hm]
      have := unit_le_of_roundTo h
      omega
    rw [if_neg hsmall]
    cases s with
    | false =>
      rw [if_neg Bool.false_ne_true, Int64.toInt_maxValue, signedInt, if_neg Bool.false_ne_true]
      omega
    | true =>
      rw [if_pos rfl, Int64.toInt_minValue, signedInt, if_pos rfl]
      omega

theorem toInt64InWords_eq (hx : x.Canonical) (mode : RoundingMode) :
    x.toInt64InWords mode = x.toInt64 mode := by
  have hrounded := canonical_roundToInteger hx mode
  rw [← Int64.toInt_inj, toInt_toInt64]
  cases hinteger : x.roundToInteger mode with
  | mk s magnitude =>
    cases magnitude with
    | nan | zero =>
      unfold toInt64InWords toIntClamped
      rw [hinteger]
      rfl
    | infinity =>
      unfold toInt64InWords toIntClamped
      rw [hinteger, negative_of_roundToInteger hinteger rfl]
      cases s <;> rfl
    | finite m e =>
      rw [hinteger] at hrounded
      rw [toInt64InWords_of_finite hx hinteger hrounded.mantissa_ne_zero,
        toIntClamped_of_finite hinteger hrounded.mantissa_ne_zero (by decide)]

theorem toInt_narrowed (word : Int64) :
    (narrowed word).toInt = max (-2 ^ 31) (min (2 ^ 31 - 1) word.toInt) := by
  have hlo : (-2147483648 : Int64).toInt = -2 ^ 31 := rfl
  have hhi : (2147483647 : Int64).toInt = 2 ^ 31 - 1 := rfl
  unfold narrowed
  rw [Int64.toInt_toInt32]
  simp only [Int64.lt_iff_toInt_lt, hlo, hhi]
  split_ifs with hbelow habove
  · rw [hlo, Int.bmod_eq_of_le (by decide) (by decide)]
    omega
  · rw [hhi, Int.bmod_eq_of_le (by decide) (by decide)]
    omega
  · rw [Int.bmod_eq_of_le (by omega) (by omega)]
    omega

/-- Clamping to 64 bits first does not change the clamp to 32 bits. -/
theorem toIntClamped_toIntClamped (hx : x.Canonical) (mode : RoundingMode) :
    max (-2 ^ 31) (min (2 ^ 31 - 1) (x.toIntClamped mode (-2 ^ 63) (2 ^ 63 - 1))) =
      x.toIntClamped mode (-2 ^ 31) (2 ^ 31 - 1) := by
  have hrounded := canonical_roundToInteger hx mode
  cases hinteger : x.roundToInteger mode with
  | mk s magnitude =>
    cases magnitude with
    | nan | zero =>
      unfold toIntClamped
      rw [hinteger]
      rfl
    | infinity =>
      unfold toIntClamped
      rw [hinteger]
      cases x.negative <;> rfl
    | finite m e =>
      rw [hinteger] at hrounded
      rw [toIntClamped_of_finite hinteger hrounded.mantissa_ne_zero (by decide),
        toIntClamped_of_finite hinteger hrounded.mantissa_ne_zero (by decide)]
      omega

theorem toInt32InWords_eq (hx : x.Canonical) (mode : RoundingMode) :
    x.toInt32InWords mode = x.toInt32 mode := by
  rw [← Int32.toInt_inj, toInt_toInt32]
  unfold toInt32InWords
  split_ifs with hnan
  · rw [eq_nan_of_isNaN hnan]
    rfl
  · rw [toInt_narrowed, toInt64InWords_eq hx, toInt_toInt64, toIntClamped_toIntClamped hx]

/-- A conversion to a 64-bit or a 32-bit integer rounds a finite value once, to the integer that the
mode picks, and clamps it to the range. Infinities become the end on their side and NaN the upper
end, and no word of the conversion overflows. -/
theorem toInt_clamps (hx : x.Canonical) (mode : RoundingMode) :
    integerFits x mode = true ∧
      (x.isNaN = true →
        (x.toInt64 mode).toInt = 2 ^ 63 - 1 ∧ (x.toInt32 mode).toInt = 2 ^ 31 - 1) ∧
      (x.isInfinite = true →
        (x.toInt64 mode).toInt = (if x.negative then -2 ^ 63 else 2 ^ 63 - 1) ∧
        (x.toInt32 mode).toInt = (if x.negative then -2 ^ 31 else 2 ^ 31 - 1)) ∧
      (x.isFinite = true →
        ∃ n : ℤ, mode.Picks (Multiple 1) (Multiple 2) x.value n ∧
          (x.toInt64 mode).toInt = max (-2 ^ 63) (min (2 ^ 63 - 1) n) ∧
          (x.toInt32 mode).toInt = max (-2 ^ 31) (min (2 ^ 31 - 1) n)) := by
  refine ⟨integerFits_of_canonical hx mode, ?nan, ?infinite, ?finite⟩
  all_goals rw [toInt_toInt64, toInt_toInt32]
  case nan =>
    intro hnan
    rw [eq_nan_of_isNaN hnan]
    exact ⟨rfl, rfl⟩
  case infinite =>
    intro hinfinite
    rw [eq_infinity_of_isInfinite hinfinite]
    exact ⟨rfl, rfl⟩
  case finite =>
    intro hfinite
    have hpicks := RoundingMode.picks_multiple one_pos mode x.value
    rw [div_one, mul_one, mul_one] at hpicks
    exact ⟨_, hpicks, toIntClamped_eq hx hfinite (by decide) (by decide) (by decide),
      toIntClamped_eq hx hfinite (by decide) (by decide) (by decide)⟩

/-- Half a unit below `2 ^ 63`, rounding up leads out of the range; rounding its opposite down leads
to the lower end. -/
theorem toInt_clamps_ends :
    (toInt64 ⟨false, .finite (2 ^ 64 - 1) (-1)⟩ .towardPositive).toInt = 2 ^ 63 - 1 ∧
      (toInt64 ⟨true, .finite (2 ^ 64 - 1) (-1)⟩ .towardNegative).toInt = -2 ^ 63 := by
  have hvalue : ∀ s, value ⟨s, .finite (2 ^ 64 - 1) (-1)⟩ = signedInt s (2 ^ 64 - 1) / 2 :=
    fun s => by
      change (signedInt s (2 ^ 64 - 1) * 2 ^ (-1 : ℤ) : ℚ) = _
      rw [zpow_neg_one, div_eq_mul_inv]
  have hpositive : Canonical ⟨false, .finite (2 ^ 64 - 1) (-1)⟩ := by
    unfold Canonical
    decide +kernel
  have hnegative : Canonical ⟨true, .finite (2 ^ 64 - 1) (-1)⟩ := by
    unfold Canonical
    decide +kernel
  obtain ⟨n, ⟨⟨-, habove⟩, -⟩, hn, -⟩ := (toInt_clamps hpositive .towardPositive).2.2.2 rfl
  obtain ⟨k, ⟨⟨-, hbelow⟩, -⟩, hk, -⟩ := (toInt_clamps hnegative .towardNegative).2.2.2 rfl
  rw [hvalue] at habove hbelow
  norm_num [signedInt] at habove hbelow
  have hlarge : (2 ^ 63 - 1 : ℚ) < n := by linarith
  have hsmall : (k : ℚ) < -2 ^ 63 + 1 := by linarith
  have hlarge : (2 ^ 63 - 1 : ℤ) < n := by exact_mod_cast hlarge
  have hsmall : k < -2 ^ 63 + 1 := by exact_mod_cast hsmall
  rw [hn, hk]
  omega

end ExactSphere.BigFloat
