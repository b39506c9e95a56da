import ExactSphere.Proofs.BigFloat.Value

/-!
# Exact arithmetic up to its limits

What the sum, the difference and the product of two canonical values are. If both are normal, the
exact result alone decides (`Settles`): it is kept if its exponent is in range and its significant
bits fit, and becomes a zero, an infinity or NaN otherwise. The early exits of `addAligned` and
`mul` take only results that are too wide. Special operands follow the rules of binary floating
point (`SumRules`, `ProductRules`).
-/

namespace ExactSphere.BigFloat

open Binary64 (OnGrid)

/-! ## Exponents and significant bits of a number -/

/-- `v` lies in `[2 ^ (e - 1), 2 ^ e)` up to its sign. -/
structure HasExponent (e : ℤ) (v : ℚ) : Prop where
  le : 2 ^ (e - 1) ≤ |v|
  lt : |v| < 2 ^ e

namespace HasExponent

variable {e f : ℤ} {v : ℚ}

theorem le_of_lt (h : HasExponent e v) (hlt : |v| < 2 ^ f) : e ≤ f := by
  have := (zpow_lt_zpow_iff_right₀ one_lt_two).1 (h.le.trans_lt hlt)
  omega

theorem unique (he : HasExponent e v) (hf : HasExponent f v) : e = f :=
  le_antisymm (he.le_of_lt hf.lt) (hf.le_of_lt he.lt)

theorem ne_zero (h : HasExponent e v) : v ≠ 0 := by
  rintro rfl
  have hpos : (0 : ℚ) < 2 ^ (e - 1) := by positivity
  exact absurd h.le (by rw [abs_zero]; exact hpos.not_ge)

theorem signedInt {m : ℕ} (hm : m ≠ 0) (s : Bool) (e : ℤ) :
    HasExponent (e + bitLength m) (signedInt s m * 2 ^ e) :=
  ⟨zpow_le_abs_signedInt hm s e, abs_signedInt_lt_zpow s m e⟩

end HasExponent

/-- `v` has at most `p` significant bits. -/
def FitsBits (p : ℕ) (v : ℚ) : Prop := ∃ n f : ℤ, |n| < 2 ^ p ∧ v = n * 2 ^ f

theorem fitsBits_signedInt {m p : ℕ} (h : bitLength m ≤ p) (s : Bool) (e : ℤ) :
    FitsBits p (signedInt s m * 2 ^ e) := by
  refine ⟨signedInt s m, e, ?_, rfl⟩
  rw [Int.abs_eq_natAbs, signedInt_natAbs]
  exact_mod_cast (lt_two_pow_bitLength m).trans_le (Nat.pow_le_pow_right two_pos h)

/-- An odd mantissa has no bit to spare. -/
theorem fitsBits_iff_of_odd {m : ℕ} (hm : m % 2 = 1) (s : Bool) (e : ℤ) (p : ℕ) :
    FitsBits p (signedInt s m * 2 ^ e) ↔ bitLength m ≤ p := by
  constructor
  · rintro ⟨n, f, hn, hv⟩
    have hfe : f ≤ e := le_exponent_of_onGrid hm ⟨n, hv⟩
    have hlt : |(signedInt s m * 2 ^ e : ℚ)| < 2 ^ ((p : ℤ) + f) := by
      have hpos : (0 : ℚ) < 2 ^ f := by positivity
      rw [hv, abs_mul, abs_of_pos hpos, zpow_add₀ two_ne_zero, zpow_natCast]
      exact mul_lt_mul_of_pos_right (by exact_mod_cast hn) hpos
    have := le_of_abs_signedInt_lt (by omega) hlt
    omega
  · exact fun hle => fitsBits_signedInt hle s e

/-- A number has one odd mantissa and one exponent. -/
theorem finite_inj {m n : ℕ} {e f : ℤ} (hm : m % 2 = 1) (hn : n % 2 = 1)
    (h : (m * 2 ^ e : ℚ) = n * 2 ^ f) : m = n ∧ e = f := by
  have hexponent : e = f := by
    refine le_antisymm ?_ ?_
    · exact le_exponent_of_onGrid (s := false) hn ⟨m, by simpa [signedInt] using h.symm⟩
    · exact le_exponent_of_onGrid (s := false) hm ⟨n, by simpa [signedInt] using h⟩
  subst hexponent
  have hpos : (0 : ℚ) < 2 ^ e := by positivity
  exact ⟨by exact_mod_cast mul_right_cancel₀ hpos.ne' h, rfl⟩

/-! ## Results in canonical form -/

/-- The number of a value; a special value counts as zero. -/
def value (x : BigFloat) : ℚ :=
  match x.magnitude with
  | .finite m e => signedInt x.negative m * 2 ^ e
  | _ => 0

theorem Represents.value_eq {x : BigFloat} {v : ℚ} (h : Represents x v) : x.value = v := by
  cases h <;> rfl

/-- `z` is what becomes of the exact result `v`. -/
structure Settles (z : BigFloat) (v : ℚ) : Prop where
  zero : v = 0 → z = zero false
  underflow : ∀ e, HasExponent e v → e < minExponent → z = BigFloat.zero (v < 0)
  overflow : ∀ e, HasExponent e v → maxExponent < e → z = infinity (v < 0)
  tooWide : ∀ e, HasExponent e v → minExponent ≤ e → e ≤ maxExponent →
    ¬FitsBits maxPrecision v → z.isNaN = true
  exact : ∀ e, HasExponent e v → minExponent ≤ e → e ≤ maxExponent →
    FitsBits maxPrecision v → z.isNormal = true ∧ z.Canonical ∧ z.value = v

theorem signedInt_mul_zpow_lt_zero {m : ℕ} (hm : m ≠ 0) (s : Bool) (e : ℤ) :
    decide ((signedInt s m * 2 ^ e : ℚ) < 0) = s := by
  have hpos : (0 : ℚ) < m * 2 ^ e :=
    mul_pos (by exact_mod_cast Nat.pos_of_ne_zero hm) (by positivity)
  cases s with
  | false => simpa [signedInt] using hpos.le
  | true => simpa [signedInt] using hpos

/-- The limits of `ofParts` are those of the number that its arguments stand for. -/
theorem settles_ofParts {n : ℕ} (hn : n ≠ 0) (s : Bool) (e : ℤ) :
    Settles (ofParts s n e) (signedInt s n * 2 ^ e) := by
  have hexponent := HasExponent.signedInt hn s e
  have hnegative := signedInt_mul_zpow_lt_zero hn s e
  obtain ⟨hodd, -⟩ := shiftRight_trailingZeros hn
  have hbits := bitLength_eq_add_trailingZeros hn
  have hfits := fitsBits_iff_of_odd hodd s (e + trailingZeros n) maxPrecision
  rw [← signedInt_mul_zpow_eq hn] at hfits
  refine ⟨?zero, ?underflow, ?overflow, ?tooWide, ?exact⟩
  case zero =>
    intro hzero
    exact absurd hzero hexponent.ne_zero
  case underflow =>
    intro e' he' hlow
    obtain rfl := he'.unique hexponent
    rw [ofParts, if_neg hn, if_pos hlow, hnegative]
  case overflow =>
    intro e' he' hhigh
    obtain rfl := he'.unique hexponent
    have hlow : ¬e + bitLength n < minExponent := by
      unfold maxExponent at hhigh
      unfold minExponent
      omega
    rw [ofParts, if_neg hn, if_neg hlow, if_pos hhigh, hnegative]
  case tooWide =>
    intro e' he' hlow hhigh hwide
    obtain rfl := he'.unique hexponent
    rw [hfits, not_le] at hwide
    rw [ofParts_of_le hn hlow hhigh, if_pos hwide]
    rfl
  case exact =>
    intro e' he' hlow hhigh hnarrow
    obtain rfl := he'.unique hexponent
    rw [hfits] at hnarrow
    rw [ofParts_of_le hn hlow hhigh, if_neg hnarrow.not_gt]
    refine ⟨rfl, ⟨hodd, by omega, by omega, hnarrow⟩, ?_⟩
    rw [value, signedInt_mul_zpow_eq hn]

theorem settles_ofScaled (n e : ℤ) : Settles (ofScaled n e) (n * 2 ^ e) := by
  by_cases hn : n = 0
  · subst hn
    have hvalue : ((0 : ℤ) * 2 ^ e : ℚ) = 0 := by simp
    rw [hvalue]
    refine ⟨fun _ => rfl, ?_, ?_, ?_, ?_⟩ <;> exact fun e he => absurd rfl he.ne_zero
  · have h := settles_ofParts (Int.natAbs_ne_zero.2 hn) (n < 0) e
    rwa [signedInt_lt_zero] at h

/-- NaN is the result of a number in range that has too many bits. -/
theorem settles_nan {v : ℚ} (hlow : 2 ^ (minExponent - 1) ≤ |v|) (hhigh : |v| < 2 ^ maxExponent)
    (hwide : ¬FitsBits maxPrecision v) : Settles nan v where
  zero hzero := by
    have hpos : (0 : ℚ) < 2 ^ (minExponent - 1) := by positivity
    rw [hzero, abs_zero] at hlow
    exact absurd hlow hpos.not_ge
  underflow e he hlt := by
    have := (zpow_lt_zpow_iff_right₀ one_lt_two).1 (hlow.trans_lt he.lt)
    omega
  overflow e he hlt := by
    have := he.le_of_lt hhigh
    omega
  tooWide _ _ _ _ _ := rfl
  exact _ _ _ _ hnarrow := absurd hnarrow hwide

/-! ## Sums -/

section Aligned

variable {s t : Bool} {m n : ℕ} {e f : ℤ}

/-- A number far below another one changes its size by less than half of it. -/
theorem abs_add_of_far (hm : m ≠ 0) (hfar : f + bitLength n < e) :
    2 ^ (e - 1) ≤ |(signedInt s m * 2 ^ e + signedInt t n * 2 ^ f : ℚ)| ∧
      |(signedInt s m * 2 ^ e + signedInt t n * 2 ^ f : ℚ)| < 2 ^ (e + bitLength m) := by
  have hsmall : |(signedInt t n * 2 ^ f : ℚ)| < 2 ^ (e - 1) :=
    (abs_signedInt_lt_zpow t n f).trans_le (zpow_le_zpow_right₀ one_le_two (by omega))
  have hlow := abs_sub_abs_le_abs_add (signedInt s m * 2 ^ e : ℚ) (signedInt t n * 2 ^ f)
  have hhigh := abs_add_le (signedInt s m * 2 ^ e : ℚ) (signedInt t n * 2 ^ f)
  rw [abs_signedInt_mul_zpow s m e] at hlow hhigh
  have hhalf : (2 : ℚ) ^ e = 2 * 2 ^ (e - 1) := by rw [zpow_sub_one₀ two_ne_zero]; ring
  have hpos : (0 : ℚ) < 2 ^ (e - 1) := by positivity
  have hone : (1 : ℚ) ≤ m := by exact_mod_cast Nat.one_le_iff_ne_zero.2 hm
  have hnext : (m + 1 : ℚ) ≤ 2 ^ bitLength m := by exact_mod_cast lt_two_pow_bitLength m
  constructor
  · nlinarith
  · rw [add_comm e, zpow_add₀ two_ne_zero, zpow_natCast]
    nlinarith

/-- The sum of two odd multiples of different powers of two ends where the smaller one ends. -/
theorem aligned_mod_two (hn : n % 2 = 1) (hfe : f < e) :
    (signedInt s (m <<< (e - f).toNat) + signedInt t n).natAbs % 2 = 1 := by
  obtain ⟨j, hj⟩ : ∃ j, (e - f).toNat = j + 1 := ⟨(e - f).toNat - 1, by omega⟩
  have heven : signedInt s (m <<< (e - f).toNat) = 2 * (signedInt s m * 2 ^ j) := by
    rw [signedInt_shiftLeft, hj, pow_succ]
    ring
  have hodd := signedInt_natAbs t n
  omega

/-- If the terms lie too far apart, the exact sum has too many bits. -/
theorem not_fitsBits_of_far (hm : m ≠ 0) (hn : n % 2 = 1)
    (hfar : f + bitLength n + maxPrecision < e) :
    ¬FitsBits maxPrecision (signedInt s m * 2 ^ e + signedInt t n * 2 ^ f) := by
  have hlow := (abs_add_of_far (s := s) (t := t) (m := m) (n := n) (e := e) (f := f) hm
    (by omega)).1
  have hodd := aligned_mod_two (s := s) (t := t) (m := m) hn (e := e) (f := f) (by omega)
  rw [signedInt_add_eq (by omega)] at hlow ⊢
  generalize signedInt s (m <<< (e - f).toNat) + signedInt t n = k at hlow hodd ⊢
  rw [← signedInt_lt_zero k] at hlow ⊢
  rw [fitsBits_iff_of_odd hodd]
  have := (zpow_lt_zpow_iff_right₀ one_lt_two).1 (hlow.trans_lt (abs_signedInt_lt_zpow _ _ _))
  omega

theorem settles_addAligned (hm : m % 2 = 1) (hn : n % 2 = 1) (hfe : f ≤ e)
    (hmax : e + bitLength m ≤ maxExponent) (hmin : minExponent ≤ f + bitLength n) :
    Settles (addAligned s m e t n f) (signedInt s m * 2 ^ e + signedInt t n * 2 ^ f) := by
  by_cases hfar : maxPrecision < e - (f + bitLength n)
  · have hbounds := abs_add_of_far (s := s) (t := t) (m := m) (n := n) (e := e) (f := f)
      (by omega) (by omega)
    rw [addAligned, if_pos hfar]
    apply settles_nan
    · exact (zpow_le_zpow_right₀ one_le_two (by omega)).trans hbounds.1
    · exact hbounds.2.trans_le (zpow_le_zpow_right₀ one_le_two hmax)
    · exact not_fitsBits_of_far (by omega) hn (by omega)
  · rw [addAligned, if_neg hfar, signedInt_add_eq hfe]
    exact settles_ofScaled _ _

end Aligned

variable {x y : BigFloat}

theorem exists_of_isNormal (h : x.isNormal = true) : ∃ s m e, x = ⟨s, .finite m e⟩ := by
  obtain ⟨s, _ | ⟨m, e⟩ | _ | _⟩ := x
  case finite => exact ⟨s, m, e, rfl⟩
  all_goals cases h

theorem value_neg (x : BigFloat) : (-x).value = -x.value := by
  obtain ⟨s, _ | ⟨m, e⟩ | _ | _⟩ := x
  case finite =>
    change (signedInt (!s) m * 2 ^ e : ℚ) = -(signedInt s m * 2 ^ e)
    cases s <;> simp [signedInt]
  all_goals exact neg_zero.symm

theorem value_nonneg (h : x.negative = false) : 0 ≤ x.value := by
  obtain ⟨s, _ | ⟨m, e⟩ | _ | _⟩ := x
  case finite =>
    obtain rfl : s = false := h
    change (0 : ℚ) ≤ signedInt false m * 2 ^ e
    rw [signedInt, if_neg Bool.false_ne_true]
    positivity
  all_goals exact le_rfl

theorem value_nonpos (h : x.negative = true) : x.value ≤ 0 := by
  have hneg := value_nonneg (x := -x) (by rw [neg_negative, h]; rfl)
  rw [value_neg] at hneg
  linarith

theorem settles_add (hx : x.Canonical) (hy : y.Canonical) (hxn : x.isNormal = true)
    (hyn : y.isNormal = true) : Settles (x + y) (x.value + y.value) := by
  obtain ⟨s, m, e, rfl⟩ := exists_of_isNormal hxn
  obtain ⟨t, n, f, rfl⟩ := exists_of_isNormal hyn
  obtain ⟨hm, hxmin, hxmax, -⟩ := hx
  obtain ⟨hn, hymin, hymax, -⟩ := hy
  change Settles (if e < f then addAligned t n f s m e else addAligned s m e t n f)
    (signedInt s m * 2 ^ e + signedInt t n * 2 ^ f)
  split_ifs with hlt
  · rw [add_comm]
    exact settles_addAligned hn hm hlt.le hymax hxmin
  · exact settles_addAligned hm hn (not_lt.1 hlt) hxmax hymin

theorem sub_eq_add_neg_of_not_isNaN (hy : y.isNaN = false) : x - y = x + -y := by
  change (if y.isNaN then x + y else x + -y) = _
  rw [hy]
  rfl

theorem settles_sub (hx : x.Canonical) (hy : y.Canonical) (hxn : x.isNormal = true)
    (hyn : y.isNormal = true) : Settles (x - y) (x.value - y.value) := by
  have hnumber : y.isNaN = false := by
    obtain ⟨t, n, f, rfl⟩ := exists_of_isNormal hyn
    rfl
  rw [sub_eq_add_neg_of_not_isNaN hnumber, sub_eq_add_neg, ← value_neg]
  exact settles_add hx hy hxn hyn

/-! ## Products -/

/-- The product of two normal values is the exact one, unless its bits are too many. -/
theorem settles_mul (hx : x.Canonical) (hy : y.Canonical) (hxn : x.isNormal = true)
    (hyn : y.isNormal = true) (hbits : x.precision + y.precision - 1 ≤ maxPrecision) :
    Settles (x * y) (x.value * y.value) := by
  obtain ⟨s, m, e, rfl⟩ := exists_of_isNormal hxn
  obtain ⟨t, n, f, rfl⟩ := exists_of_isNormal hyn
  have hm : m % 2 = 1 := hx.1
  have hn : n % 2 = 1 := hy.1
  have hnarrow : ¬maxPrecision < bitLength m + bitLength n - 1 := not_lt.2 hbits
  change Settles (if maxPrecision < bitLength m + bitLength n - 1 then nan
    else ofParts (s != t) (m * n) (e + f)) (signedInt s m * 2 ^ e * (signedInt t n * 2 ^ f))
  rw [if_neg hnarrow, signedInt_mul_eq]
  exact settles_ofParts (Nat.mul_ne_zero (by omega) (by omega)) _ _

theorem mul_of_wide (hx : x.Canonical) (hy : y.Canonical) (hxn : x.isNormal = true)
    (hyn : y.isNormal = true) (hbits : maxPrecision < x.precision + y.precision - 1) :
    (x * y).isNaN = true ∧ ¬FitsBits maxPrecision (x.value * y.value) := by
  obtain ⟨s, m, e, rfl⟩ := exists_of_isNormal hxn
  obtain ⟨t, n, f, rfl⟩ := exists_of_isNormal hyn
  have hm : m % 2 = 1 := hx.1
  have hn : n % 2 = 1 := hy.1
  have hwide : maxPrecision < bitLength m + bitLength n - 1 := hbits
  constructor
  · change (if maxPrecision < bitLength m + bitLength n - 1 then nan
      else ofParts (s != t) (m * n) (e + f)).isNaN = true
    rw [if_pos hwide]
    rfl
  · change ¬FitsBits maxPrecision (signedInt s m * 2 ^ e * (signedInt t n * 2 ^ f))
    rw [signedInt_mul_eq, fitsBits_iff_of_odd (by rw [Nat.mul_mod, hm, hn]), not_le]
    exact hwide.trans_le (bitLength_mul_ge (by omega) (by omega))

/-! ## Special operands -/

/-- The sum `z` of two values that are not both normal. -/
structure SumRules (x y z : BigFloat) : Prop where
  nan : x.isNaN = true ∨ y.isNaN = true → z.isNaN = true
  opposite : x.isInfinite = true → y.isInfinite = true → x.negative ≠ y.negative → z.isNaN = true
  infinite : x.isInfinite = true → y.isInfinite = true → x.negative = y.negative → z = x
  infinite_left : x.isInfinite = true → y.isFinite = true → z = x
  infinite_right : x.isFinite = true → y.isInfinite = true → z = y
  zero : x.isZero = true → y.isZero = true → z = BigFloat.zero (x.negative && y.negative)
  zero_left : x.isZero = true → y.isNormal = true → z = y
  zero_right : x.isNormal = true → y.isZero = true → z = x

/-- The product `z` of two values that are not both normal. -/
structure ProductRules (x y z : BigFloat) : Prop where
  nan : x.isNaN = true ∨ y.isNaN = true → z.isNaN = true
  zero_infinite : x.isZero = true → y.isInfinite = true → z.isNaN = true
  infinite_zero : x.isInfinite = true → y.isZero = true → z.isNaN = true
  infinite_left : x.isInfinite = true → y.isNormal = true ∨ y.isInfinite = true →
    z = infinity (x.negative != y.negative)
  infinite_right : x.isNormal = true ∨ x.isInfinite = true → y.isInfinite = true →
    z = infinity (x.negative != y.negative)
  zero_left : x.isZero = true → y.isFinite = true → z = BigFloat.zero (x.negative != y.negative)
  zero_right : x.isFinite = true → y.isZero = true → z = BigFloat.zero (x.negative != y.negative)

theorem eq_zero_of_isZero (h : x.isZero = true) : x = zero x.negative := by
  obtain ⟨s, _ | _ | _ | _⟩ := x <;> first | rfl | cases h

theorem eq_infinity_of_isInfinite (h : x.isInfinite = true) : x = infinity x.negative := by
  obtain ⟨s, _ | _ | _ | _⟩ := x <;> first | rfl | cases h

theorem eq_nan_of_isNaN (h : x.isNaN = true) : x = ⟨x.negative, .nan⟩ := by
  obtain ⟨s, _ | _ | _ | _⟩ := x <;> first | rfl | cases h

theorem isNaN_add (h : x.isNaN = true ∨ y.isNaN = true) : (x + y).isNaN = true := by
  obtain ⟨s, m⟩ := x
  obtain ⟨t, n⟩ := y
  rcases h with h | h
  · obtain rfl : m = .nan := by cases m <;> first | rfl | cases h
    rfl
  · obtain rfl : n = .nan := by cases n <;> first | rfl | cases h
    cases m <;> rfl

theorem sumRules_add (x y : BigFloat) : SumRules x y (x + y) where
  nan := isNaN_add
  opposite hx hy hne := by
    rw [eq_infinity_of_isInfinite hx, eq_infinity_of_isInfinite hy]
    change (if x.negative = y.negative then infinity x.negative else BigFloat.nan).isNaN = true
    rw [if_neg hne]
    rfl
  infinite hx hy heq := by
    rw [eq_infinity_of_isInfinite hx, eq_infinity_of_isInfinite hy]
    change (if x.negative = y.negative then infinity x.negative else BigFloat.nan) = _
    rw [if_pos heq]
  infinite_left hx hy := by
    rw [eq_infinity_of_isInfinite hx]
    obtain ⟨t, _ | _ | _ | _⟩ := y <;> first | rfl | cases hy
  infinite_right hx hy := by
    rw [eq_infinity_of_isInfinite hy]
    obtain ⟨s, _ | _ | _ | _⟩ := x <;> first | rfl | cases hx
  zero hx hy := by
    rw [eq_zero_of_isZero hx, eq_zero_of_isZero hy]
    rfl
  zero_left hx hy := by
    obtain ⟨t, n, f, rfl⟩ := exists_of_isNormal hy
    rw [eq_zero_of_isZero hx]
    rfl
  zero_right hx hy := by
    obtain ⟨s, m, e, rfl⟩ := exists_of_isNormal hx
    rw [eq_zero_of_isZero hy]
    rfl

theorem sumRules_sub (x y : BigFloat) : SumRules x (-y) (x - y) := by
  cases hy : y.isNaN with
  | false =>
    rw [sub_eq_add_neg_of_not_isNaN hy]
    exact sumRules_add x (-y)
  | true =>
    have hdifference : (x - y).isNaN = true := by
      change (if y.isNaN then x + y else x + -y).isNaN = true
      rw [if_pos hy]
      exact isNaN_add (.inr hy)
    rw [eq_nan_of_isNaN hy] at hdifference ⊢
    refine ⟨fun _ => hdifference, ?_, ?_, ?_, ?_, ?_, ?_, ?_⟩ <;> exact nofun

theorem productRules_mul (x y : BigFloat) : ProductRules x y (x * y) where
  nan h := by
    rcases h with h | h
    · rw [eq_nan_of_isNaN h]
      rfl
    · rw [eq_nan_of_isNaN h]
      obtain ⟨s, _ | _ | _ | _⟩ := x <;> rfl
  zero_infinite hx hy := by
    rw [eq_zero_of_isZero hx, eq_infinity_of_isInfinite hy]
    rfl
  infinite_zero hx hy := by
    rw [eq_infinity_of_isInfinite hx, eq_zero_of_isZero hy]
    rfl
  infinite_left hx hy := by
    rw [eq_infinity_of_isInfinite hx]
    obtain ⟨t, _ | _ | _ | _⟩ := y <;> first | rfl | (rcases hy with hy | hy <;> cases hy)
  infinite_right hx hy := by
    rw [eq_infinity_of_isInfinite hy]
    obtain ⟨s, _ | _ | _ | _⟩ := x <;> first | rfl | (rcases hx with hx | hx <;> cases hx)
  zero_left hx hy := by
    rw [eq_zero_of_isZero hx]
    obtain ⟨t, _ | _ | _ | _⟩ := y <;> first | rfl | cases hy
  zero_right hx hy := by
    rw [eq_zero_of_isZero hy]
    obtain ⟨s, _ | _ | _ | _⟩ := x <;> first | rfl | cases hx

/-! ## All operands -/

/-- The sign of a NaN is all that tells a difference from the sum with the opposite value. -/
theorem sub_eq_add_neg_or_isNaN (x y : BigFloat) :
    x - y = x + -y ∨ (x - y).isNaN = true ∧ (x + -y).isNaN = true := by
  cases hy : y.isNaN with
  | false => exact .inl (sub_eq_add_neg_of_not_isNaN hy)
  | true =>
    have hneg : (-y).isNaN = true := hy
    exact .inr ⟨(sumRules_sub x y).nan (.inr hneg), isNaN_add (.inr hneg)⟩

/-- Arithmetic of canonical values: the exact result decides what becomes of normal operands,
except that a product whose operands have too many bits together is NaN at once; it then has too
many bits itself. -/
theorem arithmetic_exact {x y : BigFloat} (hx : x.Canonical) (hy : y.Canonical) :
    (x.isNormal = true → y.isNormal = true →
      Settles (x + y) (x.value + y.value) ∧ Settles (x - y) (x.value - y.value) ∧
        (x.precision + y.precision - 1 ≤ maxPrecision → Settles (x * y) (x.value * y.value)) ∧
        (maxPrecision < x.precision + y.precision - 1 →
          (x * y).isNaN = true ∧ ¬FitsBits maxPrecision (x.value * y.value))) ∧
      SumRules x y (x + y) ∧ SumRules x (-y) (x - y) ∧ ProductRules x y (x * y) ∧
      (x - y = x + -y ∨ (x - y).isNaN = true ∧ (x + -y).isNaN = true) := by
  refine ⟨fun hxn hyn => ⟨?sum, ?difference, ?product, ?wide⟩, sumRules_add x y,
    sumRules_sub x y, productRules_mul x y, sub_eq_add_neg_or_isNaN x y⟩
  case sum => exact settles_add hx hy hxn hyn
  case difference => exact settles_sub hx hy hxn hyn
  case product => exact settles_mul hx hy hxn hyn
  case wide => exact mul_of_wide hx hy hxn hyn

/-- Twice the largest power of two is infinite, and its difference with itself is zero. -/
theorem arithmetic_exact_largest_power :
    let x : BigFloat := ⟨false, .finite 1 (maxExponent - 1)⟩
    x.Canonical ∧ x + x = infinity false ∧ x - x = zero false := by
  intro x
  have hx : x.Canonical := by unfold Canonical; decide
  obtain ⟨hsum, hdifference, -, -⟩ := (arithmetic_exact hx hx).1 rfl rfl
  have hvalue : x.value + x.value = 2 ^ maxExponent := by
    change (signedInt false 1 * 2 ^ (maxExponent - 1) + signedInt false 1 * 2 ^ (maxExponent - 1) :
      ℚ) = _
    have hone : signedInt false 1 = 1 := rfl
    rw [hone, zpow_sub_one₀ two_ne_zero]
    push_cast
    ring
  have hpos : (0 : ℚ) < 2 ^ maxExponent := by positivity
  have hexponent : HasExponent (maxExponent + 1) (x.value + x.value) := by
    rw [hvalue]
    refine ⟨?_, ?_⟩
    · rw [abs_of_pos hpos, add_sub_cancel_right]
    · rw [abs_of_pos hpos]
      exact zpow_lt_zpow_right₀ one_lt_two (lt_add_one _)
  refine ⟨hx, ?_, hdifference.zero (sub_self _)⟩
  rw [hsum.overflow _ hexponent (lt_add_one _), hvalue, decide_eq_false hpos.not_gt]

end ExactSphere.BigFloat
