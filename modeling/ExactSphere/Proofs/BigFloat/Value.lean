import ExactSphere.Scalar
import ExactSphere.Proofs.Expression

/-!
# Exact arithmetic is exact

`Represents x v` says that `x` is the number `v`, with an odd mantissa if it is not zero. Sums,
differences and products represent those of the numbers as long as all of them lie in one window
`Window k`, of the numbers between `2 ^ (-1074 k)` and `2 ^ (1024 k)`: within it, neither the
exponent range nor the precision limit of a `BigFloat` is reached (`represents_ofParts`).
-/

namespace ExactSphere

open Binary64 (OnGrid)

/-! ## Bit counts -/

theorem trailingZeros_of_odd {n : ℕ} (h : n % 2 = 1) : trailingZeros n = 0 := by
  obtain ⟨m, rfl⟩ : ∃ m, n = 2 * m + 1 := ⟨n / 2, by omega⟩
  have hand : (2 * m + 1) &&& (2 * m) = 2 * m := by
    apply Nat.eq_of_testBit_eq
    intro i
    cases i with
    | zero => simp
    | succ i => rw [Nat.testBit_and, Nat.testBit_succ, Nat.testBit_succ]; grind
  rw [trailingZeros, Nat.add_sub_cancel, hand, Nat.add_sub_cancel_left]
  rfl

theorem trailingZeros_two_mul {n : ℕ} (h : n ≠ 0) :
    trailingZeros (2 * n) = trailingZeros n + 1 := by
  have hand : (2 * n) &&& (2 * n - 1) = 2 * (n &&& (n - 1)) := by
    apply Nat.eq_of_testBit_eq
    intro i
    cases i with
    | zero => simp
    | succ i =>
      have hpred : (2 * n - 1) / 2 = n - 1 := by omega
      rw [Nat.testBit_and, Nat.testBit_succ, Nat.testBit_succ, Nat.testBit_succ, hpred]
      simp
  have hlt : n &&& (n - 1) < n := Nat.lt_of_le_of_lt Nat.and_le_right (by omega)
  rw [trailingZeros, hand, ← Nat.mul_sub, Nat.log2_two_mul (by omega), trailingZeros]

/-- A number without its trailing zeros is odd. -/
theorem shiftRight_trailingZeros {n : ℕ} (h : n ≠ 0) :
    (n >>> trailingZeros n) % 2 = 1 ∧ n >>> trailingZeros n * 2 ^ trailingZeros n = n := by
  induction n using Nat.strong_induction_on with
  | _ n ih =>
    rcases Nat.mod_two_eq_zero_or_one n with heven | hodd
    · obtain ⟨m, rfl⟩ : ∃ m, n = 2 * m := ⟨n / 2, by omega⟩
      obtain ⟨hm, heq⟩ := ih m (by omega) (by omega)
      have hshift : (2 * m) >>> (trailingZeros m + 1) = m >>> trailingZeros m := by
        rw [Nat.add_comm, Nat.shiftRight_add, Nat.shiftRight_one, Nat.mul_div_cancel_left m two_pos]
      rw [trailingZeros_two_mul (by omega), hshift, Nat.pow_succ, ← Nat.mul_assoc, heq,
        Nat.mul_comm]
      exact ⟨hm, rfl⟩
    · rw [trailingZeros_of_odd hodd]
      simpa using hodd

theorem two_pow_le_of_bitLength {n : ℕ} (h : n ≠ 0) : 2 ^ (bitLength n - 1) ≤ n := by
  simpa [bitLength, h] using Nat.log2_self_le h

theorem lt_two_pow_bitLength (n : ℕ) : n < 2 ^ bitLength n := by
  rw [bitLength]
  split
  · omega
  · exact Nat.lt_log2_self

theorem bitLength_pos {n : ℕ} (h : n ≠ 0) : 0 < bitLength n := by simp [bitLength, h]

theorem bitLength_mul_two_pow {n : ℕ} (h : n ≠ 0) (k : ℕ) :
    bitLength (n * 2 ^ k) = bitLength n + k := by
  induction k with
  | zero => simp
  | succ k ih =>
    have hn : n * 2 ^ k ≠ 0 := Nat.mul_ne_zero h (by positivity)
    rw [Nat.pow_succ, ← Nat.mul_assoc, Nat.mul_comm _ 2, bitLength, if_neg (by omega),
      Nat.log2_two_mul hn, ← Nat.add_assoc, ← ih, bitLength, if_neg hn]

theorem signedInt_zero (s : Bool) : signedInt s 0 = 0 := by cases s <;> rfl

theorem abs_signedInt (s : Bool) (n : ℕ) : |(signedInt s n : ℚ)| = n := by
  cases s <;> simp [signedInt]

theorem signedInt_mul (s t : Bool) (m n : ℕ) :
    signedInt (s != t) (m * n) = signedInt s m * signedInt t n := by
  cases s <;> cases t <;> simp [signedInt]

theorem signedInt_shiftLeft (s : Bool) (n k : ℕ) :
    signedInt s (n <<< k) = signedInt s n * 2 ^ k := by
  cases s <;> simp [signedInt, Nat.shiftLeft_eq]

theorem signedInt_lt_zero (n : ℤ) : signedInt (n < 0) n.natAbs = n := by
  unfold signedInt
  split <;> rename_i h <;> simp only [decide_eq_true_eq] at h <;> omega

/-- The lowest bit of an odd multiple of `2 ^ e` is that of `2 ^ e`. -/
theorem le_exponent_of_onGrid {s : Bool} {m : ℕ} {e f : ℤ} (hm : m % 2 = 1)
    (h : OnGrid f (signedInt s m * 2 ^ e)) : f ≤ e := by
  obtain ⟨n, hn⟩ := h
  by_contra hlt
  obtain ⟨j, hj⟩ : ∃ j : ℕ, f = e + (j + 1 : ℕ) := ⟨(f - e - 1).toNat, by omega⟩
  have hsigned : signedInt s m = n * 2 ^ (j + 1) := by
    rw [hj, zpow_add₀ two_ne_zero, zpow_natCast, mul_left_comm,
      mul_comm (signedInt s m : ℚ)] at hn
    exact_mod_cast mul_left_cancel₀ (by positivity) hn
  have hdvd : (2 : ℤ) ∣ signedInt s m := ⟨n * 2 ^ j, by rw [hsigned]; ring⟩
  have hnat := Int.natAbs_dvd_natAbs.2 hdvd
  rw [signedInt_natAbs] at hnat
  have h2 : 2 ∣ m := hnat
  omega

theorem abs_signedInt_mul_zpow (s : Bool) (m : ℕ) (e : ℤ) :
    |(signedInt s m * 2 ^ e : ℚ)| = m * 2 ^ e := by
  rw [abs_mul, abs_signedInt, abs_of_pos (zpow_pos two_pos e)]

/-- The highest bit of `m * 2 ^ e` is that of `2 ^ (e + bitLength m - 1)`. -/
theorem zpow_le_abs_signedInt {m : ℕ} (hm : m ≠ 0) (s : Bool) (e : ℤ) :
    2 ^ (e + bitLength m - 1) ≤ |(signedInt s m * 2 ^ e : ℚ)| := by
  have hpos := bitLength_pos hm
  have hle : (2 : ℚ) ^ (bitLength m - 1) ≤ m := by exact_mod_cast two_pow_le_of_bitLength hm
  have hexponent : e + bitLength m - 1 = (bitLength m - 1 : ℕ) + e := by omega
  rw [abs_signedInt_mul_zpow, hexponent, zpow_add₀ two_ne_zero, zpow_natCast]
  exact mul_le_mul_of_nonneg_right hle (zpow_nonneg two_pos.le e)

theorem abs_signedInt_lt_zpow (s : Bool) (m : ℕ) (e : ℤ) :
    |(signedInt s m * 2 ^ e : ℚ)| < 2 ^ (e + bitLength m) := by
  have hlt : (m : ℚ) < 2 ^ bitLength m := by exact_mod_cast lt_two_pow_bitLength m
  rw [abs_signedInt_mul_zpow, add_comm, zpow_add₀ two_ne_zero, zpow_natCast]
  exact mul_lt_mul_of_pos_right hlt (zpow_pos two_pos e)

theorem le_of_abs_signedInt_lt {s : Bool} {m : ℕ} {e f : ℤ} (hm : m ≠ 0)
    (h : |(signedInt s m * 2 ^ e : ℚ)| < 2 ^ f) : e + bitLength m ≤ f := by
  have := (zpow_lt_zpow_iff_right₀ one_lt_two).1 ((zpow_le_abs_signedInt hm s e).trans_lt h)
  omega

theorem bitLength_eq_add_trailingZeros {n : ℕ} (h : n ≠ 0) :
    bitLength n = bitLength (n >>> trailingZeros n) + trailingZeros n := by
  obtain ⟨hodd, heq⟩ := shiftRight_trailingZeros h
  conv_lhs => rw [← heq]
  exact bitLength_mul_two_pow (by omega) _

/-- Trailing zeros can be moved from the mantissa to the exponent. -/
theorem signedInt_mul_zpow_eq {n : ℕ} (h : n ≠ 0) (s : Bool) (e : ℤ) :
    (signedInt s n * 2 ^ e : ℚ) =
      signedInt s (n >>> trailingZeros n) * 2 ^ (e + trailingZeros n) := by
  conv_lhs => rw [← (shiftRight_trailingZeros h).2, ← Nat.shiftLeft_eq, signedInt_shiftLeft]
  rw [zpow_add₀ two_ne_zero, zpow_natCast]
  push_cast
  ring

/-- Two numbers brought to the smaller exponent. -/
theorem signedInt_add_eq {e f : ℤ} (hfe : f ≤ e) (s t : Bool) (m n : ℕ) :
    (signedInt s m * 2 ^ e + signedInt t n * 2 ^ f : ℚ) =
      (signedInt s (m <<< (e - f).toNat) + signedInt t n : ℤ) * 2 ^ f := by
  have hsplit : (2 : ℚ) ^ e = 2 ^ (e - f).toNat * 2 ^ f := by
    rw [← zpow_natCast, Int.toNat_of_nonneg (by omega), ← zpow_add₀ two_ne_zero,
      Int.sub_add_cancel]
  rw [hsplit, signedInt_shiftLeft]
  push_cast
  ring

theorem signedInt_mul_eq (s t : Bool) (m n : ℕ) (e f : ℤ) :
    (signedInt s m * 2 ^ e * (signedInt t n * 2 ^ f) : ℚ) =
      signedInt (s != t) (m * n) * 2 ^ (e + f) := by
  rw [signedInt_mul, zpow_add₀ two_ne_zero]
  push_cast
  ring

/-- A product of numbers of `j` and `k` bits has at least `j + k - 1` bits. -/
theorem bitLength_mul_ge {m n : ℕ} (hm : m ≠ 0) (hn : n ≠ 0) :
    bitLength m + bitLength n - 1 ≤ bitLength (m * n) := by
  have hlt : 2 ^ (bitLength m - 1 + (bitLength n - 1)) < 2 ^ bitLength (m * n) := calc
    2 ^ (bitLength m - 1 + (bitLength n - 1)) ≤ m * n := by
      rw [pow_add]
      exact Nat.mul_le_mul (two_pow_le_of_bitLength hm) (two_pow_le_of_bitLength hn)
    _ < 2 ^ bitLength (m * n) := lt_two_pow_bitLength _
  have := (Nat.pow_lt_pow_iff_right one_lt_two).1 hlt
  have := bitLength_pos hm
  have := bitLength_pos hn
  omega

/-! ## Windows -/

/-- A multiple of `2 ^ (-1074 k)` below `2 ^ (1024 k)`. -/
structure Window (k : ℕ) (v : ℚ) : Prop where
  onGrid : OnGrid (-1074 * k) v
  lt : |v| < 2 ^ (1024 * k : ℤ)

namespace Window

variable {k l : ℕ} {v w : ℚ}

theorem mono (h : Window k v) (hkl : k ≤ l) : Window l v where
  onGrid := h.onGrid.mono (by omega)
  lt := h.lt.trans_le (zpow_le_zpow_right₀ one_le_two (by omega))

theorem neg (h : Window k v) : Window k (-v) := ⟨h.onGrid.neg, by rw [abs_neg]; exact h.lt⟩

theorem abs (h : Window k v) : Window k |v| := ⟨h.onGrid.abs, by rw [abs_abs]; exact h.lt⟩

theorem add (hv : Window k v) (hw : Window k w) : Window (k + 1) (v + w) where
  onGrid := (hv.onGrid.add hw.onGrid).mono (by omega)
  lt := calc
    |v + w| ≤ |v| + |w| := abs_add_le v w
    _ < 2 ^ (1024 * k : ℤ) + 2 ^ (1024 * k : ℤ) := add_lt_add hv.lt hw.lt
    _ = 2 ^ (1024 * k + 1 : ℤ) := by rw [zpow_add_one₀ two_ne_zero]; ring
    _ ≤ 2 ^ (1024 * (k + 1 : ℕ) : ℤ) := zpow_le_zpow_right₀ one_le_two (by push_cast; omega)

theorem mul (hv : Window k v) (hw : Window l w) : Window (k + l) (v * w) where
  onGrid := (hv.onGrid.mul hw.onGrid).mono (by push_cast; omega)
  lt := by
    rw [abs_mul, Nat.cast_add, mul_add, zpow_add₀ two_ne_zero]
    exact mul_lt_mul'' hv.lt hw.lt (abs_nonneg v) (abs_nonneg w)

/-- The exponents of the last and the first bit of a number in the window. -/
theorem exponents {s : Bool} {m : ℕ} {e : ℤ} (hm : m % 2 = 1)
    (h : Window k (signedInt s m * 2 ^ e)) : -1074 * k ≤ e ∧ e + bitLength m ≤ 1024 * k :=
  ⟨le_exponent_of_onGrid hm h.onGrid, le_of_abs_signedInt_lt (by omega) h.lt⟩

end Window

namespace BigFloat

/-! ## The number of a value -/

theorem Canonical.mantissa_ne_zero {s : Bool} {m : ℕ} {e : ℤ} (h : Canonical ⟨s, .finite m e⟩) :
    m ≠ 0 := by
  have := h.1
  omega

/-- `x` is the number `v`. -/
inductive Represents : BigFloat → ℚ → Prop where
  | zero (s : Bool) : Represents (zero s) 0
  | finite (s : Bool) {m : ℕ} (odd : m % 2 = 1) (e : ℤ) :
      Represents ⟨s, .finite m e⟩ (signedInt s m * 2 ^ e)

namespace Represents

variable {x y : BigFloat} {v w : ℚ}

theorem isNaN_eq_false (h : Represents x v) : x.isNaN = false := by cases h <;> rfl

theorem isFinite (h : Represents x v) : x.isFinite = true := by cases h <;> rfl

theorem sign_eq (h : Represents x v) : x.sign = Sign.of v := by
  cases h with
  | zero s => exact Sign.of_zero.symm
  | @finite s m odd e =>
    have hm : (0 : ℚ) < m * 2 ^ e := mul_pos (by exact_mod_cast (by omega : 0 < m)) (by positivity)
    cases s with
    | false => exact (Sign.of_pos (by simpa [signedInt] using hm)).symm
    | true => exact (Sign.of_neg (by simpa [signedInt] using hm)).symm

theorem run_sign? (h : Represents x v) : x.sign?.run = .ok (some (Sign.of v)) := by
  rw [sign?, h.isNaN_eq_false, h.sign_eq]
  rfl

theorem neg (h : Represents x v) : Represents (-x) (-v) := by
  cases h with
  | zero s =>
    rw [neg_zero]
    exact .zero !s
  | @finite s m odd e =>
    have hsigned : -((signedInt s m : ℚ) * 2 ^ e) = signedInt (!s) m * 2 ^ e := by
      cases s <;> simp [signedInt]
    rw [hsigned]
    exact .finite (!s) odd e

theorem abs (h : Represents x v) : Represents x.abs |v| := by
  cases h with
  | zero s =>
    rw [abs_zero]
    exact .zero false
  | @finite s m odd e =>
    rw [abs_mul, abs_signedInt, abs_of_pos (zpow_pos two_pos e)]
    exact .finite false odd e

end Represents

/-! ## The operations -/

/-- The largest window in which no limit is reached. -/
def windowLimit : ℕ := 30001

variable {x y : BigFloat} {v w : ℚ} {k : ℕ}

theorem limits_of_le (hk : k ≤ windowLimit) :
    minExponent ≤ -1074 * k ∧ 1024 * k ≤ maxExponent ∧ 2098 * k ≤ maxPrecision := by
  unfold windowLimit at hk
  unfold minExponent maxExponent maxPrecision
  omega

/-- Within the exponent range, the odd part of a mantissa is kept if it is not too wide. -/
theorem ofParts_of_le {n : ℕ} {e : ℤ} (hn : n ≠ 0) (hmin : minExponent ≤ e + bitLength n)
    (hmax : e + bitLength n ≤ maxExponent) (s : Bool) :
    ofParts s n e = if maxPrecision < bitLength (n >>> trailingZeros n) then nan
      else ⟨s, .finite (n >>> trailingZeros n) (e + trailingZeros n)⟩ := by
  rw [ofParts, if_neg hn, if_neg (by omega), if_neg (by omega)]

theorem represents_ofParts {s : Bool} {n : ℕ} {e : ℤ} (hk : k ≤ windowLimit)
    (h : Window k (signedInt s n * 2 ^ e)) :
    Represents (ofParts s n e) (signedInt s n * 2 ^ e) := by
  obtain ⟨hminimum, hmaximum, hprecision⟩ := limits_of_le hk
  by_cases hn : n = 0
  · subst hn
    simpa [ofParts, signedInt] using Represents.zero s
  have hodd := (shiftRight_trailingZeros hn).1
  have hbits := bitLength_eq_add_trailingZeros hn
  rw [signedInt_mul_zpow_eq hn] at h ⊢
  obtain ⟨hlow, hhigh⟩ := h.exponents hodd
  rw [ofParts_of_le hn (by omega) (by omega), if_neg (by omega)]
  exact .finite s hodd _

theorem represents_ofScaled {n e : ℤ} (hk : k ≤ windowLimit) (h : Window k (n * 2 ^ e)) :
    Represents (ofScaled n e) (n * 2 ^ e) := by
  rw [← signedInt_lt_zero n] at h
  have := represents_ofParts hk h
  rwa [signedInt_lt_zero] at this

theorem ofScaled_signedInt {m : ℕ} (hm : m ≠ 0) (s : Bool) (e : ℤ) :
    ofScaled (signedInt s m) e = ofParts s m e := by
  have hsign : decide (signedInt s m < 0) = s := by
    cases s <;> simp [signedInt, Nat.pos_of_ne_zero hm]
  rw [ofScaled, hsign, signedInt_natAbs]

/-- The sum by its magnitudes: those of one sign are added, and of two signs the smaller one is
subtracted from the larger one, which gives its sign to the difference. -/
def addMagnitudes (s : Bool) (m : ℕ) (t : Bool) (n : ℕ) (f : ℤ) : BigFloat :=
  if s = t then ofParts s (m + n) f
  else
    match compare m n with
    | .eq => zero false
    | .gt => ofParts s (m - n) f
    | .lt => ofParts t (n - m) f

/-- The sum of two integers has the magnitude and the sign that the three comparisons give. -/
theorem ofScaled_add_signedInt {n : ℕ} (hn : n ≠ 0) (s : Bool) (m : ℕ) (t : Bool) (f : ℤ) :
    ofScaled (signedInt s m + signedInt t n) f = addMagnitudes s m t n f := by
  unfold addMagnitudes
  split_ifs with hsigns
  · subst hsigns
    have hsum : signedInt s m + signedInt s n = signedInt s (m + n) := by
      cases s <;> simp only [signedInt] <;> grind
    rw [hsum, ofScaled_signedInt (by omega)]
  have hopposite : signedInt t n = -signedInt s n := by
    cases s <;> cases t <;> simp [signedInt] at hsigns ⊢
  rcases lt_trichotomy m n with hlt | rfl | hgt
  · have hsum : signedInt s m + signedInt t n = signedInt t (n - m) := by
      cases s <;> cases t <;> simp only [signedInt] at hsigns ⊢ <;> grind
    rw [compare_lt_iff_lt.2 hlt, hsum, ofScaled_signedInt (by omega)]
  · rw [compare_eq_iff_eq.2 rfl, hopposite, add_neg_cancel]
    rfl
  · have hsum : signedInt s m + signedInt t n = signedInt s (m - n) := by
      cases s <;> cases t <;> simp only [signedInt] at hsigns ⊢ <;> grind
    rw [compare_gt_iff_gt.2 hgt, hsum, ofScaled_signedInt (by omega)]

theorem addAligned_eq_addMagnitudes {n : ℕ} (hn : n ≠ 0) (s : Bool) (m : ℕ) (e : ℤ) (t : Bool)
    (f : ℤ) : addAligned s m e t n f =
      if maxPrecision < e - (f + bitLength n) then nan
      else addMagnitudes s (m <<< (e - f).toNat) t n f := by
  rw [addAligned, ofScaled_add_signedInt hn]

theorem represents_addAligned {s t : Bool} {m n : ℕ} {e f : ℤ} (hm : m % 2 = 1) (hn : n % 2 = 1)
    (hfe : f ≤ e) (hk : k ≤ windowLimit) (hv : Window k (signedInt s m * 2 ^ e))
    (hw : Window k (signedInt t n * 2 ^ f))
    (h : Window k (signedInt s m * 2 ^ e + signedInt t n * 2 ^ f)) :
    Represents (addAligned s m e t n f) (signedInt s m * 2 ^ e + signedInt t n * 2 ^ f) := by
  have hnear : ¬maxPrecision < e - (f + bitLength n) := by
    have := (hv.exponents hm).2
    have := (hw.exponents hn).1
    have := (limits_of_le hk).2.2
    omega
  rw [addAligned, if_neg hnear]
  rw [signedInt_add_eq hfe] at h ⊢
  exact represents_ofScaled hk h

theorem represents_add (hk : k ≤ windowLimit) (hx : Represents x v) (hy : Represents y w)
    (hv : Window k v) (hw : Window k w) (h : Window k (v + w)) : Represents (x + y) (v + w) := by
  cases hx with
  | zero s =>
    cases hy with
    | zero t =>
      rw [add_zero]
      exact .zero (s && t)
    | finite t hn f =>
      rw [zero_add]
      exact .finite t hn f
  | @finite s m hm e =>
    cases hy with
    | zero t =>
      rw [add_zero]
      exact .finite s hm e
    | @finite t n hn f =>
      change Represents (if e < f then addAligned t n f s m e else addAligned s m e t n f) _
      split_ifs with hlt
      · rw [add_comm] at h ⊢
        exact represents_addAligned hn hm hlt.le hk hw hv h
      · exact represents_addAligned hm hn (by omega) hk hv hw h

theorem represents_sub (hk : k ≤ windowLimit) (hx : Represents x v) (hy : Represents y w)
    (hv : Window k v) (hw : Window k w) (h : Window k (v - w)) : Represents (x - y) (v - w) := by
  have hsub : x - y = x + -y := by
    change (if y.isNaN then x + y else x + -y) = _
    rw [hy.isNaN_eq_false]
    rfl
  rw [sub_eq_add_neg] at h ⊢
  rw [hsub]
  exact represents_add hk hx hy.neg hv hw.neg h

theorem represents_mul (hk : k ≤ windowLimit) (hx : Represents x v) (hy : Represents y w)
    (h : Window k (v * w)) : Represents (x * y) (v * w) := by
  cases hx with
  | zero s =>
    cases hy with
    | zero t | finite t =>
      rw [zero_mul]
      exact .zero (s != t)
  | @finite s m hm e =>
    cases hy with
    | zero t =>
      rw [mul_zero]
      exact .zero (s != t)
    | @finite t n hn f =>
      rw [signedInt_mul_eq] at h ⊢
      have hodd : m * n % 2 = 1 := by rw [Nat.mul_mod, hm, hn]
      have hnarrow : ¬maxPrecision < bitLength m + bitLength n - 1 := by
        have hbits := bitLength_mul_ge (m := m) (n := n) (by omega) (by omega)
        obtain ⟨hlow, hhigh⟩ := h.exponents hodd
        have := (limits_of_le hk).2.2
        omega
      change Represents (if maxPrecision < bitLength m + bitLength n - 1 then nan
        else ofParts (s != t) (m * n) (e + f)) _
      rw [if_neg hnarrow]
      exact represents_ofParts hk h

end BigFloat
end ExactSphere
