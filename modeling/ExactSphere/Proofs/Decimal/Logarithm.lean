import ExactSphere.BigFloat.Decimal
import Mathlib.Data.Nat.Log
import Mathlib.Tactic.Linarith
import Mathlib.Tactic.Ring

/-!
# Powers of two against powers of ten

A comparison of two powers with exponents in a range follows from one comparison at a convergent of
the decimal logarithm of two: `ten_pow_le_two_pow` for rational bounds on the exponents, and
`two_pow_le_ten_pow` for all exponents up to the sum of two neighbouring denominators.
-/

namespace ExactSphere.Decimal

/-! ## Bounds on large powers -/

/-- The number `mantissa * 10 ^ exponent` as a bound on a power too large to compute. -/
structure PowerBound where
  mantissa : ℕ
  exponent : ℕ

namespace PowerBound

/-- A bound of some forty digits. -/
def shorten (b : PowerBound) : PowerBound :=
  let excess := b.mantissa.log2 * 3 / 10 - 40
  if excess = 0 then b else ⟨b.mantissa / 10 ^ excess + 1, b.exponent + excess⟩

/-- An upper bound on `2 ^ n`, by repeated squaring. -/
def ofTwoPow : (fuel n : ℕ) → PowerBound
  | 0, _ => ⟨1, 0⟩
  | fuel + 1, n =>
    let half := ofTwoPow fuel (n / 2)
    shorten ⟨half.mantissa * half.mantissa * 2 ^ (n % 2), 2 * half.exponent⟩

theorem le_shorten (b : PowerBound) :
    b.mantissa * 10 ^ b.exponent ≤ b.shorten.mantissa * 10 ^ b.shorten.exponent := by
  unfold shorten
  dsimp only
  split_ifs
  · exact le_rfl
  · generalize b.mantissa.log2 * 3 / 10 - 40 = excess
    have hlt := Nat.lt_mul_div_succ b.mantissa (show 0 < 10 ^ excess by positivity)
    calc b.mantissa * 10 ^ b.exponent
        ≤ 10 ^ excess * (b.mantissa / 10 ^ excess + 1) * 10 ^ b.exponent :=
          Nat.mul_le_mul_right _ hlt.le
      _ = (b.mantissa / 10 ^ excess + 1) * 10 ^ (b.exponent + excess) := by
          rw [pow_add]
          ring

theorem two_pow_le_ofTwoPow {fuel n : ℕ} (h : n < 2 ^ fuel) :
    2 ^ n ≤ (ofTwoPow fuel n).mantissa * 10 ^ (ofTwoPow fuel n).exponent := by
  induction fuel generalizing n with
  | zero =>
    obtain rfl : n = 0 := by omega
    exact le_rfl
  | succ fuel ih =>
    have hhalf := ih (n := n / 2) (by omega)
    refine le_trans ?_ (le_shorten _)
    dsimp only
    generalize ofTwoPow fuel (n / 2) = half at hhalf
    have hsplit : n = n / 2 + n / 2 + n % 2 := by omega
    calc 2 ^ n = 2 ^ (n / 2) * 2 ^ (n / 2) * 2 ^ (n % 2) := by
          rw [← pow_add, ← pow_add, ← hsplit]
      _ ≤ half.mantissa * 10 ^ half.exponent * (half.mantissa * 10 ^ half.exponent) *
            2 ^ (n % 2) := Nat.mul_le_mul_right _ (Nat.mul_le_mul hhalf hhalf)
      _ = half.mantissa * half.mantissa * 2 ^ (n % 2) * 10 ^ (2 * half.exponent) := by
          rw [two_mul half.exponent, pow_add]
          ring

end PowerBound

/-! ## Convergents of the logarithm -/

/-- Two rationals next to each other among the small denominators, the upper one `num' / den'` above
the decimal logarithm of two, separate powers with exponents below the sum of the denominators. -/
theorem two_pow_le_of_neighbours {num den num' den' p k : ℕ} (hupper : 2 ^ den' ≤ 10 ^ num')
    (hneighbours : num' * den = num * den' + 1) (hlower : num * p < k * den)
    (hp : p < den + den') : 2 ^ p ≤ 10 ^ k := by
  by_contra! hlt
  have hden : den' ≠ 0 := by
    rintro rfl
    have hone := Nat.eq_one_of_mul_eq_one_left (hneighbours.trans (by omega))
    obtain rfl : p = 0 := by omega
    exact absurd hlt (Nat.one_le_pow _ _ (by norm_num)).not_gt
  have hpowers : 10 ^ (k * den') < 10 ^ (num' * p) :=
    calc 10 ^ (k * den') = (10 ^ k) ^ den' := pow_mul _ _ _
      _ < (2 ^ p) ^ den' := Nat.pow_lt_pow_left hlt hden
      _ = (2 ^ den') ^ p := pow_right_comm _ _ _
      _ ≤ (10 ^ num') ^ p := Nat.pow_le_pow_left hupper p
      _ = 10 ^ (num' * p) := (pow_mul _ _ _).symm
  have hk := (Nat.pow_lt_pow_iff_right (by norm_num)).1 hpowers
  -- `p` is `den * (num' * p - k * den') + den' * (k * den - num * p)`
  have hsum : num' * den * p = num * den' * p + p := by
    rw [hneighbours]
    ring
  nlinarith [Nat.mul_le_mul_left den hk, Nat.mul_le_mul_left den' hlower]

/-- A convergent of the decimal logarithm of two, just above it. -/
theorem two_pow_le_convergent : 2 ^ 44699994 ≤ 10 ^ 13456039 := by
  have hpower := PowerBound.two_pow_le_ofTwoPow (show 44699994 < 2 ^ 26 by decide +kernel)
  have hbound : (PowerBound.ofTwoPow 26 44699994).exponent ≤ 13456039 ∧
      (PowerBound.ofTwoPow 26 44699994).mantissa ≤
        10 ^ (13456039 - (PowerBound.ofTwoPow 26 44699994).exponent) := by
    decide +kernel
  generalize PowerBound.ofTwoPow 26 44699994 = b at hpower hbound
  calc 2 ^ 44699994 ≤ b.mantissa * 10 ^ b.exponent := hpower
    _ ≤ 10 ^ (13456039 - b.exponent) * 10 ^ b.exponent := Nat.mul_le_mul_right _ hbound.2
    _ = 10 ^ 13456039 := by rw [← pow_add, Nat.sub_add_cancel hbound.1]

/-- Powers of ten up to the `p`-th power of two, for exponents of any mantissa. -/
theorem two_pow_le_ten_pow {p k : ℕ} (hlower : 15392313 * p < k * 51132157)
    (hp : p < 95832151) : 2 ^ p ≤ 10 ^ k :=
  two_pow_le_of_neighbours two_pow_le_convergent (by norm_num) hlower hp

/-- A convergent of the decimal logarithm of two, just below it. -/
theorem convergent_le_two_pow : 10 ^ 8651 ≤ 2 ^ 28738 := by decide +kernel

theorem ten_pow_le_two_pow {k n : ℕ} (h : k * 28738 ≤ 8651 * n) : 10 ^ k ≤ 2 ^ n := by
  refine (Nat.pow_le_pow_iff_left (show 28738 ≠ 0 by norm_num)).1 ?_
  calc (10 ^ k) ^ 28738 = 10 ^ (k * 28738) := (pow_mul _ _ _).symm
    _ ≤ 10 ^ (8651 * n) := Nat.pow_le_pow_right (by norm_num) h
    _ = (10 ^ 8651) ^ n := pow_mul _ _ _
    _ ≤ (2 ^ 28738) ^ n := Nat.pow_le_pow_left convergent_le_two_pow n
    _ = (2 ^ n) ^ 28738 := pow_right_comm _ _ _

/-! ## Counting digits

The count starts at a lower bound on the number of digits, which it must not overshoot. -/

/-- Counting up keeps a lower bound on the number. -/
theorem ten_pow_digitCountFrom_le {n : ℕ} (fuel : ℕ) {digits : ℕ} (h : 10 ^ (digits - 1) ≤ n) :
    10 ^ (digitCountFrom n fuel digits - 1) ≤ n := by
  induction fuel generalizing digits with
  | zero => exact h
  | succ fuel ih =>
    rw [digitCountFrom]
    split_ifs with hmore
    · exact ih hmore
    · exact h

theorem ten_pow_digitCount_le {n : ℕ} (hn : n ≠ 0) : 10 ^ (digitCount n - 1) ≤ n := by
  refine ten_pow_digitCountFrom_le _ ?_
  calc 10 ^ (n.log2 * 301029995 / 1000000000 - 1) ≤ 2 ^ n.log2 := ten_pow_le_two_pow (by omega)
    _ ≤ n := Nat.log2_self_le hn

/-- Counting up stops at an upper bound on the number, if there is fuel to reach one. -/
theorem lt_ten_pow_digitCountFrom {n fuel digits : ℕ} (h : n < 10 ^ (digits + fuel)) :
    n < 10 ^ digitCountFrom n fuel digits := by
  induction fuel generalizing digits with
  | zero => exact h
  | succ fuel ih =>
    rw [digitCountFrom]
    split_ifs with hmore
    · exact ih (by rwa [Nat.add_assoc, Nat.add_comm 1])
    · exact not_le.1 hmore

theorem lt_ten_pow_digitCount (n : ℕ) : n < 10 ^ digitCount n := by
  refine lt_ten_pow_digitCountFrom ?_
  calc n < 2 ^ (n.log2 + 1) := Nat.lt_log2_self
    _ ≤ 10 ^ (n.log2 + 1) := Nat.pow_le_pow_left (by norm_num) _
    _ ≤ 10 ^ (n.log2 * 301029995 / 1000000000 + (n.log2 + 1)) :=
      Nat.pow_le_pow_right (by norm_num) (Nat.le_add_left _ _)

theorem digitCount_pos {n : ℕ} (hn : n ≠ 0) : 0 < digitCount n := by
  rw [Nat.pos_iff_ne_zero]
  intro hzero
  have hlt := lt_ten_pow_digitCount n
  rw [hzero, pow_zero] at hlt
  omega

theorem lt_ten_pow_of_digitCount_le {n k : ℕ} (h : digitCount n ≤ k) : n < 10 ^ k :=
  (lt_ten_pow_digitCount n).trans_le (Nat.pow_le_pow_right (by norm_num) h)

theorem ne_zero_of_lt_digitCount {n k : ℕ} (h : k < digitCount n) : n ≠ 0 := by
  rintro rfl
  exact absurd h (Nat.not_lt_zero k)

/-- The digits that are counted are those of the text. -/
theorem length_toDigits {n : ℕ} (hn : n ≠ 0) : (Nat.toDigits 10 n).length = digitCount n := by
  have hlow := ten_pow_digitCount_le hn
  have hpos := Nat.length_toDigits_pos (b := 10) (n := n)
  refine le_antisymm ?_ ?_
  · exact (Nat.length_toDigits_le_iff (by norm_num) (digitCount_pos hn)).2 (lt_ten_pow_digitCount n)
  · by_contra! hlt
    have hshort : (Nat.toDigits 10 n).length ≤ digitCount n - 1 := by omega
    rw [Nat.length_toDigits_le_iff (by norm_num) (by omega)] at hshort
    omega

end ExactSphere.Decimal
