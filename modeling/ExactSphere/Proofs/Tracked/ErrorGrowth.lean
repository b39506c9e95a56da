import Mathlib.Tactic

/-!
# How rounding errors grow along a formula

`growth u k` bounds the relative error of `k` chained operations of unit roundoff `u`. One sum
takes the larger of two depths one further (`abs_sub_add_le`), one product adds them
(`abs_sub_mul_le`), and up to depth 64 the bound stays below that of one more operation, also when
it is taken of a magnitude that has been rounded itself (`growth_mul_le`).
-/

namespace ExactSphere.Tracked

/-- The relative error of `k` chained operations. -/
def growth (u : ℚ) (k : ℕ) : ℚ := (1 + u) ^ k - 1

variable {u : ℚ}

theorem growth_succ (u : ℚ) (k : ℕ) : growth u (k + 1) = growth u k + u * (1 + growth u k) := by
  unfold growth
  ring

theorem growth_add (u : ℚ) (i j : ℕ) :
    1 + growth u (i + j) = (1 + growth u i) * (1 + growth u j) := by
  unfold growth
  ring

theorem growth_nonneg (hu : 0 ≤ u) (k : ℕ) : 0 ≤ growth u k :=
  sub_nonneg.2 (one_le_pow₀ (by linarith))

theorem growth_mono (hu : 0 ≤ u) {i j : ℕ} (h : i ≤ j) : growth u i ≤ growth u j :=
  sub_le_sub_right (pow_le_pow_right₀ (by linarith) h) 1

theorem le_growth_succ (hu : 0 ≤ u) (k : ℕ) : u ≤ growth u (k + 1) := by
  have := growth_mono hu (Nat.le_add_left 1 k)
  unfold growth at this ⊢
  linarith

section Steps

variable {a b x y m n z : ℚ} {i j : ℕ}

/-- The error of a rounded sum of approximations `x` and `y` to `a` and `b`. -/
theorem abs_sub_add_le (hu : 0 ≤ u) (ha : |a| ≤ m) (hb : |b| ≤ n) (hx : |x - a| ≤ growth u i * m)
    (hy : |y - b| ≤ growth u j * n) (hz : |z - (x + y)| ≤ u * |x + y|) :
    |z - (a + b)| ≤ growth u (max i j + 1) * (m + n) := by
  set g := growth u (max i j) with hg
  have hgi : growth u i * m ≤ g * m :=
    mul_le_mul_of_nonneg_right (growth_mono hu (le_max_left i j)) ((abs_nonneg a).trans ha)
  have hgj : growth u j * n ≤ g * n :=
    mul_le_mul_of_nonneg_right (growth_mono hu (le_max_right i j)) ((abs_nonneg b).trans hb)
  have herror : |x + y - (a + b)| ≤ g * (m + n) := by
    have htri := abs_add_le (x - a) (y - b)
    rw [show x - a + (y - b) = x + y - (a + b) by ring] at htri
    linarith
  have hsize : |x + y| ≤ (1 + g) * (m + n) := by
    have htri := abs_sub_abs_le_abs_sub (x + y) (a + b)
    have hab := abs_add_le a b
    linarith
  calc |z - (a + b)| ≤ |z - (x + y)| + |x + y - (a + b)| := abs_sub_le _ _ _
    _ ≤ u * ((1 + g) * (m + n)) + g * (m + n) :=
        add_le_add (hz.trans (mul_le_mul_of_nonneg_left hsize hu)) herror
    _ = growth u (max i j + 1) * (m + n) := by rw [growth_succ, ← hg]; ring

/-- The error of a rounded product of approximations `x` and `y` to `a` and `b`, with an error
of `u * margin` from underflow. -/
theorem abs_sub_mul_le {margin : ℚ} (hu : 0 ≤ u) (hmargin : 0 ≤ margin) (ha : |a| ≤ m)
    (hb : |b| ≤ n) (hx : |x - a| ≤ growth u i * m) (hy : |y - b| ≤ growth u j * n)
    (hz : |z - x * y| ≤ u * |x * y| + u * margin) :
    |z - a * b| ≤ growth u (i + j + 1) * (m * n + margin) := by
  have hm := (abs_nonneg a).trans ha
  have hn := (abs_nonneg b).trans hb
  have hgi := growth_nonneg hu i
  have hgj := growth_nonneg hu j
  have hxsize : |x| ≤ (1 + growth u i) * m := by
    have := abs_sub_abs_le_abs_sub x a
    linarith
  have hysize : |y| ≤ (1 + growth u j) * n := by
    have := abs_sub_abs_le_abs_sub y b
    linarith
  have hsize : |x * y| ≤ (1 + growth u (i + j)) * (m * n) := by
    rw [abs_mul, growth_add]
    calc |x| * |y| ≤ (1 + growth u i) * m * ((1 + growth u j) * n) :=
          mul_le_mul hxsize hysize (abs_nonneg y) (by positivity)
      _ = (1 + growth u i) * (1 + growth u j) * (m * n) := by ring
  have herror : |x * y - a * b| ≤ growth u (i + j) * (m * n) := by
    have hgrowth := growth_add u i j
    calc |x * y - a * b| = |x * (y - b) + (x - a) * b| := by ring_nf
      _ ≤ |x| * |y - b| + |x - a| * |b| := by
          rw [← abs_mul, ← abs_mul]
          exact abs_add_le _ _
      _ ≤ (1 + growth u i) * m * (growth u j * n) + growth u i * m * n :=
          add_le_add (mul_le_mul hxsize hy (abs_nonneg _) (by positivity))
            (mul_le_mul hx hb (abs_nonneg b) (by positivity))
      _ = growth u (i + j) * (m * n) := by linear_combination (-m * n) * hgrowth
  calc |z - a * b| ≤ |z - x * y| + |x * y - a * b| := abs_sub_le _ _ _
    _ ≤ u * ((1 + growth u (i + j)) * (m * n)) + u * margin + growth u (i + j) * (m * n) :=
        add_le_add (hz.trans (add_le_add_left (mul_le_mul_of_nonneg_left hsize hu) _)) herror
    _ ≤ growth u (i + j + 1) * (m * n + margin) := by
        have hone := mul_le_mul_of_nonneg_right (le_growth_succ hu (i + j)) hmargin
        rw [growth_succ] at hone ⊢
        linarith

end Steps

/-- Up to depth 64 the second-order terms are below half of a unit. -/
theorem growth_le (hu : 0 ≤ u) (hsmall : u ≤ 2 ^ (-53 : ℤ)) {k : ℕ} (hk : k ≤ 64) :
    growth u k ≤ k * u + (k * u) ^ 2 := by
  have hu53 : u ≤ 1 / 9007199254740992 := hsmall.trans (by norm_num)
  induction k with
  | zero => simp [growth]
  | succ k ih =>
    have hk64 : (k : ℚ) ≤ 64 := by exact_mod_cast (Nat.le_of_succ_le hk)
    have hk0 : (0 : ℚ) ≤ k := k.cast_nonneg
    have hku : k * u ≤ 1 := by nlinarith
    have hku0 : 0 ≤ k * u := by positivity
    have hstep := ih (Nat.le_of_succ_le hk)
    rw [growth_succ]
    push_cast
    have hcube : u * (k * u) ^ 2 ≤ u * (k * u) := by
      have := mul_le_mul_of_nonneg_left hku hku0
      nlinarith
    nlinarith [mul_le_mul_of_nonneg_left hstep hu, sq_nonneg u]

theorem one_sub_two_mul_le_pow (hu : u ≤ 2) {k : ℕ} : 1 - 2 * k * u ≤ (1 - u) ^ (2 * k) := by
  have hbernoulli := one_add_mul_le_pow (show (-2 : ℚ) ≤ -u by linarith) (2 * k)
  push_cast at hbernoulli
  rw [← sub_eq_add_neg] at hbernoulli
  linarith

/-- The error bound of depth `k` in terms of a rounded magnitude. -/
theorem growth_mul_le (hu : 0 ≤ u) (hsmall : u ≤ 2 ^ (-53 : ℤ)) {k : ℕ} (hk : k ≤ 64) {m r : ℚ}
    (hm : 0 ≤ m) (hr : (1 - u) ^ (2 * k) * m ≤ r) :
    growth u k * m ≤ (k + 1 / 2) * u * r := by
  have hu53 : u ≤ 1 / 9007199254740992 := hsmall.trans (by norm_num)
  have hk64 : (k : ℚ) ≤ 64 := by exact_mod_cast hk
  have hk0 : (0 : ℚ) ≤ k := k.cast_nonneg
  have hbernoulli := one_sub_two_mul_le_pow (show u ≤ 2 by linarith) (k := k)
  have hlower : (1 - 2 * k * u) * m ≤ r := (mul_le_mul_of_nonneg_right hbernoulli hm).trans hr
  have hcoefficient : k * u + (k * u) ^ 2 ≤ (k + 1 / 2) * u * (1 - 2 * k * u) := by
    have hku : k * u ≤ 64 / 9007199254740992 := by nlinarith
    have hkku : k * (k * u) ≤ 64 * (64 / 9007199254740992) :=
      mul_le_mul hk64 hku (by positivity) (by norm_num)
    nlinarith
  calc growth u k * m ≤ (k * u + (k * u) ^ 2) * m :=
        mul_le_mul_of_nonneg_right (growth_le hu hsmall hk) hm
    _ ≤ (k + 1 / 2) * u * (1 - 2 * k * u) * m := mul_le_mul_of_nonneg_right hcoefficient hm
    _ = (k + 1 / 2) * u * ((1 - 2 * k * u) * m) := by ring
    _ ≤ (k + 1 / 2) * u * r := mul_le_mul_of_nonneg_left hlower (by positivity)

end ExactSphere.Tracked
