import ExactSphere.Proofs.Rounding.Pick

/-!
# Rounding to a number of digits

Numbers of at most `k` digits (`FitsDigits`) are no grid, but near a number they are the multiples
of its `k`-th digit's place. So a mode picks among them what it picks among these multiples
(`RoundingMode.picks_digits`).
-/

namespace ExactSphere

/-- `v` has at most `k` digits to the base `b`, wherever they stand. -/
def FitsDigits (b k : ℕ) (v : ℚ) : Prop := ∃ n f : ℤ, |n| < b ^ k ∧ v = n * b ^ f

/-- The first digit of `v` to the base `b` stands `k - 1` places above `place`. -/
structure LastPlace (b k : ℕ) (place : ℤ) (v : ℚ) : Prop where
  le : b ^ (place + k - 1) ≤ |v|
  lt : |v| < b ^ (place + k)

variable {b k : ℕ} {place : ℤ} {u v w : ℚ}

/-- A power at least as large as the place is a multiple of it. -/
theorem multiple_zpow (hb : b ≠ 0) {f : ℤ} (h : place ≤ f) (n : ℤ) :
    Multiple (b ^ place) (n * b ^ f) := by
  have hsplit : (b : ℚ) ^ f = b ^ (f - place).toNat * b ^ place := by
    rw [← zpow_natCast, ← zpow_add₀ (by exact_mod_cast hb), Int.toNat_of_nonneg (by omega),
      sub_add_cancel]
  refine ⟨n * b ^ (f - place).toNat, ?_⟩
  rw [hsplit]
  push_cast
  ring

theorem abs_mul_zpow_lt (hb : b ≠ 0) {n f : ℤ} (hn : |n| < b ^ k) :
    |(n * b ^ f : ℚ)| < b ^ (f + k) := by
  have hpos : (0 : ℚ) < b := by exact_mod_cast Nat.pos_of_ne_zero hb
  have hlt : |(n : ℚ)| < b ^ k := by exact_mod_cast hn
  rw [abs_mul, abs_of_pos (zpow_pos hpos f), add_comm, zpow_add₀ hpos.ne', zpow_natCast]
  exact mul_lt_mul_of_pos_right hlt (zpow_pos hpos f)

/-- Between a number of `k` digits and `v` lies a multiple of the place of the last digit of `v`. -/
theorem FitsDigits.exists_between (hb : 1 < b) (hk : k ≠ 0) (hu : FitsDigits b k u)
    (hv : LastPlace b k place v) :
    ∃ u', Multiple (b ^ place) u' ∧ RoundingMode.Between u v u' := by
  obtain ⟨n, f, hn, rfl⟩ := hu
  have hb0 : b ≠ 0 := by omega
  rcases le_or_gt place f with hle | hlt
  · refine ⟨_, multiple_zpow hb0 hle n, ?_⟩
    rcases le_total (n * b ^ f : ℚ) v with h | h
    · exact .inl ⟨le_rfl, h⟩
    · exact .inr ⟨h, le_rfl⟩
  · -- `u` is smaller than the power where the digits of `v` start
    have hone : (1 : ℚ) < b := by exact_mod_cast hb
    have hsmall : |(n * b ^ f : ℚ)| < b ^ (place + k - 1) :=
      (abs_mul_zpow_lt hb0 hn).trans_le (zpow_le_zpow_right₀ hone.le (by omega))
    obtain ⟨hlow, hhigh⟩ := abs_lt.1 hsmall
    have hplace : place ≤ place + k - 1 := by omega
    have hle := hv.le
    rcases le_total 0 v with hsign | hsign
    · rw [abs_of_nonneg hsign] at hle
      refine ⟨_, multiple_zpow hb0 hplace 1, .inl ?_⟩
      rw [Int.cast_one, one_mul]
      exact ⟨hhigh.le, hle⟩
    · rw [abs_of_nonpos hsign] at hle
      refine ⟨_, multiple_zpow hb0 hplace (-1), .inr ?_⟩
      rw [Int.cast_neg, Int.cast_one, neg_one_mul]
      exact ⟨by linarith, hlow.le⟩

/-- A carry beyond the first of `k` digits leaves a single one. -/
theorem fitsDigits_of_le (hb : 1 < b) (hk : k ≠ 0) {n : ℤ} (hn : |n| ≤ b ^ k) :
    FitsDigits b k (n * b ^ place) := by
  rcases hn.lt_or_eq with hlt | heq
  · exact ⟨n, place, hlt, rfl⟩
  have hone : ((1 : ℕ) : ℤ) < (b ^ k : ℕ) := by exact_mod_cast Nat.one_lt_pow hk hb
  have hb0 : (b : ℚ) ≠ 0 := by exact_mod_cast (show b ≠ 0 by omega)
  rcases abs_choice n with habs | habs
  · refine ⟨1, k + place, by simpa using hone, ?_⟩
    rw [habs] at heq
    rw [heq, zpow_add₀ hb0]
    push_cast
    simp
  · refine ⟨-1, k + place, by simpa using hone, ?_⟩
    rw [show n = -b ^ k by omega, zpow_add₀ hb0]
    push_cast
    simp

/-- In units of its last place, a number lies between two powers of the base. -/
theorem LastPlace.le_abs_div (hb : b ≠ 0) (hk : k ≠ 0) (hv : LastPlace b k place v) :
    (b ^ (k - 1) : ℕ) ≤ |v / b ^ place| := by
  have hb0 : (b : ℚ) ≠ 0 := by exact_mod_cast hb
  have hpos : (0 : ℚ) < b ^ place := zpow_pos (by exact_mod_cast Nat.pos_of_ne_zero hb) place
  have hle := hv.le
  rw [show place + k - 1 = (k - 1 : ℕ) + place by omega, zpow_add₀ hb0, zpow_natCast] at hle
  rw [abs_div, abs_of_pos hpos, le_div_iff₀ hpos]
  exact_mod_cast hle

theorem LastPlace.abs_div_lt (hb : b ≠ 0) (hv : LastPlace b k place v) :
    |v / b ^ place| < (b ^ k : ℕ) := by
  have hb0 : (b : ℚ) ≠ 0 := by exact_mod_cast hb
  have hpos : (0 : ℚ) < b ^ place := zpow_pos (by exact_mod_cast Nat.pos_of_ne_zero hb) place
  have hlt := hv.lt
  rw [add_comm, zpow_add₀ hb0, zpow_natCast] at hlt
  rw [abs_div, abs_of_pos hpos, div_lt_iff₀ hpos]
  exact_mod_cast hlt

/-- Among the numbers of `k` digits, a mode picks the rounded multiple of the last place. -/
theorem RoundingMode.picks_digits (hb : 1 < b) (hk : k ≠ 0) (hv : LastPlace b k place v)
    (mode : RoundingMode) :
    mode.Picks (FitsDigits b k) (Multiple (2 * b ^ place)) v
      (mode.integer (v / b ^ place) * b ^ place) := by
  have hpos : (0 : ℚ) < b ^ place := zpow_pos (by exact_mod_cast (show 0 < b by omega)) place
  have hquotient := (hv.abs_div_lt (by omega)).le
  exact (picks_multiple hpos mode v).of_between
    (fitsDigits_of_le hb hk (by exact_mod_cast abs_integer_le mode hquotient))
    (fun u hu => hu.exists_between hb hk hv)

end ExactSphere
