import ExactSphere.Binary64
import Mathlib

/-!
# Rounding to nearest over the rationals

The finite doubles are the rationals of `Representable`: at most 53 bits above the last place
`2 ^ -1074` of the smallest double. `nearest` rounds a rational to them, ties to even, without an
upper bound on the exponent; overflow is the business of the doubles themselves.

The main statements are `abs_nearest_sub_le`, no representable number is closer than the rounded
one, and what follows from it: `nearest_eq_self`, `nearest_mono`, and the error bounds
`abs_nearest_sub_le_ulp` and `abs_nearest_sub_le_unit`. That rounding keeps a number on its grid
of multiples of a power of two (`OnGrid.nearest`) is what makes error-free transformations exact.
-/

namespace ExactSphere.Binary64

/-! ## Powers of two -/

theorem le_zpow_of_le {x : ℚ} {i j : ℤ} (h : x ≤ 2 ^ i) (hij : i ≤ j) : x ≤ 2 ^ j :=
  h.trans (zpow_le_zpow_right₀ one_le_two hij)

theorem lt_zpow_of_le {x : ℚ} {i j : ℤ} (h : x ≤ 2 ^ i) (hij : i < j) : x < 2 ^ j :=
  h.trans_lt (zpow_lt_zpow_right₀ one_lt_two hij)

theorem abs_mul_le_zpow_add {x y : ℚ} {i j : ℤ} (hx : |x| ≤ 2 ^ i) (hy : |y| ≤ 2 ^ j) :
    |x * y| ≤ 2 ^ (i + j) := by
  rw [abs_mul, zpow_add₀ two_ne_zero]
  exact mul_le_mul hx hy (abs_nonneg y) (by positivity)

/-! ## Multiples of a power of two -/

/-- `x` is an integer multiple of `2 ^ e`. -/
def OnGrid (e : ℤ) (x : ℚ) : Prop := ∃ n : ℤ, x = n * 2 ^ e

namespace OnGrid

variable {e f : ℤ} {x y : ℚ}

theorem zero (e : ℤ) : OnGrid e 0 := ⟨0, by simp⟩

theorem zpow (e : ℤ) : OnGrid e (2 ^ e) := ⟨1, by simp⟩

theorem neg (h : OnGrid e x) : OnGrid e (-x) := by
  obtain ⟨n, rfl⟩ := h
  exact ⟨-n, by push_cast; ring⟩

theorem add (hx : OnGrid e x) (hy : OnGrid e y) : OnGrid e (x + y) := by
  obtain ⟨n, rfl⟩ := hx
  obtain ⟨m, rfl⟩ := hy
  exact ⟨n + m, by push_cast; ring⟩

theorem sub (hx : OnGrid e x) (hy : OnGrid e y) : OnGrid e (x - y) := by
  rw [sub_eq_add_neg]
  exact hx.add hy.neg

theorem mul (hx : OnGrid e x) (hy : OnGrid f y) : OnGrid (e + f) (x * y) := by
  obtain ⟨n, rfl⟩ := hx
  obtain ⟨m, rfl⟩ := hy
  refine ⟨n * m, ?_⟩
  rw [zpow_add₀ two_ne_zero]
  push_cast
  ring

/-- A coarser grid is part of a finer one. -/
theorem mono (h : OnGrid e x) (hfe : f ≤ e) : OnGrid f x := by
  obtain ⟨n, rfl⟩ := h
  refine ⟨n * 2 ^ (e - f).toNat, ?_⟩
  have hpow : (2 : ℚ) ^ e = 2 ^ (e - f).toNat * 2 ^ f := by
    rw [← zpow_natCast, Int.toNat_of_nonneg (by omega), ← zpow_add₀ two_ne_zero]
    congr 1
    omega
  rw [hpow]
  push_cast
  ring

theorem abs (h : OnGrid e x) : OnGrid e |x| := by
  rcases abs_choice x with hx | hx <;> rw [hx]
  · exact h
  · exact h.neg

/-- The only multiple of `2 ^ e` below `2 ^ e` is zero. -/
theorem eq_zero (h : OnGrid e x) (hlt : |x| < 2 ^ e) : x = 0 := by
  obtain ⟨n, rfl⟩ := h
  have hpos : (0 : ℚ) < 2 ^ e := by positivity
  rw [abs_mul, abs_of_pos hpos, mul_lt_iff_lt_one_left hpos] at hlt
  have hn : |n| < 1 := by exact_mod_cast hlt
  simp [Int.abs_lt_one_iff.1 hn]

/-- Different multiples of `2 ^ e` are at least `2 ^ e` apart. -/
theorem add_le_of_lt (hx : OnGrid e x) (hy : OnGrid e y) (h : x < y) : x + 2 ^ e ≤ y := by
  by_contra! hgt
  have hdiff : |y - x| < 2 ^ e := by
    rw [abs_of_pos (sub_pos.2 h)]
    linarith
  linarith [(hy.sub hx).eq_zero hdiff]

end OnGrid

/-! ## Rounding to an integer -/

/-- `x` rounded to an integer, a half to the even neighbour. -/
def roundEven (x : ℚ) : ℤ :=
  if Int.fract x < 1 / 2 then ⌊x⌋
  else if Int.fract x = 1 / 2 then ⌊x⌋ + ⌊x⌋ % 2
  else ⌊x⌋ + 1

theorem roundEven_intCast (n : ℤ) : roundEven n = n := by simp [roundEven]

theorem floor_le_roundEven (x : ℚ) : ⌊x⌋ ≤ roundEven x := by
  unfold roundEven
  split_ifs <;> omega

theorem roundEven_le_floor_add_one (x : ℚ) : roundEven x ≤ ⌊x⌋ + 1 := by
  unfold roundEven
  split_ifs <;> omega

theorem abs_roundEven_sub_le_half (x : ℚ) : |roundEven x - x| ≤ 1 / 2 := by
  have hfract : x = ⌊x⌋ + Int.fract x := (Int.floor_add_fract x).symm
  unfold roundEven
  split_ifs with hlt heq
  · rw [abs_le]
    constructor <;> linarith [Int.fract_nonneg x]
  · rcases Int.emod_two_eq_zero_or_one ⌊x⌋ with h | h <;> rw [h, abs_le] <;> push_cast <;>
      constructor <;> linarith
  · rw [abs_le]
    push_cast
    constructor <;> linarith [Int.fract_lt_one x, not_lt.1 hlt]

/-- No integer is closer than the rounded one. -/
theorem abs_roundEven_sub_le (x : ℚ) (k : ℤ) : |roundEven x - x| ≤ |k - x| := by
  rcases eq_or_ne k (roundEven x) with rfl | hne
  · exact le_rfl
  · have hdist : (1 : ℚ) ≤ |(k : ℚ) - roundEven x| := by
      exact_mod_cast Int.one_le_abs (sub_ne_zero.2 hne)
    have hsplit : |(k : ℚ) - roundEven x| ≤ |k - x| + |roundEven x - x| := by
      rw [abs_sub_comm (roundEven x : ℚ) x]
      exact abs_sub_le _ _ _
    linarith [abs_roundEven_sub_le_half x]

theorem roundEven_neg (x : ℚ) : roundEven (-x) = -roundEven x := by
  rcases eq_or_ne (Int.fract x) 0 with hz | hz
  · obtain ⟨n, rfl⟩ : ∃ n : ℤ, x = n := ⟨⌊x⌋, by linarith [Int.floor_add_fract x]⟩
    rw [← Int.cast_neg, roundEven_intCast, roundEven_intCast]
  · have hceil : ⌈x⌉ = ⌊x⌋ + 1 := by
      refine (Int.ceil_eq_floor_add_one_iff_notMem x).2 ?_
      rintro ⟨n, rfl⟩
      simp at hz
    have hfract : Int.fract (-x) = 1 - Int.fract x := Int.fract_neg hz
    unfold roundEven
    rw [Int.floor_neg, hceil, hfract]
    grind

/-! ## Representable numbers -/

/-- The finite doubles without their exponent limit: at most 53 bits above `2 ^ -1074`. -/
def Representable (x : ℚ) : Prop := ∃ e, -1074 ≤ e ∧ OnGrid e x ∧ |x| ≤ 2 ^ (e + 53)

namespace Representable

variable {x y : ℚ}

theorem zero : Representable 0 := ⟨0, by omega, .zero 0, by rw [abs_zero]; positivity⟩

theorem neg (h : Representable x) : Representable (-x) := by
  obtain ⟨e, he, hgrid, hle⟩ := h
  exact ⟨e, he, hgrid.neg, by rwa [abs_neg]⟩

theorem abs (h : Representable x) : Representable |x| := by
  rcases abs_choice x with hx | hx <;> rw [hx]
  · exact h
  · exact h.neg

theorem zpow {e : ℤ} (he : -1074 ≤ e) : Representable (2 ^ e) :=
  ⟨e, he, .zpow e, by
    rw [abs_of_pos (by positivity)]
    exact zpow_le_zpow_right₀ one_le_two (by omega)⟩

theorem onGrid (h : Representable x) : OnGrid (-1074) x := by
  obtain ⟨e, he, hgrid, _⟩ := h
  exact hgrid.mono he

/-- A representable number that is not below `2 ^ (e + 52)` is a multiple of `2 ^ e`. -/
theorem onGrid_of_le (h : Representable x) {e : ℤ} (hle : 2 ^ (e + 52) ≤ |x|) :
    OnGrid e x := by
  obtain ⟨f, _, hgrid, hf⟩ := h
  rcases le_or_gt e f with hef | hfe
  · exact hgrid.mono hef
  · have hpow : (2 : ℚ) ^ (f + 53) ≤ 2 ^ (e + 52) := zpow_le_zpow_right₀ one_le_two (by omega)
    have habs : |x| = 2 ^ (e + 52) := le_antisymm (hf.trans hpow) hle
    have hpower : OnGrid e |x| := habs ▸ (OnGrid.zpow (e + 52)).mono (by omega)
    rcases abs_choice x with hx | hx <;> rw [hx] at hpower
    · exact hpower
    · simpa using hpower.neg

end Representable

/-- The exponent of the last place of a double as large as `x`. -/
def ulpExponent (x : ℚ) : ℤ := if x = 0 then -1074 else max (Int.log 2 |x| - 52) (-1074)

theorem ulpExponent_of_ne_zero {x : ℚ} (h : x ≠ 0) :
    ulpExponent x = max (Int.log 2 |x| - 52) (-1074) := if_neg h

theorem ulpExponent_neg (x : ℚ) : ulpExponent (-x) = ulpExponent x := by
  simp only [ulpExponent, neg_eq_zero, abs_neg]

theorem min_le_ulpExponent (x : ℚ) : -1074 ≤ ulpExponent x := by
  unfold ulpExponent
  split_ifs
  · exact le_rfl
  · exact le_max_right _ _

theorem abs_lt_zpow_ulpExponent (x : ℚ) : |x| < 2 ^ (ulpExponent x + 53) := by
  rcases eq_or_ne x 0 with rfl | hx
  · rw [abs_zero]
    positivity
  · refine (Int.lt_zpow_succ_log_self one_lt_two |x|).trans_le ?_
    rw [Nat.cast_ofNat, ulpExponent_of_ne_zero hx]
    exact zpow_le_zpow_right₀ one_le_two (by omega)

theorem zpow_ulpExponent_le {x : ℚ} (h : -1074 < ulpExponent x) :
    2 ^ (ulpExponent x + 52) ≤ |x| := by
  have hx : x ≠ 0 := by
    rintro rfl
    simp [ulpExponent] at h
  rw [ulpExponent_of_ne_zero hx] at h ⊢
  rw [show max (Int.log 2 |x| - 52) (-1074) + 52 = Int.log 2 |x| by omega]
  exact_mod_cast Int.zpow_log_le_self one_lt_two (abs_pos.2 hx)

theorem ulpExponent_le {x : ℚ} {e : ℤ} (he : -1074 ≤ e) (h : |x| < 2 ^ (e + 53)) :
    ulpExponent x ≤ e := by
  by_contra! hlt
  have hle := zpow_ulpExponent_le (x := x) (by omega)
  have hpow : (2 : ℚ) ^ (e + 53) ≤ 2 ^ (ulpExponent x + 52) :=
    zpow_le_zpow_right₀ one_le_two (by omega)
  linarith

theorem le_ulpExponent {x : ℚ} {e : ℤ} (h : 2 ^ (e + 52) ≤ |x|) : e ≤ ulpExponent x := by
  have hpos : 0 < |x| := lt_of_lt_of_le (by positivity) h
  have hlog : e + 52 ≤ Int.log 2 |x| := by
    refine (Int.zpow_le_iff_le_log one_lt_two hpos).1 ?_
    exact_mod_cast h
  rw [ulpExponent_of_ne_zero (abs_pos.1 hpos)]
  omega

/-! ## Rounding to a double -/

/-- The representable number nearest to `x`, of two nearest ones that with an even last place. -/
def nearest (x : ℚ) : ℚ := roundEven (x / 2 ^ ulpExponent x) * 2 ^ ulpExponent x

theorem nearest_neg (x : ℚ) : nearest (-x) = -nearest x := by
  rw [nearest, nearest, ulpExponent_neg, neg_div, roundEven_neg]
  push_cast
  ring

theorem onGrid_nearest (x : ℚ) : OnGrid (ulpExponent x) (nearest x) := ⟨_, rfl⟩

private theorem abs_div_ulp_lt (x : ℚ) : |x / 2 ^ ulpExponent x| < 2 ^ 53 := by
  have hpos : (0 : ℚ) < 2 ^ ulpExponent x := by positivity
  rw [abs_div, abs_of_pos hpos, div_lt_iff₀ hpos]
  have h := abs_lt_zpow_ulpExponent x
  rwa [zpow_add₀ two_ne_zero, mul_comm] at h

theorem abs_roundEven_div_ulp_le (x : ℚ) : |roundEven (x / 2 ^ ulpExponent x)| ≤ 2 ^ 53 := by
  have hlt := abs_lt.1 (abs_div_ulp_lt x)
  refine abs_le.2 ⟨?_, ?_⟩
  · have hfloor : -2 ^ 53 ≤ ⌊x / 2 ^ ulpExponent x⌋ :=
      Int.le_floor.2 (by exact_mod_cast hlt.1.le)
    exact hfloor.trans (floor_le_roundEven _)
  · have hfloor : ⌊x / 2 ^ ulpExponent x⌋ < 2 ^ 53 := Int.floor_lt.2 (by exact_mod_cast hlt.2)
    have := roundEven_le_floor_add_one (x / 2 ^ ulpExponent x)
    omega

theorem representable_nearest (x : ℚ) : Representable (nearest x) := by
  refine ⟨ulpExponent x, min_le_ulpExponent x, onGrid_nearest x, ?_⟩
  have habs : |(roundEven (x / 2 ^ ulpExponent x) : ℚ)| ≤ 2 ^ 53 := by
    exact_mod_cast abs_roundEven_div_ulp_le x
  have hpos : (0 : ℚ) < 2 ^ ulpExponent x := by positivity
  rw [nearest, abs_mul, abs_of_pos hpos, zpow_add₀ two_ne_zero, mul_comm]
  exact mul_le_mul_of_nonneg_left habs hpos.le

private theorem abs_nearest_sub (x : ℚ) :
    |nearest x - x| = |roundEven (x / 2 ^ ulpExponent x) - x / 2 ^ ulpExponent x| *
      2 ^ ulpExponent x := by
  have hpos : (0 : ℚ) < 2 ^ ulpExponent x := by positivity
  have hx : x / 2 ^ ulpExponent x * 2 ^ ulpExponent x = x := div_mul_cancel₀ x hpos.ne'
  rw [← abs_of_pos hpos, ← abs_mul, sub_mul, abs_of_pos hpos, hx, nearest]

/-- No representable number is closer to `x` than the rounded one. -/
theorem abs_nearest_sub_le {x y : ℚ} (hy : Representable y) : |nearest x - x| ≤ |y - x| := by
  have hpos : (0 : ℚ) < 2 ^ ulpExponent x := by positivity
  rw [abs_nearest_sub, ← le_div_iff₀ hpos]
  obtain ⟨f, hf, hgrid, hle⟩ := hy
  rcases le_or_gt (ulpExponent x) f with h | h
  · -- `y` is on the grid of `x`, where rounding is to the nearest integer
    obtain ⟨k, rfl⟩ := hgrid.mono h
    refine (abs_roundEven_sub_le _ k).trans_eq ?_
    rw [← abs_of_pos hpos, ← abs_div, sub_div, abs_of_pos hpos, mul_div_cancel_right₀ _ hpos.ne']
  · -- `y` lies below the binade of `x`, whose lower end is on the grid
    have hx := zpow_ulpExponent_le (x := x) (by omega)
    have hyx : |y| ≤ 2 ^ (ulpExponent x + 52) :=
      le_zpow_of_le hle (by omega)
    have hend : |roundEven (x / 2 ^ ulpExponent x) - x / 2 ^ ulpExponent x| ≤
        |x / 2 ^ ulpExponent x| - 2 ^ 52 := by
      have hbinade : (2 : ℚ) ^ 52 ≤ |x / 2 ^ ulpExponent x| := by
        rw [abs_div, abs_of_pos hpos, le_div_iff₀ hpos]
        rwa [zpow_add₀ two_ne_zero, mul_comm] at hx
      rcases abs_choice (x / 2 ^ ulpExponent x) with hsign | hsign <;> rw [hsign] at hbinade ⊢
      · refine (abs_roundEven_sub_le _ (2 ^ 52)).trans_eq ?_
        push_cast
        rw [abs_sub_comm, abs_of_nonneg (by linarith)]
        norm_num
      · refine (abs_roundEven_sub_le _ (-2 ^ 52)).trans_eq ?_
        push_cast
        rw [abs_of_nonneg (by linarith)]
        ring
    refine hend.trans ?_
    rw [le_div_iff₀ hpos, sub_mul, abs_div, abs_of_pos hpos, div_mul_cancel₀ _ hpos.ne']
    have hpow : (2 : ℚ) ^ (ulpExponent x + 52) = 2 ^ 52 * 2 ^ ulpExponent x := by
      rw [zpow_add₀ two_ne_zero, mul_comm]
      norm_cast
    have htri := abs_sub_abs_le_abs_sub x y
    rw [abs_sub_comm] at htri
    linarith

theorem nearest_eq_self {x : ℚ} (h : Representable x) : nearest x = x := by
  have hle := abs_nearest_sub_le (x := x) h
  rw [sub_self, abs_zero] at hle
  exact sub_eq_zero.1 (abs_nonpos_iff.1 hle)

@[simp] theorem nearest_zero : nearest 0 = 0 := nearest_eq_self .zero

theorem nearest_mono {x y : ℚ} (h : x ≤ y) : nearest x ≤ nearest y := by
  rcases h.eq_or_lt with rfl | hlt
  · exact le_rfl
  · by_contra! hgt
    have hx := abs_nearest_sub_le (x := x) (representable_nearest y)
    have hy := abs_nearest_sub_le (x := y) (representable_nearest x)
    -- `x` is not below the middle of the two rounded values, and `y` is not above it
    grind

theorem nearest_nonneg {x : ℚ} (h : 0 ≤ x) : 0 ≤ nearest x := by
  simpa using nearest_mono h

theorem abs_nearest (x : ℚ) : |nearest x| = nearest |x| := by
  rcases le_total 0 x with h | h
  · rw [abs_of_nonneg h, abs_of_nonneg (nearest_nonneg h)]
  · have hneg := nearest_nonneg (neg_nonneg.2 h)
    rw [nearest_neg] at hneg
    rw [abs_of_nonpos h, nearest_neg, abs_of_nonpos (by linarith)]

theorem abs_nearest_mono {x y : ℚ} (h : |x| ≤ y) : |nearest x| ≤ nearest y := by
  rw [abs_nearest]
  exact nearest_mono h

/-! ## Rounding errors -/

theorem abs_nearest_sub_le_ulp (x : ℚ) : |nearest x - x| ≤ 2 ^ (ulpExponent x - 1) := by
  have hpos : (0 : ℚ) < 2 ^ ulpExponent x := by positivity
  rw [abs_nearest_sub, zpow_sub_one₀ two_ne_zero]
  nlinarith [abs_roundEven_sub_le_half (x / 2 ^ ulpExponent x)]

/-- The rounding error within a binade. -/
theorem abs_nearest_sub_le_of_le {x : ℚ} {e : ℤ} (he : -1074 ≤ e) (h : |x| ≤ 2 ^ (e + 53)) :
    |nearest x - x| ≤ 2 ^ (e - 1) := by
  rcases h.lt_or_eq with hlt | heq
  · refine (abs_nearest_sub_le_ulp x).trans (zpow_le_zpow_right₀ one_le_two ?_)
    have := ulpExponent_le he hlt
    omega
  · have hgrid : OnGrid e |x| := heq ▸ (OnGrid.zpow (e + 53)).mono (by omega)
    have hx : OnGrid e x := by
      rcases abs_choice x with hx | hx <;> rw [hx] at hgrid
      · exact hgrid
      · simpa using hgrid.neg
    rw [nearest_eq_self ⟨e, he, hx, h⟩, sub_self, abs_zero]
    positivity

/-- Below `2 ^ -1021` the error is at most half of the smallest double. -/
theorem abs_nearest_sub_le_of_small {x : ℚ} (h : |x| ≤ 2 ^ (-1021 : ℤ)) :
    |nearest x - x| ≤ 2 ^ (-1075 : ℤ) := by
  rw [show (-1021 : ℤ) = -1074 + 53 by norm_num] at h
  rw [show (-1075 : ℤ) = -1074 - 1 by norm_num]
  exact abs_nearest_sub_le_of_le le_rfl h

/-- The relative error of a number that does not underflow. -/
theorem abs_nearest_sub_le_unit {x : ℚ} (h : 2 ^ (-1022 : ℤ) ≤ |x|) :
    |nearest x - x| ≤ 2 ^ (-53 : ℤ) * |x| := by
  have hulp := abs_nearest_sub_le_ulp x
  have hpos : 0 < |x| := lt_of_lt_of_le (by positivity) h
  have hlog : ulpExponent x - 1 = -53 + Int.log 2 |x| := by
    have hle : (-1022 : ℤ) ≤ Int.log 2 |x| := by
      refine (Int.zpow_le_iff_le_log one_lt_two hpos).1 ?_
      exact_mod_cast h
    rw [ulpExponent_of_ne_zero (abs_pos.1 hpos)]
    omega
  rw [hlog, zpow_add₀ two_ne_zero] at hulp
  refine hulp.trans (mul_le_mul_of_nonneg_left ?_ (by positivity))
  exact_mod_cast Int.zpow_log_le_self one_lt_two hpos

/-! ## Grids -/

/-- Rounding does not leave a grid. -/
theorem OnGrid.nearest {e : ℤ} {x : ℚ} (h : OnGrid e x) : OnGrid e (nearest x) := by
  rcases le_total e (ulpExponent x) with hle | hle
  · exact (onGrid_nearest x).mono hle
  · rw [nearest_eq_self]
    · exact h
    · exact ⟨ulpExponent x, min_le_ulpExponent x, h.mono hle, (abs_lt_zpow_ulpExponent x).le⟩

/-- The rounding of a number that is not below `2 ^ (e + 52)` is a multiple of `2 ^ e`. -/
theorem onGrid_nearest_of_le {e : ℤ} {x : ℚ} (h : 2 ^ (e + 52) ≤ |x|) : OnGrid e (nearest x) :=
  (onGrid_nearest x).mono (le_ulpExponent h)

/-- A multiple of the smallest double never underflows. -/
theorem representable_of_onGrid {e : ℤ} {x : ℚ} (hgrid : OnGrid e x) (hmin : OnGrid (-1074) x)
    (hle : |x| ≤ 2 ^ (e + 53)) : Representable x := by
  rcases le_total (-1074) e with he | he
  · exact ⟨e, he, hgrid, hle⟩
  · exact ⟨-1074, le_rfl, hmin, le_zpow_of_le hle (by omega)⟩

/-- A number on both grids has no error beyond half a unit, however small the unit is. -/
theorem abs_nearest_sub_le_of_onGrid {e : ℤ} {x : ℚ} (hmin : OnGrid (-1074) x)
    (h : |x| ≤ 2 ^ (e + 53)) : |nearest x - x| ≤ 2 ^ (e - 1) := by
  rcases le_total (-1074) e with he | he
  · exact abs_nearest_sub_le_of_le he h
  · have hsmall : |x| ≤ 2 ^ ((-1074 : ℤ) + 53) :=
      le_zpow_of_le h (by omega)
    rw [nearest_eq_self ⟨-1074, le_rfl, hmin, hsmall⟩, sub_self, abs_zero]
    positivity

/-- Rounding does not cross a power of two. -/
theorem abs_nearest_le_zpow {e : ℤ} {x : ℚ} (he : -1074 ≤ e) (h : |x| ≤ 2 ^ e) :
    |nearest x| ≤ 2 ^ e :=
  (abs_nearest_mono h).trans_eq (nearest_eq_self (.zpow he))

/-- On the grid of the doubles rounding has a relative error, however small the number is. -/
theorem abs_nearest_sub_le_unit_of_onGrid {x : ℚ} (h : OnGrid (-1074) x) :
    |nearest x - x| ≤ 2 ^ (-53 : ℤ) * |x| := by
  rcases le_total |x| (2 ^ (-1021 : ℤ)) with hle | hle
  · rw [nearest_eq_self ⟨-1074, le_rfl, h, hle⟩, sub_self, abs_zero]
    positivity
  · exact abs_nearest_sub_le_unit ((zpow_le_zpow_right₀ one_le_two (by norm_num)).trans hle)

/-- Elsewhere there is the error of an underflow, too. -/
theorem abs_nearest_sub_le_unit_add (x : ℚ) :
    |nearest x - x| ≤ 2 ^ (-53 : ℤ) * |x| + 2 ^ (-1075 : ℤ) := by
  have hrelative : (0 : ℚ) ≤ 2 ^ (-53 : ℤ) * |x| := by positivity
  have habsolute : (0 : ℚ) ≤ 2 ^ (-1075 : ℤ) := by positivity
  rcases le_total |x| (2 ^ (-1021 : ℤ)) with hle | hle
  · linarith [abs_nearest_sub_le_of_small hle]
  · have hnormal : 2 ^ (-1022 : ℤ) ≤ |x| :=
      (zpow_le_zpow_right₀ one_le_two (by norm_num)).trans hle
    linarith [abs_nearest_sub_le_unit hnormal]

theorem zpow_le_abs_nearest {e : ℤ} {x : ℚ} (he : -1074 ≤ e) (h : 2 ^ e ≤ |x|) :
    2 ^ e ≤ |nearest x| := by
  rw [abs_nearest, ← nearest_eq_self (.zpow he)]
  exact nearest_mono h

/-- A number below half the smallest double vanishes. -/
theorem nearest_eq_zero {x : ℚ} (h : |x| < 2 ^ (-1075 : ℤ)) : nearest x = 0 := by
  refine (representable_nearest x).onGrid.eq_zero ?_
  have herror := abs_nearest_sub_le (x := x) .zero
  have htri := abs_add_le (nearest x - x) x
  rw [zero_sub, abs_neg] at herror
  rw [sub_add_cancel] at htri
  rw [show (-1074 : ℤ) = 1 + -1075 by norm_num, zpow_one_add₀ two_ne_zero]
  linarith

/-! ## Sums of representable numbers -/

variable {x y : ℚ}

/-- The grid of the smaller of two numbers is common to both. -/
theorem exists_common_grid (hx : Representable x) (hy : Representable y) (h : |y| ≤ |x|) :
    ∃ e, -1074 ≤ e ∧ OnGrid e x ∧ OnGrid e y ∧ |y| < 2 ^ (e + 53) := by
  refine ⟨ulpExponent y, min_le_ulpExponent y, ?_, ?_, abs_lt_zpow_ulpExponent y⟩
  · rcases (min_le_ulpExponent y).eq_or_lt with heq | hlt
    · rw [← heq]
      exact hx.onGrid
    · exact hx.onGrid_of_le ((zpow_ulpExponent_le hlt).trans h)
  · have hgrid := onGrid_nearest y
    rwa [nearest_eq_self hy] at hgrid

/-- No sum is farther from its rounding than the smaller term. -/
theorem abs_nearest_add_sub_le_right (hx : Representable x) :
    |nearest (x + y) - (x + y)| ≤ |y| := by
  have hle := abs_nearest_sub_le (x := x + y) hx
  rwa [show x - (x + y) = -y by ring, abs_neg] at hle

/-- The error of a rounded sum is representable. -/
theorem representable_sub_nearest (hx : Representable x) (hy : Representable y) :
    Representable (x + y - nearest (x + y)) := by
  wlog h : |y| ≤ |x| generalizing x y
  · rw [add_comm x y]
    exact this hy hx (le_of_not_ge h)
  · obtain ⟨e, he, hgx, hgy, hlt⟩ := exists_common_grid hx hy h
    refine ⟨e, he, (hgx.add hgy).sub (hgx.add hgy).nearest, ?_⟩
    rw [abs_sub_comm]
    exact (abs_nearest_add_sub_le_right hx).trans hlt.le

/-- A sum that is not larger than its terms is exact. -/
theorem representable_add_of_abs_le (hx : Representable x) (hy : Representable y)
    (hlx : |x + y| ≤ |x|) (hly : |x + y| ≤ |y|) : Representable (x + y) := by
  wlog h : |y| ≤ |x| generalizing x y
  · rw [add_comm x y] at hlx hly ⊢
    exact this hy hx hly hlx (le_of_not_ge h)
  · obtain ⟨e, he, hgx, hgy, hlt⟩ := exists_common_grid hx hy h
    exact ⟨e, he, hgx.add hgy, hly.trans hlt.le⟩

/-- What a rounded sum adds to its larger term is representable. -/
theorem representable_nearest_sub (hx : Representable x) (hy : Representable y) (h : |y| ≤ |x|) :
    Representable (nearest (x + y) - x) := by
  obtain ⟨e, he, hgx, hgy, hlt⟩ := exists_common_grid hx hy h
  have hgs := (hgx.add hgy).nearest
  have hpos : (0 : ℚ) < 2 ^ e := by positivity
  have hgap := hgy.abs.add_le_of_lt ((OnGrid.zpow (e + 53)).mono (by omega)) hlt
  rw [zpow_add₀ two_ne_zero] at hlt hgap
  have htri := abs_add_le (nearest (x + y) - (x + y)) y
  rw [show nearest (x + y) - (x + y) + y = nearest (x + y) - x by ring] at htri
  rcases le_or_gt |x + y| (2 ^ (e + 54)) with hsmall | hlarge
  · -- the sum has at most one bit more than the grid
    have herror := abs_nearest_sub_le_of_le (e := e + 1) (by omega)
      (hsmall.trans_eq (by congr 1; ring))
    rw [add_sub_cancel_right] at herror
    refine ⟨e, he, hgs.sub hgx, ?_⟩
    rw [zpow_add₀ two_ne_zero]
    linarith
  · have hx53 : 2 ^ (e + 1 + 52) ≤ |x| := by
      have := abs_add_le x y
      rw [zpow_add₀ two_ne_zero] at hlarge
      rw [add_assoc, zpow_add₀ two_ne_zero]
      norm_num at hlarge hlt ⊢
      linarith
    have hs53 : 2 ^ (e + 1 + 52) ≤ |x + y| :=
      hlarge.le.trans' (zpow_le_zpow_right₀ one_le_two (by omega))
    refine ⟨e + 1, by omega, (onGrid_nearest_of_le hs53).sub (hx.onGrid_of_le hx53), ?_⟩
    have herror := abs_nearest_add_sub_le_right (y := y) hx
    rw [add_assoc, zpow_add₀ two_ne_zero]
    norm_num at hlt ⊢
    linarith

end ExactSphere.Binary64
