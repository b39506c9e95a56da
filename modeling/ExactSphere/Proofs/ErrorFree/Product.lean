import ExactSphere.Proofs.ErrorFree.Split

/-!
# The error of a product

`twoProduct` gives the rounded product and its error, exactly but for the partial products that
underflow (`number_of_twoProduct`). The computed error is a number unless a split overflows, which
leaves NaN, or the product of the high words does, which leaves the infinity of a product that is
close to overflow itself (`datum_twoProduct`). Away from both ends of the range the two words add up
to the product (`twoProduct_exact`).
-/

namespace ExactSphere.ErrorFree

open Binary64

variable {x y : ℚ} {a b : Float}

/-! ## Partial products -/

/-- The error of a partial product of numbers on a grid: one that lies below the doubles can cost
half a unit of the smallest double. -/
def underflow (e : ℤ) : ℚ := if -1074 ≤ e then 0 else 2 ^ (-1075 : ℤ)

theorem underflow_nonneg (e : ℤ) : 0 ≤ underflow e := by
  unfold underflow
  split_ifs
  · exact le_rfl
  · positivity

theorem underflow_le (e : ℤ) : underflow e ≤ 2 ^ (-1075 : ℤ) := by
  unfold underflow
  split_ifs
  · positivity
  · exact le_rfl

theorem underflow_eq_zero {e : ℤ} (h : -1074 ≤ e) : underflow e = 0 := if_pos h

/-- The error of a product of 53 bits. -/
theorem abs_nearest_sub_le_underflow {e f : ℤ} {z : ℚ} (hfe : e ≤ f) (hgrid : OnGrid f z)
    (hle : |z| ≤ 2 ^ (f + 53)) : |nearest z - z| ≤ underflow e := by
  rcases le_or_gt (-1074) f with hf | hf
  · rw [nearest_eq_self ⟨f, hf, hgrid, hle⟩, sub_self, abs_zero]
    exact underflow_nonneg e
  · rw [underflow, if_neg (by omega)]
    refine abs_nearest_sub_le_of_small (hle.trans ?_)
    exact zpow_le_zpow_right₀ one_le_two (by omega)

/-- The error of a product of 106 bits. -/
theorem abs_nearest_sub_le_add_underflow {e : ℤ} {z : ℚ} (hle : |z| ≤ 2 ^ (e + 106)) :
    |nearest z - z| ≤ 2 ^ (e + 52) + underflow e := by
  have hpos : (0 : ℚ) < 2 ^ (e + 52) := by positivity
  rcases le_or_gt (-1074) (e + 53) with he | he
  · have herror := abs_nearest_sub_le_of_le he (x := z) (by rwa [add_assoc])
    rw [show e + 53 - 1 = e + 52 by ring] at herror
    linarith [underflow_nonneg e]
  · rw [underflow, if_neg (by omega)]
    linarith [abs_nearest_sub_le_of_small (le_zpow_of_le hle (by omega))]

/-- A number of 53 bits on its own grid, apart from a few units of underflow, is representable. -/
theorem representable_of_le_add {e : ℤ} {z : ℚ} (hgrid : OnGrid e z) (hmin : OnGrid (-1074) z)
    (hle : |z| ≤ 3 / 2 * 2 ^ (e + 52) + 8 * 2 ^ (-1075 : ℤ)) : Representable z := by
  have hpow : ∀ f : ℤ, (2 : ℚ) ^ (f + 52) = 4503599627370496 * 2 ^ f := fun f => by
    rw [zpow_add₀ two_ne_zero, mul_comm]
    norm_num
  have hpow' : ∀ f : ℤ, (2 : ℚ) ^ (f + 53) = 9007199254740992 * 2 ^ f := fun f => by
    rw [zpow_add₀ two_ne_zero, mul_comm]
    norm_num
  rcases le_or_gt (-1074) e with he | he
  · have hunit : (2 : ℚ) ^ (-1075 : ℤ) ≤ 2 ^ e := zpow_le_zpow_right₀ one_le_two (by omega)
    have hpos : (0 : ℚ) < 2 ^ e := by positivity
    exact ⟨e, he, hgrid, by linarith [hpow e, hpow' e]⟩
  · have hunit : (2 : ℚ) ^ e ≤ 2 ^ (-1074 : ℤ) := zpow_le_zpow_right₀ one_le_two (by omega)
    have hhalf : (2 : ℚ) ^ (-1075 : ℤ) ≤ 2 ^ (-1074 : ℤ) :=
      zpow_le_zpow_right₀ one_le_two (by norm_num)
    have hpos : (0 : ℚ) < 2 ^ (-1074 : ℤ) := by positivity
    exact ⟨-1074, le_rfl, hmin, by linarith [hpow e, hpow' (-1074)]⟩

/-- What `twoProduct` computes for the error of a product `p` of split numbers. -/
def errorOfProduct (xh xl yh yl p : ℚ) : ℚ :=
  nearest (nearest (xl * yl) - nearest (nearest (nearest (p - nearest (xh * yh))
    - nearest (xl * yh)) - nearest (xh * yl)))

section Product

variable {e f : ℤ} {xh xl yh yl : ℚ}

/-- The size of a product of numbers of `i` and `j` bits. -/
theorem abs_mul_le_zpow {i j : ℤ} (hx : |x| ≤ 2 ^ (e + i)) (hy : |y| ≤ 2 ^ (f + j)) :
    |x * y| ≤ 2 ^ (e + f + (i + j)) := by
  rw [add_add_add_comm]
  exact abs_mul_le_zpow_add hx hy

theorem Scaled.abs_mul_le (hx : Scaled e x) (hy : Scaled f y) : |x * y| ≤ 2 ^ (e + f + 106) :=
  (abs_mul_le_zpow hx.lt.le hy.lt.le).trans_eq (by norm_num)

theorem Scaled.le_abs_mul (hx : Scaled e x) (hy : Scaled f y) (h0 : x * y ≠ 0) :
    2 ^ (e + f + 104) ≤ |x * y| := by
  obtain ⟨hx0, hy0⟩ := mul_ne_zero_iff.1 h0
  rw [abs_mul, show e + f + 104 = e + 52 + (f + 52) by ring, zpow_add₀ two_ne_zero]
  exact mul_le_mul (hx.le hx0) (hy.le hy0) (by positivity) (abs_nonneg x)

/-- The grid of the rounded product, whose lowest bits are gone. -/
theorem onGrid_nearest_mul (hx : Scaled e x) (hy : Scaled f y) :
    OnGrid (e + f + 52) (nearest (x * y)) := by
  rcases eq_or_ne (x * y) 0 with h0 | h0
  · rw [h0, nearest_zero]
    exact .zero _
  · refine onGrid_nearest_of_le ?_
    rw [show e + f + 52 + 52 = e + f + 104 by ring]
    exact hx.le_abs_mul hy h0

/-- The errors of the partial products and of the rounded product. -/
theorem abs_partialProducts_sub_le (hx : Halves e x xh xl) (hy : Halves f y yh yl) :
    |nearest (xh * yh) - xh * yh| ≤ underflow (e + f) ∧
      |nearest (xl * yh) - xl * yh| ≤ underflow (e + f) ∧
      |nearest (xh * yl) - xh * yl| ≤ underflow (e + f) ∧
      |nearest (xl * yl) - xl * yl| ≤ underflow (e + f) := by
  refine ⟨abs_nearest_sub_le_underflow (by omega) (hx.gridHi.mul hy.gridHi) ?_,
    abs_nearest_sub_le_underflow (by omega) (hx.gridLo.mul hy.gridHi) ?_,
    abs_nearest_sub_le_underflow (by omega) (hx.gridHi.mul hy.gridLo) ?_,
    abs_nearest_sub_le_underflow (by omega) (hx.gridLo.mul hy.gridLo) ?_⟩
  · exact le_zpow_of_le (abs_mul_le_zpow hx.leHi hy.leHi) (by omega)
  · exact le_zpow_of_le (abs_mul_le_zpow hx.leLo hy.leHi) (by omega)
  · exact le_zpow_of_le (abs_mul_le_zpow hx.leHi hy.leLo) (by omega)
  · exact le_zpow_of_le (abs_mul_le_zpow hx.leLo hy.leLo) (by omega)

/-- The differences in `twoProduct` are small: each is what is left of the error of the product and
of the partial products still to come. -/
theorem abs_differences_le (hsx : Scaled e x) (hsy : Scaled f y) (hx : Halves e x xh xl)
    (hy : Halves f y yh yl) :
    |nearest (x * y) - nearest (xh * yh)| ≤
        3 / 2 * 2 ^ (e + f + 52 + 52) + 8 * 2 ^ (-1075 : ℤ) ∧
      |nearest (x * y) - nearest (xh * yh) - nearest (xl * yh)| ≤
        3 / 2 * 2 ^ (e + f + 27 + 52) + 8 * 2 ^ (-1075 : ℤ) ∧
      |nearest (x * y) - nearest (xh * yh) - nearest (xl * yh) - nearest (xh * yl)| ≤
        3 / 2 * 2 ^ (e + f + 27 + 52) + 8 * 2 ^ (-1075 : ℤ) ∧
      |nearest (xl * yl) - (nearest (x * y) - nearest (xh * yh) - nearest (xl * yh)
        - nearest (xh * yl))| ≤ 3 / 2 * 2 ^ (e + f + 52) + 8 * 2 ^ (-1075 : ℤ) := by
  obtain ⟨h1, h2, h3, h4⟩ := abs_partialProducts_sub_le hx hy
  have hp := abs_nearest_sub_le_add_underflow (hsx.abs_mul_le hsy)
  have hxl := abs_mul_le_zpow hsx.lt.le hy.leLo
  have hlh := abs_mul_le_zpow hx.leLo hy.leHi
  have hll := abs_mul_le_zpow hx.leLo hy.leLo
  have hκ := underflow_le (e + f)
  have hsum : x * y = xh * yh + xl * yh + x * yl := by
    rw [← hx.add, ← hy.add]
    ring
  have hsum' : x * yl = xh * yl + xl * yl := by
    rw [← hx.add]
    ring
  have hpow : (0 : ℚ) < 2 ^ (e + f) := by positivity
  have hzpow : ∀ n : ℕ, (2 : ℚ) ^ (e + f + n) = 2 ^ n * 2 ^ (e + f) := fun n => by
    rw [zpow_add₀ two_ne_zero, zpow_natCast, mul_comm]
  have h52 : (2 : ℚ) ^ (e + f + 52) = 2 ^ 52 * 2 ^ (e + f) := hzpow 52
  have h79 : (2 : ℚ) ^ (e + f + 79) = 2 ^ 79 * 2 ^ (e + f) := hzpow 79
  have h104 : (2 : ℚ) ^ (e + f + 104) = 2 ^ 104 * 2 ^ (e + f) := hzpow 104
  norm_num only at hxl hlh hll hp
  rw [add_assoc (e + f) 52 52, add_assoc (e + f) 27 52]
  norm_num only
  rw [h79] at hxl hlh
  rw [h52] at hll hp
  rw [h52, h79, h104]
  generalize nearest (x * y) = p at *
  generalize nearest (xh * yh) = q1 at *
  generalize nearest (xl * yh) = q2 at *
  generalize nearest (xh * yl) = q3 at *
  generalize nearest (xl * yl) = q4 at *
  rw [abs_le] at h1 h2 h3 h4 hp hxl hlh hll
  refine ⟨abs_le.2 ⟨?_, ?_⟩, abs_le.2 ⟨?_, ?_⟩, abs_le.2 ⟨?_, ?_⟩, abs_le.2 ⟨?_, ?_⟩⟩ <;> linarith

/-- The differences in `twoProduct` are exact: each is on the grid of the smallest number before,
and small enough for it. -/
theorem errorOfProduct_eq (hsx : Scaled e x) (hsy : Scaled f y) (hx : Halves e x xh xl)
    (hy : Halves f y yh yl) :
    errorOfProduct xh xl yh yl (nearest (x * y)) =
      nearest (xl * yl) - (nearest (x * y) - nearest (xh * yh) - nearest (xl * yh)
        - nearest (xh * yl)) := by
  obtain ⟨hle1, hle2, hle3, hle4⟩ := abs_differences_le hsx hsy hx hy
  have hpmin := (representable_nearest (x * y)).onGrid
  have h1min := (representable_nearest (xh * yh)).onGrid
  have h2min := (representable_nearest (xl * yh)).onGrid
  have h3min := (representable_nearest (xh * yl)).onGrid
  have h4min := (representable_nearest (xl * yl)).onGrid
  have h1grid : OnGrid (e + f + 52) (nearest (xh * yh)) :=
    (hx.gridHi.mul hy.gridHi).nearest.mono (by omega)
  have h2grid : OnGrid (e + f + 27) (nearest (xl * yh)) :=
    (hx.gridLo.mul hy.gridHi).nearest.mono (by omega)
  have h3grid : OnGrid (e + f + 27) (nearest (xh * yl)) :=
    (hx.gridHi.mul hy.gridLo).nearest.mono (by omega)
  have h4grid : OnGrid (e + f) (nearest (xl * yl)) := (hx.gridLo.mul hy.gridLo).nearest
  have hd1grid := (onGrid_nearest_mul hsx hsy).sub h1grid
  have hd1min := hpmin.sub h1min
  have hd1 := nearest_eq_self (representable_of_le_add hd1grid hd1min hle1)
  have hd2grid := (hd1grid.mono (f := e + f + 27) (by omega)).sub h2grid
  have hd2min := hd1min.sub h2min
  have hd2 := nearest_eq_self (representable_of_le_add hd2grid hd2min hle2)
  have hd3grid := hd2grid.sub h3grid
  have hd3min := hd2min.sub h3min
  have hd3 := nearest_eq_self (representable_of_le_add hd3grid hd3min hle3)
  have hd4grid := h4grid.sub (hd3grid.mono (by omega))
  have hd4 := nearest_eq_self (representable_of_le_add hd4grid (h4min.sub hd3min) hle4)
  rw [errorOfProduct, hd1, hd2, hd3, hd4]

/-- Only the partial products have errors. -/
theorem abs_add_errorOfProduct_sub_le (hsx : Scaled e x) (hsy : Scaled f y)
    (hx : Halves e x xh xl) (hy : Halves f y yh yl) :
    |nearest (x * y) + errorOfProduct xh xl yh yl (nearest (x * y)) - x * y|
      ≤ 4 * underflow (e + f) := by
  obtain ⟨h1, h2, h3, h4⟩ := abs_partialProducts_sub_le hx hy
  obtain ⟨h1l, h1u⟩ := abs_le.1 h1
  obtain ⟨h2l, h2u⟩ := abs_le.1 h2
  obtain ⟨h3l, h3u⟩ := abs_le.1 h3
  obtain ⟨h4l, h4u⟩ := abs_le.1 h4
  have hsum : x * y = xh * yh + xl * yh + xh * yl + xl * yl := by
    rw [← hx.add, ← hy.add]
    ring
  rw [errorOfProduct_eq hsx hsy hx hy]
  exact abs_le.2 ⟨by linarith, by linarith⟩

/-- Of a tiny product only the partial product of the high words is left. -/
theorem add_errorOfProduct_of_tiny (hsx : Scaled e x) (hsy : Scaled f y)
    (hx : Halves e x xh xl) (hy : Halves f y yh yl) (htiny : e + f < -1160) :
    nearest (x * y) + errorOfProduct xh xl yh yl (nearest (x * y)) = nearest (xh * yh) := by
  have hvanish : ∀ {z : ℚ} {k : ℤ}, |z| ≤ 2 ^ (e + f + k) → k ≤ 79 → nearest z = 0 :=
    fun hz hk => nearest_eq_zero (lt_zpow_of_le hz (by omega))
  rw [errorOfProduct_eq hsx hsy hx hy, hvanish (abs_mul_le_zpow hx.leLo hy.leHi) (by norm_num),
    hvanish (abs_mul_le_zpow hx.leHi hy.leLo) (by norm_num),
    hvanish (abs_mul_le_zpow hx.leLo hy.leLo) (by norm_num)]
  ring

/-- The high word has the sign of the number. -/
theorem Halves.nonneg (h : Halves e x xh xl) (hs : Scaled e x) (hx : 0 ≤ x) : 0 ≤ xh := by
  have hlo := (abs_le.1 h.leLo).2
  have hxh : xh = x - xl := by rw [← h.add, add_sub_cancel_right]
  rcases hx.eq_or_lt with rfl | hpos
  · rw [zero_sub] at hxh
    refine (h.gridHi.eq_zero ?_).ge
    rw [hxh, abs_neg]
    exact lt_zpow_of_le h.leLo (by omega)
  · have hle := hs.le hpos.ne'
    rw [abs_of_pos hpos] at hle
    have hpow : (2 : ℚ) ^ (e + 26) ≤ 2 ^ (e + 52) := zpow_le_zpow_right₀ one_le_two (by omega)
    linarith

end Product

/-- If the computed error is a number, so are the factors and the product, and the error is exact
up to underflow. A tiny product of nonnegative factors stays nonnegative. -/
theorem number_of_twoProduct {r : ℚ} (h : datum (twoProduct a b).2 = .number r) :
    ∃ x y, datum a = .number x ∧ datum b = .number y ∧
      datum (twoProduct a b).1 = .number (nearest (x * y)) ∧
      ∀ e f, Scaled e x → Scaled f y →
        |nearest (x * y) + r - x * y| ≤ 4 * underflow (e + f) ∧
        (e + f < -1160 → 0 ≤ x → 0 ≤ y → 0 ≤ nearest (x * y) + r) := by
  obtain ⟨low, error₃, hlow, herror₃, rfl⟩ := number_of_sub h
  obtain ⟨xl, yl, hxl, hyl, rfl⟩ := number_of_mul hlow
  obtain ⟨x, hx, hxh, rfl⟩ := number_of_split hxl
  obtain ⟨y, hy, hyh, rfl⟩ := number_of_split hyl
  obtain ⟨error₂, crossed, herror₂, hcrossed, rfl⟩ := number_of_sub herror₃
  obtain ⟨xh', yl', hxh', hyl', rfl⟩ := number_of_mul hcrossed
  cases hxh.symm.trans hxh'
  cases hyl.symm.trans hyl'
  obtain ⟨error₁, crossed, herror₁, hcrossed, rfl⟩ := number_of_sub herror₂
  obtain ⟨xl', yh', hxl', hyh', rfl⟩ := number_of_mul hcrossed
  cases hxl.symm.trans hxl'
  cases hyh.symm.trans hyh'
  obtain ⟨p, high, hp, hhigh, rfl⟩ := number_of_sub herror₁
  obtain ⟨xh', yh', hxh', hyh', rfl⟩ := number_of_mul hhigh
  cases hxh.symm.trans hxh'
  cases hyh.symm.trans hyh'
  obtain ⟨x', y', hx', hy', rfl⟩ := number_of_mul hp
  cases hx.symm.trans hx'
  cases hy.symm.trans hy'
  refine ⟨x, y, hx, hy, hp, ?_⟩
  intro e f hsx hsy
  have hxHalves := halves_highPart (representable_of_datum hx) hsx
  have hyHalves := halves_highPart (representable_of_datum hy) hsy
  refine ⟨abs_add_errorOfProduct_sub_le hsx hsy hxHalves hyHalves, ?_⟩
  intro htiny hx0 hy0
  have hhigh := add_errorOfProduct_of_tiny hsx hsy hxHalves hyHalves htiny
  unfold errorOfProduct at hhigh
  rw [hhigh]
  exact nearest_nonneg (mul_nonneg (hxHalves.nonneg hsx hx0) (hyHalves.nonneg hsy hy0))

/-! ## Overflow -/

/-- The error of an overflowing product is lost. -/
theorem lost_twoProduct_of_infinity {s : Bool} (h : datum (twoProduct a b).1 = .infinity s) :
    Datum.Lost (!s) (datum (twoProduct a b).2) := by
  change Datum.Lost (!s) (datum ((split a).2 * (split b).2 - (a * b - (split a).1 * (split b).1
    - (split a).2 * (split b).1 - (split a).1 * (split b).2)))
  simp only [datum_sub]
  exact (((Datum.Lost.add (.inl h) _).add _).add _).neg.add_right _

/-- If the high words of the factors overflow, the error is lost to the infinity of their sign. -/
theorem lost_twoProduct_of_high {s : Bool}
    (h : datum ((split a).1 * (split b).1) = .infinity s) :
    Datum.Lost s (datum (twoProduct a b).2) := by
  change Datum.Lost s (datum ((split a).2 * (split b).2 - (a * b - (split a).1 * (split b).1
    - (split a).2 * (split b).1 - (split a).1 * (split b).2)))
  have hfirst : Datum.Lost (!s) (datum (a * b - (split a).1 * (split b).1)) := by
    have hlost : Datum.Lost s (datum ((split a).1 * (split b).1)) := .inl h
    rw [datum_sub]
    exact hlost.neg.add_right _
  rw [← Bool.not_not s]
  simp only [datum_sub] at hfirst ⊢
  exact ((hfirst.add _).add _).neg.add_right _

/-- Factors of a product that vanishes have scales with any sum. -/
theorem exists_scaled_of_mul_eq_zero (hx : Representable x) (hy : Representable y)
    (h0 : x * y = 0) (k : ℤ) : ∃ e f, e + f = k ∧ Scaled e x ∧ Scaled f y := by
  rcases mul_eq_zero.1 h0 with rfl | rfl
  · obtain ⟨f, hf⟩ := exists_scaled hy
    exact ⟨k - f, f, by omega, .zero _, hf⟩
  · obtain ⟨e, he⟩ := exists_scaled hx
    exact ⟨e, k - e, by omega, he, .zero _⟩

/-- The scales of the factors of a product that does not overflow. -/
theorem exists_scaled_mul (hx : Representable x) (hy : Representable y)
    (hp : |nearest (x * y)| < 2 ^ (1024 : ℤ)) :
    ∃ e f, e + f ≤ 920 ∧ Scaled e x ∧ Scaled f y := by
  rcases eq_or_ne (x * y) 0 with h0 | h0
  · obtain ⟨e, f, hef, hscales⟩ := exists_scaled_of_mul_eq_zero hx hy h0 920
    exact ⟨e, f, hef.le, hscales⟩
  obtain ⟨e, he⟩ := exists_scaled hx
  obtain ⟨f, hf⟩ := exists_scaled hy
  refine ⟨e, f, ?_, he, hf⟩
  by_contra! hlt
  have hlarge : 2 ^ (1024 : ℤ) ≤ |x * y| :=
    (zpow_le_zpow_right₀ one_le_two (by omega)).trans (he.le_abs_mul hf h0)
  exact (zpow_le_abs_nearest (by norm_num) hlarge).not_gt hp

/-- The scales of the factors of a product that is not tiny. -/
theorem exists_scaled_of_le (hx : Representable x) (hy : Representable y) {k : ℤ}
    (hle : x * y = 0 ∨ 2 ^ k ≤ |x * y|) :
    ∃ e f, k ≤ e + f + 106 ∧ Scaled e x ∧ Scaled f y := by
  rcases hle with h0 | hle
  · obtain ⟨e, f, hef, hscales⟩ := exists_scaled_of_mul_eq_zero hx hy h0 k
    exact ⟨e, f, by omega, hscales⟩
  obtain ⟨e, he⟩ := exists_scaled hx
  obtain ⟨f, hf⟩ := exists_scaled hy
  exact ⟨e, f, (zpow_le_zpow_iff_right₀ one_lt_two).1 (hle.trans (he.abs_mul_le hf)), he, hf⟩

/-- The product of the high words is close to the product. -/
theorem abs_sub_high_le {e f : ℤ} {xh xl yh yl : ℚ} (hx : Scaled e x) (hxs : Halves e x xh xl)
    (hys : Halves f y yh yl) : |x * y - xh * yh| ≤ 2 ^ (e + f + 80) := by
  have hxl := abs_mul_le_zpow hx.lt.le hys.leLo
  have hlh := abs_mul_le_zpow hxs.leLo hys.leHi
  have htri := abs_add_le (x * yl) (xl * yh)
  rw [show x * yl + xl * yh = x * y - xh * yh by rw [← hxs.add, ← hys.add]; ring] at htri
  norm_num only at hxl hlh
  rw [show e + f + 80 = 1 + (e + f + 79) by ring, zpow_one_add₀ two_ne_zero]
  linarith

/-- A difference of numbers that are not huge is not huge. -/
theorem datum_sub_of_le (ha : datum a = .number x) (hb : datum b = .number y) {k : ℤ}
    (hk : -1074 ≤ k) (hk' : k < 1023) (hx : |x| ≤ 2 ^ k) (hy : |y| ≤ 2 ^ k) :
    ∃ z, datum (a - b) = .number z ∧ |z| ≤ 2 ^ (k + 1) := by
  have hle : |nearest (x - y)| ≤ 2 ^ (k + 1) := by
    refine abs_nearest_le_zpow (by omega) ?_
    rw [add_comm, zpow_one_add₀ two_ne_zero]
    linarith [abs_sub x y]
  exact ⟨_, datum_sub_of_lt ha hb (lt_zpow_of_le hle (by omega)), hle⟩

/-- With finite partial products the error is a number. -/
theorem exists_datum_twoProduct {q₁ q₂ q₃ q₄ p : ℚ} {k : ℤ} (hk : -1074 ≤ k) (hk' : k < 1019)
    (hp : datum (a * b) = .number p) (h₁ : datum ((split a).1 * (split b).1) = .number q₁)
    (h₂ : datum ((split a).2 * (split b).1) = .number q₂)
    (h₃ : datum ((split a).1 * (split b).2) = .number q₃)
    (h₄ : datum ((split a).2 * (split b).2) = .number q₄)
    (hfirst : |nearest (p - q₁)| ≤ 2 ^ k) (hq₂ : |q₂| ≤ 2 ^ k) (hq₃ : |q₃| ≤ 2 ^ k)
    (hq₄ : |q₄| ≤ 2 ^ k) : ∃ r, datum (twoProduct a b).2 = .number r := by
  have herror₁ := datum_sub_of_lt hp h₁ (lt_zpow_of_le hfirst (by omega))
  obtain ⟨z₂, herror₂, hz₂⟩ := datum_sub_of_le herror₁ h₂ hk (by omega) hfirst hq₂
  obtain ⟨z₃, herror₃, hz₃⟩ := datum_sub_of_le herror₂ h₃ (by omega) (by omega) hz₂
    (le_zpow_of_le hq₃ (by omega))
  obtain ⟨z₄, herror₄, -⟩ := datum_sub_of_le h₄ herror₃ (by omega) (by omega)
    (le_zpow_of_le hq₄ (by omega)) hz₃
  exact ⟨z₄, herror₄⟩

/-- A product that is not huge is finite. -/
theorem datum_mul_of_le (ha : datum a = .number x) (hb : datum b = .number y) {k : ℤ}
    (hk : -1074 ≤ k) (hk' : k < 1024) (hle : |x * y| ≤ 2 ^ k) :
    datum (a * b) = .number (nearest (x * y)) ∧ |nearest (x * y)| ≤ 2 ^ k :=
  ⟨datum_mul_of_lt ha hb (lt_zpow_of_le (abs_nearest_le_zpow hk hle) hk'),
    abs_nearest_le_zpow hk hle⟩

/-- A split that overflows leaves nothing of the error. -/
theorem datum_twoProduct_of_nan (h : datum (split a).2 = .nan ∨ datum (split b).2 = .nan) :
    datum (twoProduct a b).2 = .nan := by
  change datum ((split a).2 * (split b).2 - _) = _
  rw [datum_sub, datum_mul]
  rcases h with h | h
  · rw [h, Datum.nan_mul, Datum.nan_add]
  · rw [h, Datum.mul_nan, Datum.nan_add]

/-- A number has the sign of those that are close to it. -/
theorem neg_iff_of_abs_sub_lt {n r : ℚ} (h : |n - r| < |n|) : n < 0 ↔ r < 0 := by
  rcases abs_cases n with ⟨hn, -⟩ | ⟨hn, -⟩ <;> rw [hn, abs_lt] at h
  · exact iff_of_false (by linarith) (by linarith)
  · exact iff_of_true (by linarith) (by linarith)

section High

variable {e f : ℤ} {xh xl yh yl : ℚ}

/-- The rounded product of the high words, the product and its rounding are close together. -/
theorem abs_high_sub_le (hef : e + f ≤ 920) (hsx : Scaled e x) (hsy : Scaled f y)
    (hx : Halves e x xh xl) (hy : Halves f y yh yl) :
    |nearest (xh * yh) - x * y| ≤ 2 ^ (1001 : ℤ) ∧
      |nearest (x * y) - nearest (xh * yh)| ≤ 2 ^ (1002 : ℤ) := by
  obtain ⟨hhigh, -⟩ := abs_partialProducts_sub_le hx hy
  have hproduct := abs_nearest_sub_le_add_underflow (hsx.abs_mul_le hsy)
  have hclose := le_zpow_of_le (j := 1000) (abs_sub_high_le hsx hx hy) (by omega)
  have hunit := le_zpow_of_le (x := 2 ^ (e + f + 52)) (j := 1000) le_rfl (by omega)
  have hκ := le_zpow_of_le (j := 1000) (underflow_le (e + f)) (by norm_num)
  rw [show (1002 : ℤ) = 2 + 1000 by norm_num, show (1001 : ℤ) = 1 + 1000 by norm_num,
    zpow_one_add₀ two_ne_zero, zpow_add₀ two_ne_zero]
  generalize (2 : ℚ) ^ (1000 : ℤ) = M at *
  rw [abs_le] at hhigh hproduct hclose
  refine ⟨abs_le.2 ⟨?_, ?_⟩, abs_le.2 ⟨?_, ?_⟩⟩ <;> linarith

/-- If the product of the high words overflows, then so does the product, but for its last bits. -/
theorem large_of_high_large (hclose : |nearest (xh * yh) - x * y| ≤ 2 ^ (1001 : ℤ))
    (hlarge : 2 ^ (1024 : ℤ) ≤ |nearest (xh * yh)|) :
    (nearest (xh * yh) < 0 ↔ x * y < 0) ∧ 2 ^ (1023 : ℤ) ≤ |x * y| := by
  have hlt := lt_zpow_of_le (j := 1023) hclose (by norm_num)
  have habs := abs_sub_abs_le_abs_sub (nearest (xh * yh)) (x * y)
  have hpos : (0 : ℚ) < 2 ^ (1023 : ℤ) := by positivity
  rw [show (1024 : ℤ) = 1 + 1023 by norm_num, zpow_one_add₀ two_ne_zero] at hlarge
  generalize (2 : ℚ) ^ (1023 : ℤ) = M at *
  exact ⟨neg_iff_of_abs_sub_lt (by linarith), by linarith⟩

end High

/-- With finite splits, the error of a finite product is a number or the infinity of a huge one. -/
theorem datum_twoProduct_of_split (ha : datum a = .number x) (hb : datum b = .number y)
    (hp : |nearest (x * y)| < 2 ^ (1024 : ℤ))
    (hsplitA : datum (split a).1 = .number (highPart x) ∧
      datum (split a).2 = .number (nearest (x - highPart x)))
    (hsplitB : datum (split b).1 = .number (highPart y) ∧
      datum (split b).2 = .number (nearest (y - highPart y))) :
    (∃ r, datum (twoProduct a b).2 = .number r) ∨
      Datum.Lost (x * y < 0) (datum (twoProduct a b).2) ∧ 2 ^ (1023 : ℤ) ≤ |x * y| := by
  obtain ⟨haHi, haLo⟩ := hsplitA
  obtain ⟨hbHi, hbLo⟩ := hsplitB
  have hxrep := representable_of_datum ha
  have hyrep := representable_of_datum hb
  obtain ⟨e, f, hef, hsx, hsy⟩ := exists_scaled_mul hxrep hyrep hp
  have hxs := halves_highPart hxrep hsx
  have hys := halves_highPart hyrep hsy
  obtain ⟨hclose, hfirst⟩ := abs_high_sub_le hef hsx hsy hxs hys
  rcases lt_or_ge |nearest (highPart x * highPart y)| (2 ^ (1024 : ℤ)) with hlt | hge
  · have hlh := le_zpow_of_le (j := 1002) (abs_mul_le_zpow hxs.leLo hys.leHi) (by omega)
    have hhl := le_zpow_of_le (j := 1002) (abs_mul_le_zpow hxs.leHi hys.leLo) (by omega)
    have hll := le_zpow_of_le (j := 1002) (abs_mul_le_zpow hxs.leLo hys.leLo) (by omega)
    obtain ⟨h₂, hq₂⟩ := datum_mul_of_le haLo hbHi (by norm_num) (by norm_num) hlh
    obtain ⟨h₃, hq₃⟩ := datum_mul_of_le haHi hbLo (by norm_num) (by norm_num) hhl
    obtain ⟨h₄, hq₄⟩ := datum_mul_of_le haLo hbLo (by norm_num) (by norm_num) hll
    exact .inl (exists_datum_twoProduct (by norm_num) (by norm_num) (datum_mul_of_lt ha hb hp)
      (datum_mul_of_lt haHi hbHi hlt) h₂ h₃ h₄ (abs_nearest_le_zpow (by norm_num) hfirst) hq₂ hq₃
      hq₄)
  · have hhigh : datum ((split a).1 * (split b).1) =
        .infinity (nearest (highPart x * highPart y) < 0) := by
      rw [datum_mul, haHi, hbHi, Datum.mul_number, Datum.round, Datum.clip, if_neg hge.not_gt]
    have hlarge := large_of_high_large hclose hge
    rw [← decide_eq_decide.2 hlarge.1]
    exact .inr ⟨lost_twoProduct_of_high hhigh, hlarge.2⟩

/-- The error of a finite product is a number unless a split overflows, which leaves NaN, or the
product of the high words does, which leaves nothing but the infinity of its sign. -/
theorem datum_twoProduct (ha : datum a = .number x) (hb : datum b = .number y)
    (hp : |nearest (x * y)| < 2 ^ (1024 : ℤ)) :
    (∃ r, datum (twoProduct a b).2 = .number r) ∨ datum (twoProduct a b).2 = .nan ∨
      Datum.Lost (x * y < 0) (datum (twoProduct a b).2) ∧ 2 ^ (1023 : ℤ) ≤ |x * y| := by
  rcases datum_split ha with hsplitA | haNan
  swap
  · exact .inr (.inl (datum_twoProduct_of_nan (.inl haNan)))
  rcases datum_split hb with hsplitB | hbNan
  swap
  · exact .inr (.inl (datum_twoProduct_of_nan (.inr hbNan)))
  exact (datum_twoProduct_of_split ha hb hp hsplitA hsplitB).imp_right .inr

/-- The error of a product that is not close to overflow is a number if no split overflows. -/
theorem exists_twoProduct_of_lt (ha : datum a = .number x) (hb : datum b = .number y)
    (hx : |x| ≤ 2 ^ (995 : ℤ)) (hy : |y| ≤ 2 ^ (995 : ℤ)) (hxy : |x * y| < 2 ^ (1023 : ℤ)) :
    ∃ r, datum (twoProduct a b).2 = .number r := by
  have hsplitter : ∀ {z : ℚ}, |z| ≤ 2 ^ (995 : ℤ) →
      |nearest (134217729 * z)| < 2 ^ (1024 : ℤ) := fun {z} hz => by
    have hle := abs_mul_le_zpow_add (x := 134217729) (i := 28) (by norm_num) hz
    exact lt_zpow_of_le (abs_nearest_le_zpow (by norm_num) hle) (by norm_num)
  have hp := lt_zpow_of_le (j := 1024) (abs_nearest_le_zpow (by norm_num) hxy.le) (by norm_num)
  rcases datum_twoProduct_of_split ha hb hp (datum_split_of_lt ha (hsplitter hx))
    (datum_split_of_lt hb (hsplitter hy)) with hnumber | ⟨-, hlarge⟩
  · exact hnumber
  · exact absurd hlarge hxy.not_ge

/-! ## Exact products -/

/-- The sum of the two words is the product of the two factors, if no split overflows and the
product is zero or neither close to underflow nor close to overflow. -/
theorem twoProduct_exact (ha : a.isFinite = true) (hb : b.isFinite = true)
    (hale : |value a| ≤ 2 ^ (995 : ℤ)) (hble : |value b| ≤ 2 ^ (995 : ℤ))
    (hab : value a * value b = 0 ∨
      2 ^ (-960 : ℤ) ≤ |value a * value b| ∧ |value a * value b| ≤ 2 ^ (1021 : ℤ)) :
    (twoProduct a b).1.isFinite = true ∧ (twoProduct a b).2.isFinite = true ∧
      (twoProduct a b).1 = a * b ∧ value (a * b) = nearest (value a * value b) ∧
      value (twoProduct a b).1 + value (twoProduct a b).2 = value a * value b := by
  have hx := isFinite_iff.1 ha
  have hy := isFinite_iff.1 hb
  have hlarge : |value a * value b| < 2 ^ (1023 : ℤ) := by
    rcases hab with h0 | ⟨-, hle⟩
    · rw [h0, abs_zero]
      positivity
    · exact lt_zpow_of_le hle (by norm_num)
  obtain ⟨r, hr⟩ := exists_twoProduct_of_lt hx hy hale hble hlarge
  obtain ⟨x, y, hx', hy', hp, herror⟩ := number_of_twoProduct hr
  cases hx.symm.trans hx'
  cases hy.symm.trans hy'
  -- the lowest bits of the partial products are not below those of the smallest double
  obtain ⟨e, f, hef, hsx, hsy⟩ := exists_scaled_of_le (representable_value a)
    (representable_value b) (hab.imp_right And.left)
  obtain ⟨hexact, -⟩ := herror e f hsx hsy
  rw [underflow_eq_zero (by omega), mul_zero, abs_nonpos_iff, sub_eq_zero] at hexact
  rw [value_of_datum hp, value_of_datum hr]
  exact ⟨isFinite_of_datum hp, isFinite_of_datum hr, rfl, value_of_datum hp, hexact⟩

/-- The largest subnormal double and a factor of 53 ones, whose product has an error below the
normal doubles, and two factors at the upper end. -/
theorem twoProduct_exact_ends :
    let a : Float := .ofBits 0x000FFFFFFFFFFFFF
    let b : Float := .ofBits 0x43DFFFFFFFFFFFFF
    let c : Float := .ofBits 0x7E1FFFFFFFFFFFFF
    let d : Float := .ofBits 0x418FFFFFFFFFFFFF
    (value (twoProduct a b).2 = 2 ^ (-1064 : ℤ) ∧
      value (twoProduct a b).1 + value (twoProduct a b).2 = value a * value b) ∧
    (value (twoProduct c d).2 ≠ 0 ∧
      value (twoProduct c d).1 + value (twoProduct c d).2 = value c * value d) := by
  intro a b c d
  obtain ⟨-, -, -, -, hsmall⟩ := twoProduct_exact (a := a) (b := b) (by decide +kernel)
    (by decide +kernel) (by decide +kernel) (by decide +kernel)
    (.inr ⟨by decide +kernel, by decide +kernel⟩)
  obtain ⟨-, -, -, -, hlarge⟩ := twoProduct_exact (a := c) (b := d) (by decide +kernel)
    (by decide +kernel) (by decide +kernel) (by decide +kernel)
    (.inr ⟨by decide +kernel, by decide +kernel⟩)
  exact ⟨⟨by decide +kernel, hsmall⟩, by decide +kernel, hlarge⟩

end ExactSphere.ErrorFree
