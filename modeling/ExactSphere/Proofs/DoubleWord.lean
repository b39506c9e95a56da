import ExactSphere.DoubleWord
import ExactSphere.Proofs.ErrorFree.Product
import ExactSphere.Proofs.ErrorFree.Sum

/-!
# The arithmetic of double-words

A double-word stands for the sum of its words (`IsNumber`) as long as the high word is that sum,
rounded. Sums and products of such numbers have a small relative error, and their words are
normalised again (`add_spec`, `mul_spec`). Where something overflows, either nothing is left of the
high word, or it is the infinity of a result that is out of range indeed (`Outcome`).
-/

namespace ExactSphere.DoubleWord

open Binary64 ErrorFree

/-- `a` stands for `x`, and its high word for the rounded `x`. -/
structure IsNumber (a : DoubleWord) (x : ℚ) : Prop where
  hi : datum a.hi = .number (nearest x)
  lo : datum a.lo = .number (x - nearest x)

/-- The words of `a` are those of a number unless the high word is infinite or NaN. -/
def Normalised (a : DoubleWord) : Prop := ∀ h, datum a.hi = .number h → ∃ x, a.IsNumber x

variable {a b : DoubleWord} {x y : ℚ}

@[simp] theorem neg_hi (a : DoubleWord) : (-a).hi = -a.hi := rfl

@[simp] theorem neg_lo (a : DoubleWord) : (-a).lo = -a.lo := rfl

namespace IsNumber

theorem onGrid (h : a.IsNumber x) : OnGrid (-1074) x := by
  have hsum := (representable_of_datum h.hi).onGrid.add (representable_of_datum h.lo).onGrid
  rwa [add_sub_cancel] at hsum

/-- The low word is small against the number. -/
theorem abs_lo_le (h : a.IsNumber x) : |x - nearest x| ≤ 2 ^ (-53 : ℤ) * |x| := by
  rw [abs_sub_comm]
  exact abs_nearest_sub_le_unit_of_onGrid h.onGrid

theorem abs_lt (h : a.IsNumber x) : |x| < 2 ^ (1025 : ℤ) := by
  have hhi := abs_lt_of_datum h.hi
  have hlo := h.abs_lo_le
  have htri := abs_add_le (nearest x) (x - nearest x)
  rw [add_sub_cancel] at htri
  rw [show (1025 : ℤ) = 1 + 1024 by norm_num, zpow_one_add₀ two_ne_zero]
  norm_num only at hlo
  generalize (2 : ℚ) ^ (1024 : ℤ) = p at *
  linarith [abs_nonneg x]

theorem unique (h : a.IsNumber x) (h' : a.IsNumber y) : x = y := by
  have hhi := h.hi.symm.trans h'.hi
  have hlo := h.lo.symm.trans h'.lo
  rw [Datum.number.injEq] at hhi hlo
  linarith

theorem ofFloat {w : Float} (h : datum w = .number x) : (ofFloat w).IsNumber x where
  hi := by rw [nearest_eq_self (representable_of_datum h), ← h]; rfl
  lo := by rw [nearest_eq_self (representable_of_datum h), sub_self]; exact datum_zero

theorem neg (h : a.IsNumber x) : (-a).IsNumber (-x) where
  hi := by rw [neg_hi, datum_neg, h.hi, Datum.neg_number, nearest_neg]
  lo := by
    rw [neg_lo, datum_neg, h.lo, Datum.neg_number, nearest_neg]
    congr 1
    ring

/-- The order of double-words is that of their numbers. -/
theorem compare? (ha : a.IsNumber x) (hb : b.IsNumber y) : a.compare? b = some (compare x y) := by
  unfold DoubleWord.compare?
  rw [compare?_eq, compare?_eq, ha.hi, hb.hi, ha.lo, hb.lo, Datum.number_compare?_number,
    Datum.number_compare?_number]
  rcases lt_trichotomy (nearest x) (nearest y) with h | h | h
  · have hxy : x < y := lt_of_not_ge fun hle => h.not_ge (nearest_mono hle)
    rw [compare_lt_iff_lt.2 h, compare_lt_iff_lt.2 hxy]
  · rw [compare_eq_iff_eq.2 h, h]
    simp only [compare, compareOfLessAndEq, sub_lt_sub_iff_right, sub_left_inj]
  · have hxy : y < x := lt_of_not_ge fun hle => h.not_ge (nearest_mono hle)
    rw [compare_gt_iff_gt.2 h, compare_gt_iff_gt.2 hxy]

theorem less_iff (ha : a.IsNumber x) (hb : b.IsNumber y) : a.less b = true ↔ x < y := by
  rw [less, ha.compare? hb, beq_iff_eq, Option.some.injEq, compare_lt_iff_lt]

theorem abs (h : a.IsNumber x) : a.abs.IsNumber |x| := by
  have hzero : datum (0 : Float) = .number 0 := datum_zero
  have hnegative : (a.hi < 0 || (a.hi == 0 && a.lo < 0)) = true ↔ x < 0 := by
    simp only [Bool.or_eq_true, Bool.and_eq_true, decide_eq_true_eq, lt_iff, beq_iff, h.hi, h.lo,
      hzero, Datum.number_compare?_number, Option.some.injEq, compare_lt_iff_lt,
      compare_eq_iff_eq, sub_neg]
    constructor
    · rintro (hlt | ⟨heq, hlt⟩)
      · exact lt_of_not_ge fun hle => hlt.not_ge (nearest_nonneg hle)
      · rwa [heq] at hlt
    · intro hx
      have hle : nearest x ≤ 0 := nearest_zero ▸ nearest_mono hx.le
      rcases hle.lt_or_eq with hlt | heq
      · exact .inl hlt
      · exact .inr ⟨heq, by rwa [heq]⟩
  unfold DoubleWord.abs
  split_ifs with hsign
  · rw [abs_of_neg (hnegative.1 hsign)]
    exact h.neg
  · rw [abs_of_nonneg (le_of_not_gt fun hlt => hsign (hnegative.2 hlt))]
    exact h

end IsNumber

/-! ## Sums -/

section Sum

variable {xh xl yh yl s t c s' d : ℚ}

/-- The terms of an inexact sum are not much larger than the sum. -/
theorem abs_add_abs_le_of_not_representable (hx : Representable x) (hy : Representable y)
    (h : ¬Representable (x + y)) : |x| + |y| ≤ 3 * |x + y| := by
  have htri := abs_sub (x + y) y
  have htri' := abs_sub (x + y) x
  rw [add_sub_cancel_right] at htri
  rw [add_sub_cancel_left] at htri'
  by_contra! hlt
  exact h (representable_add_of_abs_le hx hy (by linarith) (by linarith))

/-- If the high words have an exact sum, only the last addition has an error. -/
theorem abs_sum_error_of_exact (hxl : Representable xl) (hyl : Representable yl)
    (ht : t = nearest (xl + yl)) (hs : Representable s) (hs' : s' = nearest (s + t))
    (hd : d = nearest (xl + yl - t + (s + t - s'))) :
    |s' + d - (s + xl + yl)| ≤ 2 ^ (-103 : ℤ) * |s + xl + yl| := by
  have htrep : Representable t := ht ▸ representable_nearest _
  have hlow : Representable (xl + yl - t) := ht ▸ representable_sub_nearest hxl hyl
  have herror : Representable (s + t - s') := hs' ▸ representable_sub_nearest hs htrep
  by_cases hexact : Representable (s + t)
  · rw [hs', nearest_eq_self hexact, sub_self, add_zero, nearest_eq_self hlow] at hd
    rw [hs', nearest_eq_self hexact, hd, show s + t + (xl + yl - t) - (s + xl + yl) = 0 by ring,
      abs_zero]
    positivity
  · have hterms := abs_add_abs_le_of_not_representable hs htrep hexact
    have htError := abs_nearest_sub_le_unit_of_onGrid (hxl.onGrid.add hyl.onGrid)
    have hsError := abs_nearest_sub_le_unit_of_onGrid (hs.onGrid.add htrep.onGrid)
    have hdError := abs_nearest_sub_le_unit_of_onGrid (hlow.onGrid.add herror.onGrid)
    rw [← ht, abs_sub_comm] at htError
    rw [← hs', abs_sub_comm] at hsError
    rw [← hd] at hdError
    have htri1 := abs_add_le t (xl + yl - t)
    have htri2 := abs_add_le (xl + yl - t) (s + t - s')
    have htri3 := abs_sub (s + xl + yl) (xl + yl - t)
    rw [add_sub_cancel] at htri1
    rw [show s + xl + yl - (xl + yl - t) = s + t by ring] at htri3
    rw [show s' + d - (s + xl + yl) = d - (xl + yl - t + (s + t - s')) by ring]
    norm_num only at htError hsError hdError ⊢
    linarith [abs_nonneg s, abs_nonneg t, abs_nonneg (s + t)]

/-- The words of a sum, before they are normalised, add up to almost the exact sum. -/
theorem abs_sum_error (hxh : Representable xh) (hxl : Representable xl) (hyh : Representable yh)
    (hyl : Representable yl) (hx : |xl| ≤ 2 ^ (-53 : ℤ) * |xh + xl|)
    (hy : |yl| ≤ 2 ^ (-53 : ℤ) * |yh + yl|) (hs : s = nearest (xh + yh))
    (ht : t = nearest (xl + yl)) (hc : c = nearest (xh + yh - s + t)) (hs' : s' = nearest (s + c))
    (hd : d = nearest (xl + yl - t + (s + c - s'))) :
    |s' + d - (xh + xl + (yh + yl))| ≤ 2 ^ (-103 : ℤ) * |xh + xl + (yh + yl)| := by
  have hsrep : Representable s := hs ▸ representable_nearest _
  have htrep : Representable t := ht ▸ representable_nearest _
  by_cases hexact : Representable (xh + yh)
  · rw [nearest_eq_self hexact] at hs
    rw [← hs, sub_self, zero_add, nearest_eq_self htrep] at hc
    rw [hc] at hs' hd
    have herror := abs_sum_error_of_exact hxl hyl ht hsrep hs' hd
    rwa [show s + xl + yl = xh + xl + (yh + yl) by rw [hs]; ring] at herror
  · -- no cancellation: every error is small against the sum of the high words
    have hcrep : Representable c := hc ▸ representable_nearest _
    have hhigh : Representable (xh + yh - s) := hs ▸ representable_sub_nearest hxh hyh
    have hlow : Representable (xl + yl - t) := ht ▸ representable_sub_nearest hxl hyl
    have herror : Representable (s + c - s') := hs' ▸ representable_sub_nearest hsrep hcrep
    have hterms := abs_add_abs_le_of_not_representable hxh hyh hexact
    have hsError := abs_nearest_sub_le_unit_of_onGrid (hxh.onGrid.add hyh.onGrid)
    have htError := abs_nearest_sub_le_unit_of_onGrid (hxl.onGrid.add hyl.onGrid)
    have hcError := abs_nearest_sub_le_unit_of_onGrid (hhigh.onGrid.add htrep.onGrid)
    have hsumError := abs_nearest_sub_le_unit_of_onGrid (hsrep.onGrid.add hcrep.onGrid)
    have hdError := abs_nearest_sub_le_unit_of_onGrid (hlow.onGrid.add herror.onGrid)
    rw [← hs, abs_sub_comm] at hsError
    rw [← ht, abs_sub_comm] at htError
    rw [← hc] at hcError
    rw [← hs', abs_sub_comm] at hsumError
    rw [← hd] at hdError
    have htri1 := abs_add_le xh xl
    have htri2 := abs_add_le yh yl
    have htri3 := abs_add_le xl yl
    have htri4 := abs_sub (xl + yl) (xl + yl - t)
    have htri5 := abs_add_le (xh + yh - s) t
    have htri6 := abs_add_le (c - (xh + yh - s + t)) (xh + yh - s + t)
    have htri7 := abs_sub (xh + yh) (xh + yh - s)
    have htri8 := abs_add_le s c
    have htri9 := abs_add_le (xl + yl - t) (s + c - s')
    have htri10 := abs_sub (xh + xl + (yh + yl)) (xl + yl)
    have htri11 := abs_add_le (c - (xh + yh - s + t)) (d - (xl + yl - t + (s + c - s')))
    rw [sub_sub_cancel] at htri4 htri7
    rw [sub_add_cancel] at htri6
    rw [show xh + xl + (yh + yl) - (xl + yl) = xh + yh by ring] at htri10
    rw [show c - (xh + yh - s + t) + (d - (xl + yl - t + (s + c - s'))) =
      s' + d - (xh + xl + (yh + yl)) by ring] at htri11
    norm_num only at hx hy htError hsError hsumError hcError hdError ⊢
    linarith [abs_nonneg (xh + yh), abs_nonneg xh, abs_nonneg yh]

end Sum

/-! ## Results of operations -/

/-- An operation whose exact result is `r` gave a number with the property `P`, or the infinity of
a result that is out of range. -/
inductive Outcome (r : ℚ) (P : ℚ → Prop) (a : DoubleWord) : Prop
  | number {q : ℚ} (h : a.IsNumber q) (hq : P q)
  | overflow {s : Bool} (h : datum a.hi = .infinity s) (hlarge : 2 ^ (1022 : ℤ) ≤ |r|)
      (hsign : s = decide (r < 0))

/-- The relative error of products, and the absolute error of those that underflow. -/
def productError (r : ℚ) : ℚ := 2 ^ (-101 : ℤ) * |r| + 2 ^ (-1072 : ℤ)

/-- The rounding of a number near an exact result is out of range only if that result is. -/
theorem large_of_rounded_large {n q M ε : ℚ} {r : ℚ} (hM : 4 ≤ M) (hε : ε ≤ 1)
    (hn : 2 * M ≤ |n|) (hround : |n - q| ≤ 2 ^ (-53 : ℤ) * |q|)
    (herror : |q - r| ≤ 2 ^ (-101 : ℤ) * |r| + ε) : (n < 0 ↔ r < 0) ∧ M ≤ |r| := by
  norm_num only at hround herror
  have hq := abs_sub_abs_le_abs_sub n q
  have hr := abs_sub_abs_le_abs_sub q r
  have hq' := abs_sub_abs_le_abs_sub q n
  have hr' := abs_sub_abs_le_abs_sub r q
  have htri := abs_sub_le n q r
  rw [abs_sub_comm q n] at hq'
  rw [abs_sub_comm r q] at hr'
  exact ⟨neg_iff_of_abs_sub_lt (by linarith), by linarith⟩

/-- The last step of an operation: the sum of a rounded result and a small correction. -/
theorem outcome_twoSum {p d : Float} (hp : datum p = .number x) (hd : datum d = .number y)
    (hy : |y| ≤ 2 ^ (1000 : ℤ)) {r : ℚ} {P : ℚ → Prop} (hP : P (x + y))
    (herror : |x + y - r| ≤ productError r) :
    Outcome r P ⟨(twoSum p d).1, (twoSum p d).2⟩ := by
  rcases lt_or_ge |nearest (x + y)| (2 ^ (1024 : ℤ)) with hlt | hge
  · obtain ⟨hhi, hlo⟩ := datum_twoSum hp hd hlt (lt_largest_of_le hy (by norm_num))
    exact .number ⟨hhi, hlo⟩ hP
  · have hhi : datum (p + d) = .infinity (nearest (x + y) < 0) := by
      rw [datum_add, hp, hd, Datum.add_number, Datum.round, Datum.clip, if_neg hge.not_gt]
    have hgrid := (representable_of_datum hp).onGrid.add (representable_of_datum hd).onGrid
    have hround := abs_nearest_sub_le_unit_of_onGrid hgrid
    have hM : (2 : ℚ) ^ (2 : ℤ) ≤ 2 ^ (1023 : ℤ) := zpow_le_zpow_right₀ one_le_two (by norm_num)
    have htiny : (2 : ℚ) ^ (-1072 : ℤ) ≤ 1 := zpow_le_one_of_nonpos₀ one_le_two (by norm_num)
    rw [show (1024 : ℤ) = 1 + 1023 by norm_num, zpow_one_add₀ two_ne_zero] at hge
    have hsign := large_of_rounded_large (hM.trans_eq' (by norm_num)) htiny hge hround herror
    have hpow : (2 : ℚ) ^ (1022 : ℤ) ≤ 2 ^ (1023 : ℤ) :=
      zpow_le_zpow_right₀ one_le_two (by norm_num)
    exact .overflow hhi (hpow.trans hsign.2) (decide_eq_decide.2 hsign.1)

/-- The low words are small against the range of the doubles. -/
theorem IsNumber.abs_lo_le_zpow (h : a.IsNumber x) : |x - nearest x| ≤ 2 ^ (972 : ℤ) := by
  calc |x - nearest x| ≤ 2 ^ (-53 : ℤ) * |x| := h.abs_lo_le
    _ ≤ 2 ^ (-53 : ℤ) * 2 ^ (1025 : ℤ) := mul_le_mul_of_nonneg_left h.abs_lt.le (by positivity)
    _ = 2 ^ (972 : ℤ) := by
      rw [← zpow_add₀ two_ne_zero]
      norm_num

theorem nearest_add_le_zpow {k : ℤ} (hk : -1074 ≤ k) (hx : |x| ≤ 2 ^ k) (hy : |y| ≤ 2 ^ k) :
    |nearest (x + y)| ≤ 2 ^ (k + 1) := by
  refine abs_nearest_le_zpow (by omega) ?_
  rw [add_comm k 1, zpow_one_add₀ two_ne_zero]
  linarith [abs_add_le x y]

/-- The error of the sum of two high words. -/
theorem abs_high_error_le {v w : Float} (hx : datum v = .number x) (hy : datum w = .number y) :
    |x + y - nearest (x + y)| ≤ 2 ^ (972 : ℤ) := by
  have hgrid := (representable_of_datum hx).onGrid.add (representable_of_datum hy).onGrid
  rw [abs_sub_comm]
  calc |nearest (x + y) - (x + y)| ≤ 2 ^ (-53 : ℤ) * |x + y| :=
        abs_nearest_sub_le_unit_of_onGrid hgrid
    _ ≤ 2 ^ (-53 : ℤ) * (2 ^ (1024 : ℤ) + 2 ^ (1024 : ℤ)) :=
        mul_le_mul_of_nonneg_left ((abs_add_le x y).trans
          (add_le_add (abs_lt_of_datum hx).le (abs_lt_of_datum hy).le)) (by positivity)
    _ = 2 ^ (972 : ℤ) := by
        rw [← two_mul, ← zpow_one_add₀ two_ne_zero, ← zpow_add₀ two_ne_zero]
        norm_num

/-- A sum has a relative error, unless it leaves NaN. -/
theorem add_spec (ha : a.Normalised) (hb : b.Normalised) :
    datum (a + b).hi = .nan ∨ ∃ x y, a.IsNumber x ∧ b.IsNumber y ∧
      Outcome (x + y) (fun z => |z - (x + y)| ≤ 2 ^ (-103 : ℤ) * |x + y|) (a + b) := by
  set high := twoSum a.hi b.hi with hhigh
  set low := twoSum a.lo b.lo with hlow
  set sum := twoSum high.1 (high.2 + low.1) with hsum
  have hadd : a + b = ⟨(twoSum sum.1 (low.2 + sum.2)).1, (twoSum sum.1 (low.2 + sum.2)).2⟩ := rfl
  by_cases hnumber : ∃ z, datum sum.1 = .number z
  swap
  · -- an overflow before the last step leaves NaN
    refine .inl ?_
    have herror := datum_twoSum_of_not_number (not_exists.1 hnumber)
    rw [hadd]
    change datum (sum.1 + (low.2 + sum.2)) = _
    rw [datum_add, datum_add, herror, Datum.add_nan, Datum.add_nan]
  obtain ⟨s', hs'⟩ := hnumber
  obtain ⟨s, c, hs, hc, rfl⟩ := number_of_add hs'
  obtain ⟨e₁, t, he₁, ht, rfl⟩ := number_of_add hc
  obtain ⟨xh, yh, hxh, hyh, hs'', rfl⟩ := number_of_twoSum he₁
  cases hs.symm.trans hs''
  obtain ⟨xl, yl, hxl, hyl, rfl⟩ := number_of_add ht
  obtain ⟨x, hx⟩ := ha xh hxh
  obtain ⟨y, hy⟩ := hb yh hyh
  cases hxh.symm.trans hx.hi
  cases hyh.symm.trans hy.hi
  cases hxl.symm.trans hx.lo
  cases hyl.symm.trans hy.lo
  refine .inr ⟨x, y, hx, hy, ?_⟩
  -- the corrections are small, so that they do not overflow
  have hxlle := hx.abs_lo_le_zpow
  have hylle := hy.abs_lo_le_zpow
  have hehi := abs_high_error_le hxh hyh
  have htle := nearest_add_le_zpow (by norm_num) hxlle hylle
  have hcle := nearest_add_le_zpow (by norm_num) (le_zpow_of_le hehi (by norm_num)) htle
  have hlow₂ := (datum_twoSum hxl hyl (abs_lt_of_datum ht)
    (lt_largest_of_le hylle (by norm_num))).2
  have hsum₂ := (datum_twoSum hs hc (abs_lt_of_datum hs')
    (lt_largest_of_le hcle (by norm_num))).2
  have hlowle := abs_nearest_add_sub_le_right (y := y - nearest y) (representable_of_datum hxl)
  have hsumle := abs_nearest_add_sub_le_right
    (y := nearest (nearest x + nearest y - nearest (nearest x + nearest y)
      + nearest (x - nearest x + (y - nearest y)))) (representable_of_datum hs)
  rw [abs_sub_comm] at hlowle hsumle
  have hdle := nearest_add_le_zpow (by norm_num) (le_zpow_of_le (hlowle.trans hylle) (by norm_num))
    (hsumle.trans hcle)
  have hd := datum_add_of_lt hlow₂ hsum₂ (lt_zpow_of_le hdle (by norm_num))
  have herror := abs_sum_error (representable_of_datum hxh) (representable_of_datum hxl)
    (representable_of_datum hyh) (representable_of_datum hyl)
    (by rw [add_sub_cancel]; exact hx.abs_lo_le) (by rw [add_sub_cancel]; exact hy.abs_lo_le)
    rfl rfl rfl rfl rfl
  rw [add_sub_cancel, add_sub_cancel] at herror
  rw [hadd]
  refine outcome_twoSum hs' hd (le_zpow_of_le hdle (by norm_num)) herror (herror.trans ?_)
  have hpos : (0 : ℚ) ≤ 2 ^ (-1072 : ℤ) := by positivity
  have hunit : (2 : ℚ) ^ (-103 : ℤ) * |x + y| ≤ 2 ^ (-101 : ℤ) * |x + y| :=
    mul_le_mul_of_nonneg_right (zpow_le_zpow_right₀ one_le_two (by norm_num)) (abs_nonneg _)
  exact hunit.trans (le_add_of_nonneg_right hpos)

/-! ## Products -/

section Product

variable {xh xl yh yl p r m₁ m₂ c d : ℚ}

/-- The sizes of the partial products of two numbers. -/
theorem abs_words_mul_le (hx : |xl| ≤ 2 ^ (-53 : ℤ) * |xh + xl|)
    (hy : |yl| ≤ 2 ^ (-53 : ℤ) * |yh + yl|) :
    |xh * yh| ≤ (1 + 2 ^ (-51 : ℤ)) * |(xh + xl) * (yh + yl)| ∧
      |xh * yl| ≤ (2 ^ (-53 : ℤ) + 2 ^ (-106 : ℤ)) * |(xh + xl) * (yh + yl)| ∧
      |xl * yh| ≤ (2 ^ (-53 : ℤ) + 2 ^ (-106 : ℤ)) * |(xh + xl) * (yh + yl)| ∧
      |xl * yl| ≤ 2 ^ (-106 : ℤ) * |(xh + xl) * (yh + yl)| := by
  have hxh : |xh| ≤ (1 + 2 ^ (-53 : ℤ)) * |xh + xl| := by
    have := abs_sub (xh + xl) xl
    rw [add_sub_cancel_right] at this
    linarith
  have hyh : |yh| ≤ (1 + 2 ^ (-53 : ℤ)) * |yh + yl| := by
    have := abs_sub (yh + yl) yl
    rw [add_sub_cancel_right] at this
    linarith
  have hpos : 0 ≤ |xh + xl| * |yh + yl| := by positivity
  simp only [abs_mul]
  refine ⟨?_, ?_, ?_, ?_⟩
  · refine (mul_le_mul hxh hyh (abs_nonneg _) (by positivity)).trans ?_
    norm_num
    linarith
  · refine (mul_le_mul hxh hy (abs_nonneg _) (by positivity)).trans ?_
    norm_num
    linarith
  · refine (mul_le_mul hx hyh (abs_nonneg _) (by positivity)).trans ?_
    norm_num
    linarith
  · refine (mul_le_mul hx hy (abs_nonneg _) (by positivity)).trans ?_
    norm_num
    linarith

/-- The sizes of the partial products of the words of two numbers. -/
theorem abs_nearest_words_mul_le (hx : OnGrid (-1074) x) (hy : OnGrid (-1074) y) :
    |nearest x * (y - nearest y)| ≤ (2 ^ (-53 : ℤ) + 2 ^ (-106 : ℤ)) * |x * y| ∧
      |(x - nearest x) * nearest y| ≤ (2 ^ (-53 : ℤ) + 2 ^ (-106 : ℤ)) * |x * y| ∧
      |nearest x * nearest y - x * y| ≤ 2 ^ (-51 : ℤ) * |x * y| := by
  have hxl := abs_nearest_sub_le_unit_of_onGrid hx
  have hyl := abs_nearest_sub_le_unit_of_onGrid hy
  rw [abs_sub_comm] at hxl hyl
  obtain ⟨-, hhl, hlh, hll⟩ := abs_words_mul_le (by rwa [add_sub_cancel] : |x - nearest x| ≤
    2 ^ (-53 : ℤ) * |nearest x + (x - nearest x)|) (by rwa [add_sub_cancel] : |y - nearest y| ≤
    2 ^ (-53 : ℤ) * |nearest y + (y - nearest y)|)
  rw [add_sub_cancel, add_sub_cancel] at hhl hlh hll
  refine ⟨hhl, hlh, ?_⟩
  have htri := abs_add_three (nearest x * (y - nearest y)) ((x - nearest x) * nearest y)
    ((x - nearest x) * (y - nearest y))
  rw [show nearest x * (y - nearest y) + (x - nearest x) * nearest y
    + (x - nearest x) * (y - nearest y) = -(nearest x * nearest y - x * y) by ring,
    abs_neg] at htri
  norm_num only at hhl hlh hll ⊢
  linarith [abs_nonneg (x * y)]

/-- The words of a product, before they are normalised, add up to almost the exact product. -/
theorem abs_product_error (hx : |xl| ≤ 2 ^ (-53 : ℤ) * |xh + xl|)
    (hy : |yl| ≤ 2 ^ (-53 : ℤ) * |yh + yl|) (hr : OnGrid (-1074) r) (hp : p = nearest (xh * yh))
    (hpr : |p + r - xh * yh| ≤ 4 * 2 ^ (-1075 : ℤ)) (hm₁ : m₁ = nearest (xh * yl))
    (hm₂ : m₂ = nearest (xl * yh)) (hc : c = nearest (m₁ + m₂)) (hd : d = nearest (r + c)) :
    |p + d - (xh + xl) * (yh + yl)| ≤ productError ((xh + xl) * (yh + yl)) := by
  obtain ⟨hhh, hhl, hlh, hll⟩ := abs_words_mul_le hx hy
  have hgrid : ∀ {z w : ℚ}, z = nearest w → OnGrid (-1074) z := fun h =>
    h ▸ (representable_nearest _).onGrid
  have hpError := abs_nearest_sub_le_unit_add (xh * yh)
  have hm₁Error := abs_nearest_sub_le_unit_add (xh * yl)
  have hm₂Error := abs_nearest_sub_le_unit_add (xl * yh)
  have hcError := abs_nearest_sub_le_unit_of_onGrid ((hgrid hm₁).add (hgrid hm₂))
  have hdError := abs_nearest_sub_le_unit_of_onGrid (hr.add (hgrid hc))
  rw [← hp] at hpError
  rw [← hm₁] at hm₁Error
  rw [← hm₂] at hm₂Error
  rw [← hc] at hcError
  rw [← hd] at hdError
  have hε : (0 : ℚ) ≤ 2 ^ (-1075 : ℤ) := by positivity
  have hpow : (2 : ℚ) ^ (-1072 : ℤ) = 8 * 2 ^ (-1075 : ℤ) := by
    rw [show (-1072 : ℤ) = 3 + -1075 by norm_num, zpow_add₀ two_ne_zero]
    norm_num
  unfold productError
  rw [hpow]
  generalize (2 : ℚ) ^ (-1075 : ℤ) = ε at *
  have htri1 := abs_add_le (m₁ - xh * yl) (xh * yl)
  have htri2 := abs_add_le (m₂ - xl * yh) (xl * yh)
  have htri3 := abs_add_le m₁ m₂
  have htri4 := abs_add_le (c - (m₁ + m₂)) (m₁ + m₂)
  have htri5 := abs_sub (p + r - xh * yh) (p - xh * yh)
  have htri6 := abs_add_le r c
  rw [sub_add_cancel] at htri1 htri2 htri4
  rw [show p + r - xh * yh - (p - xh * yh) = r by ring] at htri5
  have hsplit : p + d - (xh + xl) * (yh + yl) = (p + r - xh * yh) + (m₁ - xh * yl)
      + (m₂ - xl * yh) + (c - (m₁ + m₂)) + (d - (r + c)) - xl * yl := by ring
  have htotal : |p + d - (xh + xl) * (yh + yl)| ≤ |p + r - xh * yh| + |m₁ - xh * yl|
      + |m₂ - xl * yh| + |c - (m₁ + m₂)| + |d - (r + c)| + |xl * yl| := by
    rw [hsplit]
    refine (abs_sub _ _).trans (add_le_add_left ?_ _)
    exact (abs_add_le _ _).trans (add_le_add_left ((abs_add_le _ _).trans (add_le_add_left
      ((abs_add_le _ _).trans (add_le_add_left (abs_add_le _ _) _)) _)) _)
  have hW := abs_nonneg ((xh + xl) * (yh + yl))
  norm_num only at hhh hhl hlh hll hpError hm₁Error hm₂Error hcError hdError ⊢
  linarith

/-- What `mul` makes of the words of two numbers and the error `r` of the product of their high
words. -/
def productWords (x y r : ℚ) : ℚ :=
  nearest (nearest x * nearest y)
    + nearest (r + nearest (nearest (nearest x * (y - nearest y))
      + nearest ((x - nearest x) * nearest y)))

/-- The error of the product of the high words, as `number_of_twoProduct` gives it. -/
def ProductError (x y r : ℚ) : Prop :=
  ∀ e f, Scaled e x → Scaled f y → |nearest (x * y) + r - x * y| ≤ 4 * underflow (e + f) ∧
    (e + f < -1160 → 0 ≤ x → 0 ≤ y → 0 ≤ nearest (x * y) + r)

theorem ProductError.eq_zero (h : ProductError x y r) (hx : Representable x)
    (hy : Representable y) (hxy : x * y = 0) : r = 0 := by
  obtain ⟨e, f, hef, hsx, hsy⟩ : ∃ e f, -1074 ≤ e + f ∧ Scaled e x ∧ Scaled f y := by
    obtain ⟨e, he⟩ := exists_scaled hx
    obtain ⟨f, hf⟩ := exists_scaled hy
    rcases mul_eq_zero.1 hxy with rfl | rfl
    · exact ⟨-f, f, by omega, .zero _, hf⟩
    · exact ⟨e, -e, by omega, he, .zero _⟩
  have herror := (h e f hsx hsy).1
  rw [hxy, nearest_zero, underflow_eq_zero hef, mul_zero, zero_add, sub_zero] at herror
  exact abs_nonpos_iff.1 herror

theorem productWords_eq_zero (h : ProductError (nearest x) (nearest y) r) (hxy : x * y = 0) :
    productWords x y r = 0 := by
  have hzero : nearest x * nearest y = 0 := by
    rcases mul_eq_zero.1 hxy with rfl | rfl <;> simp [nearest_zero]
  have hr := h.eq_zero (representable_nearest x) (representable_nearest y) hzero
  unfold productWords
  rw [hr, hzero]
  rcases mul_eq_zero.1 hxy with rfl | rfl <;> simp [nearest_zero]

theorem abs_productWords_sub_le (hx : a.IsNumber x) (hy : b.IsNumber y)
    (h : ProductError (nearest x) (nearest y) r) (hr : OnGrid (-1074) r) :
    |productWords x y r - x * y| ≤ productError (x * y) := by
  obtain ⟨e, he⟩ := exists_scaled (representable_nearest x)
  obtain ⟨f, hf⟩ := exists_scaled (representable_nearest y)
  have hpr := (h e f he hf).1.trans (mul_le_mul_of_nonneg_left (underflow_le (e + f))
    (by norm_num))
  have herror := abs_product_error (by rw [add_sub_cancel]; exact hx.abs_lo_le)
    (by rw [add_sub_cancel]; exact hy.abs_lo_le) hr rfl hpr rfl rfl rfl rfl
  rwa [add_sub_cancel, add_sub_cancel] at herror

section Scaled

variable {e f : ℤ}

/-- Of a tiny product only the product of the high words is left. -/
theorem productWords_of_tiny (hx : OnGrid (-1074) x) (hy : OnGrid (-1074) y)
    (he : Scaled e (nearest x)) (hf : Scaled f (nearest y)) (htiny : e + f < -1160)
    (hr : Representable r) : productWords x y r = nearest (nearest x * nearest y) + r := by
  obtain ⟨hhl, hlh, hclose⟩ := abs_nearest_words_mul_le hx hy
  have hhigh := le_zpow_of_le (j := -1055) (abs_mul_le_zpow he.lt.le hf.lt.le) (by omega)
  have hpow : (2 : ℚ) ^ (-1055 : ℤ) = 1048576 * 2 ^ (-1075 : ℤ) := by
    rw [show (-1055 : ℤ) = 20 + -1075 by norm_num, zpow_add₀ two_ne_zero]
    norm_num
  have hvanish : ∀ {z : ℚ}, |z| ≤ (2 ^ (-53 : ℤ) + 2 ^ (-106 : ℤ)) * |x * y| → nearest z = 0 := by
    intro z hz
    refine nearest_eq_zero ?_
    have habs := abs_sub_abs_le_abs_sub (x * y) (nearest x * nearest y)
    have hpos : (0 : ℚ) < 2 ^ (-1075 : ℤ) := by positivity
    rw [abs_sub_comm (x * y)] at habs
    rw [hpow] at hhigh
    generalize (2 : ℚ) ^ (-1075 : ℤ) = ε at *
    norm_num only at hz hclose
    linarith
  rw [productWords, hvanish hhl, hvanish hlh, add_zero, nearest_zero, add_zero, nearest_eq_self hr]

/-- Away from underflow the error of a product is less than the product. -/
theorem productError_le (hx : OnGrid (-1074) x) (hy : OnGrid (-1074) y)
    (he : Scaled e (nearest x)) (hf : Scaled f (nearest y)) (hlarge : -1160 ≤ e + f)
    (hxy : x * y ≠ 0) : productError (x * y) ≤ |x * y| := by
  obtain ⟨-, -, hclose⟩ := abs_nearest_words_mul_le hx hy
  have habs := abs_sub_abs_le_abs_sub (nearest x * nearest y) (x * y)
  have hpos := abs_pos.2 hxy
  have hnonzero : nearest x * nearest y ≠ 0 := by
    intro hzero
    rw [hzero, zero_sub, abs_neg] at hclose
    norm_num only at hclose
    linarith
  obtain ⟨hnx, hny⟩ := mul_ne_zero_iff.1 hnonzero
  have hhigh : (2 : ℚ) ^ (-1056 : ℤ) ≤ |nearest x * nearest y| := by
    calc (2 : ℚ) ^ (-1056 : ℤ) ≤ 2 ^ (e + 52 + (f + 52)) := le_zpow_of_le le_rfl (by omega)
      _ = 2 ^ (e + 52) * 2 ^ (f + 52) := zpow_add₀ two_ne_zero _ _
      _ ≤ |nearest x| * |nearest y| :=
          mul_le_mul (he.le hnx) (hf.le hny) (by positivity) (abs_nonneg _)
      _ = |nearest x * nearest y| := (abs_mul _ _).symm
  have hpow : (2 : ℚ) ^ (-1056 : ℤ) = 65536 * 2 ^ (-1072 : ℤ) := by
    rw [show (-1056 : ℤ) = 16 + -1072 by norm_num, zpow_add₀ two_ne_zero]
    norm_num
  rw [hpow] at hhigh
  rw [productError]
  clear hpow
  generalize (2 : ℚ) ^ (-1072 : ℤ) = ε at *
  norm_num only at hclose ⊢
  linarith

end Scaled

/-- Away from underflow a product of positive numbers is so much larger than its error that it is
positive; otherwise only the product of the high words is left. -/
theorem productWords_nonneg (hx : OnGrid (-1074) x) (hy : OnGrid (-1074) y)
    (h : ProductError (nearest x) (nearest y) r)
    (herror : |productWords x y r - x * y| ≤ productError (x * y)) (hr : Representable r)
    (hx0 : 0 ≤ x) (hy0 : 0 ≤ y) : 0 ≤ productWords x y r := by
  obtain ⟨e, he⟩ := exists_scaled (representable_nearest x)
  obtain ⟨f, hf⟩ := exists_scaled (representable_nearest y)
  rcases lt_or_ge (e + f) (-1160) with htiny | hlarge
  · rw [productWords_of_tiny hx hy he hf htiny hr]
    exact (h e f he hf).2 htiny (nearest_nonneg hx0) (nearest_nonneg hy0)
  · by_cases hzero : x * y = 0
    · exact (productWords_eq_zero h hzero).ge
    · have hle := herror.trans (productError_le hx hy he hf hlarge hzero)
      rw [abs_of_nonneg (mul_nonneg hx0 hy0)] at hle
      linarith [(abs_le.1 hle).1]

end Product

/-- The words of numbers whose high words have a finite product. -/
structure Factors (x y : ℚ) : Prop where
  high : |nearest x * nearest y| < 2 ^ (1024 : ℤ)
  highLow : |nearest x * (y - nearest y)| ≤ 2 ^ (973 : ℤ)
  lowHigh : |(x - nearest x) * nearest y| ≤ 2 ^ (973 : ℤ)
  close : |nearest x * nearest y - x * y| ≤ 2 ^ (-51 : ℤ) * |x * y|

/-- The product is out of range with that of the high words. -/
theorem Factors.large (h : Factors x y) (hlarge : 2 ^ (1023 : ℤ) ≤ |nearest x * nearest y|) :
    (nearest x * nearest y < 0 ↔ x * y < 0) ∧ 2 ^ (1022 : ℤ) ≤ |x * y| := by
  have hclose := h.close
  have htri := abs_sub_abs_le_abs_sub (nearest x * nearest y) (x * y)
  have htri' := abs_sub_abs_le_abs_sub (x * y) (nearest x * nearest y)
  have hM : (0 : ℚ) < 2 ^ (1022 : ℤ) := by positivity
  rw [abs_sub_comm (x * y)] at htri'
  rw [show (1023 : ℤ) = 1 + 1022 by norm_num, zpow_one_add₀ two_ne_zero] at hlarge
  generalize (2 : ℚ) ^ (1022 : ℤ) = M at *
  norm_num only at hclose
  exact ⟨neg_iff_of_abs_sub_lt (by linarith), by linarith⟩

theorem factors_of_lt (hx : OnGrid (-1074) x) (hy : OnGrid (-1074) y)
    (hp : |nearest (nearest x * nearest y)| < 2 ^ (1024 : ℤ)) : Factors x y := by
  have hhigh : |nearest x * nearest y| < 2 ^ (1024 : ℤ) := by
    by_contra! hge
    exact (zpow_le_abs_nearest (by norm_num) hge).not_gt hp
  obtain ⟨hhl, hlh, hclose⟩ := abs_nearest_words_mul_le hx hy
  have hxy : |x * y| ≤ 2 * 2 ^ (1024 : ℤ) := by
    have htri := abs_sub_abs_le_abs_sub (x * y) (nearest x * nearest y)
    rw [abs_sub_comm (x * y)] at htri
    clear hp
    generalize (2 : ℚ) ^ (1024 : ℤ) = M at *
    norm_num only at hclose
    linarith [abs_nonneg (nearest x * nearest y)]
  have hsmall : (2 ^ (-53 : ℤ) + 2 ^ (-106 : ℤ)) * |x * y| ≤ 2 ^ (973 : ℤ) := by
    calc (2 ^ (-53 : ℤ) + 2 ^ (-106 : ℤ)) * |x * y|
        ≤ 2 ^ (-52 : ℤ) * (2 * 2 ^ (1024 : ℤ)) :=
          mul_le_mul (by norm_num) hxy (abs_nonneg _) (by positivity)
      _ = 2 ^ (973 : ℤ) := by
          rw [← zpow_one_add₀ two_ne_zero, ← zpow_add₀ two_ne_zero]
          norm_num
  exact ⟨hhigh, hhl.trans hsmall, hlh.trans hsmall, hclose⟩

/-- The crossed products of two numbers have a finite sum if the product of the high words is
finite. -/
theorem datum_crossed (hx : a.IsNumber x) (hy : b.IsNumber y) (h : Factors x y) :
    datum (a.hi * b.lo + a.lo * b.hi) = .number (nearest (nearest (nearest x * (y - nearest y))
        + nearest ((x - nearest x) * nearest y))) ∧
      |nearest (nearest (nearest x * (y - nearest y)) + nearest ((x - nearest x) * nearest y))|
        ≤ 2 ^ (974 : ℤ) := by
  obtain ⟨hhl, hhlle⟩ := datum_mul_of_le hx.hi hy.lo (by norm_num) (by norm_num) h.highLow
  obtain ⟨hlh, hlhle⟩ := datum_mul_of_le hx.lo hy.hi (by norm_num) (by norm_num) h.lowHigh
  have hsum := nearest_add_le_zpow (by norm_num) hhlle hlhle
  exact ⟨datum_add_of_lt hhl hlh (lt_zpow_of_le hsum (by norm_num)), hsum⟩

/-- The error of a finite product is small. -/
theorem ProductError.abs_le {r : ℚ} (h : ProductError x y r) (hx : Representable x)
    (hy : Representable y) (hxy : |x * y| < 2 ^ (1024 : ℤ)) : |r| ≤ 2 ^ (974 : ℤ) := by
  obtain ⟨e, he⟩ := exists_scaled hx
  obtain ⟨f, hf⟩ := exists_scaled hy
  have herror := (h e f he hf).1
  have hround := abs_nearest_sub_le_unit_add (x * y)
  have hκ := underflow_le (e + f)
  have hpow : (2 : ℚ) ^ (1024 : ℤ) = 2 ^ 50 * 2 ^ (974 : ℤ) := by
    rw [show (1024 : ℤ) = 50 + 974 by norm_num, zpow_add₀ two_ne_zero]
    rfl
  have hε : (2 : ℚ) ^ (-1075 : ℤ) ≤ 2 ^ (-10 : ℤ) * 2 ^ (974 : ℤ) := by
    rw [← zpow_add₀ two_ne_zero]
    exact zpow_le_zpow_right₀ one_le_two (by norm_num)
  have htri := abs_sub (nearest (x * y) + r - x * y) (nearest (x * y) - x * y)
  rw [show nearest (x * y) + r - x * y - (nearest (x * y) - x * y) = r by ring] at htri
  have hM : (0 : ℚ) < 2 ^ (974 : ℤ) := by positivity
  rw [hpow] at hxy
  clear hpow
  generalize (2 : ℚ) ^ (974 : ℤ) = M at *
  generalize (2 : ℚ) ^ (-1075 : ℤ) = ε at *
  norm_num only at hround hε
  linarith

/-- A product has a relative error and that of an underflow, unless it leaves NaN. It vanishes with
a factor, and it keeps the sign of nonnegative factors. -/
theorem mul_spec (ha : a.Normalised) (hb : b.Normalised) :
    datum (a * b).hi = .nan ∨ ∃ x y, a.IsNumber x ∧ b.IsNumber y ∧
      Outcome (x * y) (fun z => |z - x * y| ≤ productError (x * y) ∧ (x * y = 0 → z = 0) ∧
        (0 ≤ x → 0 ≤ y → 0 ≤ z)) (a * b) := by
  set high := twoProduct a.hi b.hi with hhigh
  set crossed := a.hi * b.lo + a.lo * b.hi with hcrossed
  have hmul : a * b = ⟨(twoSum high.1 (high.2 + crossed)).1,
    (twoSum high.1 (high.2 + crossed)).2⟩ := rfl
  have hhi : datum (a * b).hi = datum high.1 + (datum high.2 + datum crossed) := by
    rw [hmul]
    change datum (high.1 + (high.2 + crossed)) = _
    rw [datum_add, datum_add]
  cases hp : datum high.1 with
  | nan =>
    rw [hp, Datum.nan_add] at hhi
    exact .inl hhi
  | infinity s =>
    -- the error has the opposite infinity
    rw [hp] at hhi
    exact .inl (hhi.trans (Datum.Lost.add_lost (.inl rfl)
      ((lost_twoProduct_of_infinity hp).add _)))
  | number p =>
    obtain ⟨xh, yh, hxh, hyh, rfl⟩ := number_of_mul hp
    obtain ⟨x, hx⟩ := ha xh hxh
    obtain ⟨y, hy⟩ := hb yh hyh
    cases hxh.symm.trans hx.hi
    cases hyh.symm.trans hy.hi
    have hfactors := factors_of_lt hx.onGrid hy.onGrid (abs_lt_of_datum hp)
    obtain ⟨hc, hcle⟩ := datum_crossed hx hy hfactors
    rcases datum_twoProduct hxh hyh (abs_lt_of_datum hp) with ⟨r, hr⟩ | hnan | ⟨hlost, hlarge⟩
    · refine .inr ⟨x, y, hx, hy, ?_⟩
      obtain ⟨x', y', hx', hy', -, herror⟩ := number_of_twoProduct hr
      cases hxh.symm.trans hx'
      cases hyh.symm.trans hy'
      change ProductError (nearest x) (nearest y) r at herror
      have hrle := herror.abs_le (representable_of_datum hxh) (representable_of_datum hyh)
        hfactors.high
      have hdle := nearest_add_le_zpow (by norm_num) hrle hcle
      have hd := datum_add_of_lt hr hc (lt_zpow_of_le hdle (by norm_num))
      have hdle' := le_zpow_of_le (j := 1000) hdle (by norm_num)
      have hbound := abs_productWords_sub_le hx hy herror (representable_of_datum hr).onGrid
      rw [hmul]
      exact outcome_twoSum hp hd hdle' ⟨hbound, productWords_eq_zero herror,
        productWords_nonneg hx.onGrid hy.onGrid herror hbound (representable_of_datum hr)⟩ hbound
    · rw [hnan, Datum.nan_add, Datum.add_nan] at hhi
      exact .inl hhi
    · -- the product of the high words is out of range, up to its last bits
      rcases (hlost.add (datum crossed)).add_right (Datum.number (nearest (nearest x * nearest y)))
        with hinfinity | hnan
      · have hsign := hfactors.large hlarge
        exact .inr ⟨x, y, hx, hy, .overflow (hhi.trans (by rw [hp, hinfinity])) hsign.2
          (decide_eq_decide.2 hsign.1)⟩
      · rw [hp, hnan] at hhi
        exact .inl hhi

theorem IsNumber.normalised (h : a.IsNumber x) : a.Normalised := fun _ _ => ⟨x, h⟩

theorem Outcome.normalised {r : ℚ} {P : ℚ → Prop} (h : Outcome r P a) : a.Normalised := by
  intro z hz
  cases h with
  | number h => exact ⟨_, h⟩
  | overflow h => cases h.symm.trans hz

theorem normalised_ofFloat (w : Float) : (ofFloat w).Normalised := fun z hz => ⟨z, .ofFloat hz⟩

theorem normalised_of_nan (h : datum a.hi = .nan) : a.Normalised := fun _ hz => by
  cases h.symm.trans hz

theorem Normalised.add (ha : a.Normalised) (hb : b.Normalised) : (a + b).Normalised := by
  rcases add_spec ha hb with hnan | ⟨x, y, -, -, h⟩
  · exact normalised_of_nan hnan
  · exact h.normalised

theorem Normalised.mul (ha : a.Normalised) (hb : b.Normalised) : (a * b).Normalised := by
  rcases mul_spec ha hb with hnan | ⟨x, y, -, -, h⟩
  · exact normalised_of_nan hnan
  · exact h.normalised

theorem Normalised.neg (ha : a.Normalised) : (-a).Normalised := by
  intro z hz
  rw [neg_hi] at hz
  rw [datum_neg] at hz
  obtain ⟨x, hx⟩ := ha _ (Datum.neg_eq_number_iff.1 hz)
  exact ⟨-x, hx.neg⟩

theorem Normalised.abs (ha : a.Normalised) : a.abs.Normalised := by
  unfold DoubleWord.abs
  split_ifs
  · exact ha.neg
  · exact ha

/-- A number with a zero high word is zero. -/
theorem IsNumber.eq_zero_of_hi (h : a.IsNumber x) (hhi : datum a.hi = .number 0) : x = 0 := by
  have hnearest : nearest x = 0 := Datum.number.inj (h.hi.symm.trans hhi)
  have hlo := h.abs_lo_le
  rw [hnearest, sub_zero] at hlo
  norm_num only at hlo
  exact abs_eq_zero.1 (by linarith [abs_nonneg x])

theorem isNumber_zero : (ofFloat 0).IsNumber 0 := .ofFloat datum_zero

theorem IsNumber.eq_zero_iff (h : a.IsNumber x) : (a.hi == 0 && a.lo == 0) = true ↔ x = 0 := by
  rw [Bool.and_eq_true, beq_zero_iff, beq_zero_iff, h.hi, h.lo, Datum.number.injEq,
    Datum.number.injEq]
  constructor
  · rintro ⟨hhi, hlo⟩
    rwa [hhi, sub_zero] at hlo
  · rintro rfl
    rw [nearest_zero, sub_zero]
    exact ⟨rfl, rfl⟩

theorem compare?_neg (a b : DoubleWord) : a.compare? (-b) = b.compare? (-a) := by
  have hword : ∀ v w : Float, Binary64.compare? v (-w) = Binary64.compare? w (-v) := by
    intro v w
    rw [compare?_eq, compare?_eq, datum_neg, datum_neg, ← Datum.neg_neg (datum v),
      Datum.compare?_neg, Datum.neg_neg]
  unfold DoubleWord.compare?
  rw [neg_hi, neg_hi, neg_lo, neg_lo, hword a.hi b.hi, hword a.lo b.lo]

/-- A NaN in the high word is ordered with nothing. -/
theorem not_less_of_nan (h : datum a.hi = .nan ∨ datum b.hi = .nan) : a.less b = false := by
  have hnone : Binary64.compare? a.hi b.hi = none := by
    rw [compare?_eq]
    rcases h with h | h <;> rw [h]
    · rfl
    · exact Datum.compare?_nan _
  simp [less, DoubleWord.compare?, hnone]

/-- A number is only below the positive infinity. -/
theorem IsNumber.less_infinity (ha : a.IsNumber x) {s : Bool} (hb : datum b.hi = .infinity s) :
    a.less b = !s := by
  have hcompare : Binary64.compare? a.hi b.hi = some (if s then .gt else .lt) := by
    rw [compare?_eq, ha.hi, hb]
    rfl
  cases s <;> simp [less, DoubleWord.compare?, hcompare]

end ExactSphere.DoubleWord
