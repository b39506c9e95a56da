import ExactSphere.Proofs.Binary64.Datum

/-!
# Overflow

A rounded number overflows from halfway between the largest double and `2 ^ 1024` on
(`exists_round_eq_infinity_iff`). Below that, its rounding error is at most half the distance of the
largest doubles (`abs_nearest_sub_le_of_lt`).
-/

namespace ExactSphere.Binary64

variable {a : ℚ}

/-! ## Clipping -/

namespace Datum

theorem clip_of_lt (h : |a| < 2 ^ (1024 : ℤ)) : clip a = number a := if_pos h

theorem clip_of_le (h : 2 ^ (1024 : ℤ) ≤ |a|) : clip a = infinity (a < 0) := if_neg h.not_gt

theorem clip_of_nonneg_of_le (h : 2 ^ (1024 : ℤ) ≤ a) : clip a = infinity false := by
  have hpos : 0 < a := lt_of_lt_of_le (by positivity) h
  rw [clip_of_le (by rwa [abs_of_pos hpos]), decide_eq_false hpos.not_gt]

theorem clip_neg (a : ℚ) : clip (-a) = -clip a := by
  unfold clip
  rw [abs_neg]
  split_ifs with hlt
  · rfl
  · have ha : a ≠ 0 := by
      rintro rfl
      exact hlt (by rw [abs_zero]; positivity)
    rcases lt_or_gt_of_ne ha with hneg | hpos
    · simp [hneg, hneg.le, neg_infinity]
    · simp [hpos, hpos.le, neg_infinity]

/-- A representable number is only clipped. -/
theorem round_eq_clip (h : Representable a) : round a = clip a := by rw [round, nearest_eq_self h]

end Datum

/-! ## The threshold -/

/-- The number that is halfway between the largest double and `2 ^ 1024` is rounded up. -/
theorem nearest_halfway : nearest (2 ^ (1024 : ℤ) - 2 ^ (970 : ℤ)) = 2 ^ (1024 : ℤ) := by
  have hsplit : (2 : ℚ) ^ (1024 : ℤ) - 2 ^ (970 : ℤ) = 18014398509481983 / 2 * 2 ^ (971 : ℤ) := by
    rw [show (1024 : ℤ) = 53 + 971 by norm_num, show (970 : ℤ) = 971 - 1 by norm_num,
      zpow_add₀ two_ne_zero, zpow_sub_one₀ two_ne_zero]
    ring
  have hpos : (0 : ℚ) < 2 ^ (971 : ℤ) := by positivity
  have hulp : ulpExponent (18014398509481983 / 2 * 2 ^ (971 : ℤ)) = 971 := by
    have habs : |18014398509481983 / 2 * (2 : ℚ) ^ (971 : ℤ)| =
        18014398509481983 / 2 * 2 ^ (971 : ℤ) := abs_of_pos (by positivity)
    refine le_antisymm (ulpExponent_le (by norm_num) ?_) (le_ulpExponent ?_)
    · rw [habs, add_comm, zpow_add₀ two_ne_zero]
      exact mul_lt_mul_of_pos_right (by norm_num) hpos
    · rw [habs, add_comm, zpow_add₀ two_ne_zero]
      exact mul_le_mul_of_nonneg_right (by norm_num) hpos.le
  have hround : roundEven (18014398509481983 / 2) = 2 ^ 53 := by decide +kernel
  have hcast : ((2 ^ 53 : ℤ) : ℚ) = 2 ^ (53 : ℤ) := by norm_num
  rw [hsplit, nearest, hulp, mul_div_cancel_right₀ _ hpos.ne', hround, hcast,
    ← zpow_add₀ two_ne_zero]
  norm_num

theorem le_abs_nearest_iff :
    2 ^ (1024 : ℤ) ≤ |nearest a| ↔ 2 ^ (1024 : ℤ) - 2 ^ (970 : ℤ) ≤ |a| := by
  constructor
  · intro h
    by_contra! hlt
    have hpos : (0 : ℚ) < 2 ^ (970 : ℤ) := by positivity
    have herror := abs_nearest_sub_le_of_le (x := a) (e := 971) (by norm_num)
      (hlt.le.trans (sub_le_self _ hpos.le))
    have htri := abs_sub_abs_le_abs_sub (nearest a) a
    rw [show (971 - 1 : ℤ) = 970 by norm_num] at herror
    linarith
  · intro h
    rw [abs_nearest, ← nearest_halfway]
    exact nearest_mono h

/-- A number overflows from halfway between the largest double and `2 ^ 1024` on. -/
theorem exists_round_eq_infinity_iff :
    (∃ s, Datum.round a = .infinity s) ↔ 2 ^ (1024 : ℤ) - 2 ^ (970 : ℤ) ≤ |a| := by
  rw [← le_abs_nearest_iff, Datum.round, Datum.clip, ← not_lt]
  split_ifs with hlt
  · refine iff_of_false ?_ (not_not.2 hlt)
    rintro ⟨s, hs⟩
    cases hs
  · exact iff_of_true ⟨_, rfl⟩ hlt

/-! ## The largest double -/

/-- The largest double. -/
def largest : ℚ := 2 ^ (1024 : ℤ) - 2 ^ (971 : ℤ)

theorem abs_nearest_lt_iff : |nearest a| < 2 ^ (1024 : ℤ) ↔ |a| < largest + 2 ^ (970 : ℤ) := by
  have hhalfway : largest + 2 ^ (970 : ℤ) = 2 ^ (1024 : ℤ) - 2 ^ (970 : ℤ) := by
    rw [largest, show (971 : ℤ) = 1 + 970 by norm_num, zpow_one_add₀ two_ne_zero]
    ring
  rw [hhalfway, ← not_le, le_abs_nearest_iff, not_le]

/-- The rounding error of a number that does not overflow. -/
theorem abs_nearest_sub_le_of_lt (h : |nearest a| < 2 ^ (1024 : ℤ)) :
    |nearest a - a| ≤ 2 ^ (970 : ℤ) := by
  have hlt := not_le.1 (mt le_abs_nearest_iff.2 h.not_ge)
  have hpos : (0 : ℚ) < 2 ^ (970 : ℤ) := by positivity
  exact abs_nearest_sub_le_of_le (e := 971) (by norm_num) (hlt.le.trans (sub_le_self _ hpos.le))

theorem zpow_lt_largest {k : ℤ} (hk : k ≤ 1023) : 2 ^ k < largest := by
  calc (2 : ℚ) ^ k ≤ 2 ^ (1023 : ℤ) := zpow_le_zpow_right₀ one_le_two hk
    _ = 2 ^ (1024 : ℤ) - 2 ^ (1023 : ℤ) := by
      rw [show (1024 : ℤ) = 1 + 1023 by norm_num, zpow_one_add₀ two_ne_zero, two_mul,
        add_sub_cancel_right]
    _ < largest := sub_lt_sub_left (zpow_lt_zpow_right₀ one_lt_two (by norm_num)) _

theorem lt_largest_of_le {k : ℤ} (h : a ≤ 2 ^ k) (hk : k ≤ 1023) : a < largest :=
  h.trans_lt (zpow_lt_largest hk)

theorem largest_pos : 0 < largest := (zpow_pos two_pos 0).trans (zpow_lt_largest (by norm_num))

theorem Representable.abs_le_largest (h : Representable a) (hlt : |a| < 2 ^ (1024 : ℤ)) :
    |a| ≤ largest := by
  rcases le_or_gt (2 ^ (1023 : ℤ)) |a| with hle | hsmall
  · have hgrid : OnGrid 971 a := h.onGrid_of_le (hle.trans_eq' (by norm_num))
    have hgap := hgrid.abs.add_le_of_lt ((OnGrid.zpow 1024).mono (by norm_num)) hlt
    rw [largest]
    linarith
  · exact (hsmall.trans (zpow_lt_largest le_rfl)).le

end ExactSphere.Binary64
