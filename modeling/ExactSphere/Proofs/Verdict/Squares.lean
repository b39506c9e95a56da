import ExactSphere.Proofs.Angle
import ExactSphere.Proofs.Verdict.Distance
import ExactSphere.Proofs.Verdict.Radical

/-!
# Verdicts by squaring are right

Quantities of different signs are ordered by their signs, and quantities of one sign by their
squares, the other way round below zero. Hence the verdicts that compare squares of exact numbers
are those of the roots that the formulas avoid: a root difference has the sign that its verdict
says (`RootDifference.verdict_eq`), a sum of three terms as well (`RootTerm.sumVerdict_eq`), and the
comparison of cosines is that of the cosines themselves (`Distance.cosineVerdict_eq`,
`Distance.cosineRadiusVerdict_eq`).
-/

namespace ExactSphere

/-! ## Signs of differences -/

namespace Sign

variable {p q : ℝ}

theorem of_mul (p q : ℝ) : Sign.of (p * q) = Sign.of p * Sign.of q := by
  rcases lt_trichotomy p 0 with hp | rfl | hp
  · rw [of_neg hp, ← neg_mul_neg, of_mul_of_pos (neg_pos.2 hp), of_neg_eq]
    rfl
  · rw [zero_mul, of_zero]
    rfl
  · rw [of_mul_of_pos hp, of_pos hp]
    rfl

theorem toOrdering_of_sub (p q : ℝ) : (Sign.of (p - q)).toOrdering = compare p q := by
  rcases lt_trichotomy p q with h | rfl | h
  · rw [of_neg (sub_neg.2 h), compare_lt_iff_lt.2 h]
    rfl
  · rw [sub_self, of_zero, compare_eq_iff_eq.2 rfl]
    rfl
  · rw [of_pos (sub_pos.2 h), compare_gt_iff_gt.2 h]
    rfl

/-- Quantities of different signs are ordered by these. -/
theorem of_sub_of_ne (h : Sign.of p ≠ Sign.of q) :
    Sign.of (p - q) = ofOrdering ((Sign.of p).order (Sign.of q)) := by
  cases hp : Sign.of p <;> cases hq : Sign.of q
  case negative.negative | zero.zero | positive.positive => exact absurd (hp.trans hq.symm) h
  all_goals simp only [of_eq_negative_iff, of_eq_zero_iff, of_eq_positive_iff] at hp hq
  case negative.zero | negative.positive | zero.positive => exact of_neg (by linarith)
  case zero.negative | positive.negative | positive.zero => exact of_pos (by linarith)

/-- The sum of two quantities of one sign has that sign. -/
theorem of_add_of_eq (h : Sign.of p = Sign.of q) : Sign.of (p + q) = Sign.of p := by
  cases hp : Sign.of p with
  | negative =>
    exact of_neg (add_neg (of_eq_negative_iff.1 hp) (of_eq_negative_iff.1 (h.symm.trans hp)))
  | zero => rw [of_eq_zero_iff.1 hp, zero_add, ← h, hp]
  | positive =>
    exact of_pos (add_pos (of_eq_positive_iff.1 hp) (of_eq_positive_iff.1 (h.symm.trans hp)))

/-- A quantity less one of the opposite sign keeps its sign. -/
theorem of_sub_of_opposite (h : Sign.of p = -Sign.of q) : Sign.of (p - q) = Sign.of p := by
  rw [sub_eq_add_neg]
  exact of_add_of_eq (h.trans (of_neg_eq q).symm)

theorem eq_of_ne_neg {s t : Sign} (hs : s ≠ .zero) (ht : t ≠ .zero) (h : s ≠ -t) : s = t := by
  cases s <;> cases t
  case negative.negative | positive.positive => rfl
  case negative.positive | positive.negative => exact absurd rfl h
  all_goals contradiction

/-- Quantities of one sign are ordered by their squares. -/
theorem of_sub_of_eq (h : Sign.of p = Sign.of q) :
    Sign.of (p - q) = Sign.of p * Sign.of (p * p - q * q) := by
  rw [mul_self_sub_mul_self, of_mul, of_add_of_eq h]
  cases hp : Sign.of p with
  | zero =>
    rw [hp] at h
    rw [of_eq_zero_iff.1 hp, of_eq_zero_iff.1 h.symm, sub_self, of_zero]
    rfl
  | negative | positive => cases Sign.of (p - q) <;> rfl

/-- Quantities that are not negative are ordered by their squares. -/
theorem of_mul_self_sub (hp : 0 ≤ p) (hq : 0 ≤ q) : Sign.of (p * p - q * q) = Sign.of (p - q) := by
  rw [mul_self_sub_mul_self]
  rcases (add_nonneg hp hq).eq_or_lt with hzero | hpos
  · obtain ⟨rfl, rfl⟩ := (add_eq_zero_iff_of_nonneg hp hq).1 hzero.symm
    rw [sub_self, mul_zero]
  · exact of_mul_of_pos hpos _

end Sign

/-! ## Root differences -/

theorem RootTerm.verdict_eq {t : RootTerm ℚ} (h : 0 ≤ t.radicand) :
    t.verdict = Sign.of ((t.coefficient : ℝ) * √t.radicand) := by
  unfold RootTerm.verdict
  rcases h.eq_or_lt with hzero | hpos
  · rw [← hzero]
    simp
  · have hroot : 0 < √(t.radicand : ℝ) := Real.sqrt_pos.2 (by exact_mod_cast hpos)
    rw [if_neg (mt Sign.of_eq_zero_iff.1 hpos.ne'), mul_comm, Sign.of_mul_of_pos hroot,
      Sign.of_ratCast]

/-- The sign found by squaring is that of the difference. -/
theorem RootDifference.verdict_eq {d : RootDifference ℚ} (h : 0 ≤ d.radicand) :
    d.verdict = Sign.of ((d.rational : ℝ) - d.coefficient * √d.radicand) := by
  have hroot := RootTerm.verdict_eq (t := ⟨d.radicand, d.coefficient⟩) h
  have hsquare : (d.coefficient : ℝ) * √d.radicand * (d.coefficient * √d.radicand) =
      d.coefficient * d.coefficient * d.radicand := by
    rw [mul_mul_mul_comm, Real.mul_self_sqrt (by exact_mod_cast h)]
  unfold RootDifference.verdict
  rw [hroot, ← Sign.of_ratCast d.rational, ← Sign.of_ratCast (_ - _)]
  push_cast
  rw [← hsquare]
  generalize (d.coefficient : ℝ) * √d.radicand = q
  generalize (d.rational : ℝ) = p
  split_ifs with hzero hrational hopposite
  · rw [Sign.of_eq_zero_iff.1 hzero, sub_zero]
  · rw [Sign.of_eq_zero_iff.1 hrational, zero_sub, Sign.of_neg_eq]
  · exact (Sign.of_sub_of_opposite hopposite).symm
  · exact (Sign.of_sub_of_eq (Sign.eq_of_ne_neg hrational hzero hopposite)).symm

/-! ## Sums of terms -/

namespace RootTerm

/-- The real number that a term stands for. -/
noncomputable def toReal (t : RootTerm ℚ) : ℝ := t.coefficient * √t.radicand

variable {r s t : RootTerm ℚ}

theorem verdict_eq_toReal (h : 0 ≤ t.radicand) : t.verdict = Sign.of t.toReal := verdict_eq h

theorem toReal_mul_self (h : 0 ≤ t.radicand) : t.toReal * t.toReal = t.exactSquare := by
  rw [toReal, mul_mul_mul_comm, Real.mul_self_sqrt (by exact_mod_cast h), exactSquare]
  push_cast
  ring

/-- Two terms of opposite signs are compared by their squares. -/
theorem pairVerdict_eq (hs : 0 ≤ s.radicand) (ht : 0 ≤ t.radicand) :
    pairVerdict s t = Sign.of (s.toReal + t.toReal) := by
  have hsquares := Sign.of_ratCast (s.exactSquare - t.exactSquare)
  rw [Rat.cast_sub, ← toReal_mul_self hs, ← toReal_mul_self ht] at hsquares
  rw [pairVerdict, verdict_eq_toReal hs, verdict_eq_toReal ht, ← hsquares]
  generalize s.toReal = p
  generalize t.toReal = q
  split_ifs with hsame hzero
  · rcases hsame with hp | hsame
    · rw [Sign.of_eq_zero_iff.1 hp, zero_add]
    · rw [Sign.of_add_of_eq hsame, hsame]
  · rw [Sign.of_eq_zero_iff.1 hzero, add_zero]
  · obtain ⟨hp, hne⟩ := not_or.1 hsame
    have hopposite : Sign.of p = Sign.of (-q) := by
      rw [Sign.of_neg_eq]
      refine Sign.eq_of_ne_neg hp (fun h => hzero ?_) (by rwa [Sign.neg_neg])
      rw [← Sign.neg_neg (Sign.of q), h]
      rfl
    rw [← sub_neg_eq_add, Sign.of_sub_of_eq hopposite, neg_mul_neg]

/-- The sign found by squaring twice is that of the sum. -/
theorem sumVerdict_eq (hr : 0 ≤ r.radicand) (hs : 0 ≤ s.radicand) (ht : 0 ≤ t.radicand) :
    sumVerdict r s t = Sign.of (r.toReal + s.toReal + t.toReal) := by
  have hpair : -pairVerdict s t = Sign.of (-(s.toReal + t.toReal)) := by
    rw [pairVerdict_eq hs ht, Sign.of_neg_eq]
  have hdifference := RootDifference.verdict_eq
    (d := ⟨r.exactSquare - s.exactSquare - t.exactSquare, 2 * s.coefficient * t.coefficient,
      s.radicand * t.radicand⟩) (mul_nonneg hs ht)
  have hsquares : ((r.exactSquare - s.exactSquare - t.exactSquare : ℚ) : ℝ) -
      (2 * s.coefficient * t.coefficient : ℚ) * √(s.radicand * t.radicand : ℚ) =
        r.toReal * r.toReal - -(s.toReal + t.toReal) * -(s.toReal + t.toReal) := by
    rw [Rat.cast_mul s.radicand, Real.sqrt_mul (by exact_mod_cast hs)]
    push_cast
    rw [← toReal_mul_self hr, ← toReal_mul_self hs, ← toReal_mul_self ht]
    simp only [toReal]
    ring
  dsimp only at hdifference
  rw [sumVerdict, hpair, hdifference, hsquares, verdict_eq_toReal hr, add_assoc,
    ← sub_neg_eq_add r.toReal]
  generalize r.toReal = p
  generalize -(s.toReal + t.toReal) = q
  split_ifs with hne hzero
  · exact (Sign.of_sub_of_ne hne).symm
  · rw [not_not.1 hne] at hzero
    rw [Sign.of_sub_of_eq (not_not.1 hne), not_not.1 hne, hzero]
    rfl
  · exact (Sign.of_sub_of_eq (not_not.1 hne)).symm

end RootTerm

/-! ## Cosines -/

/-- Quantities are compared by their signs, and by their squares if these are the same. -/
theorem Sign.order_by_squares (p q : ℝ) :
    (if Sign.of q ≠ Sign.of p then (Sign.of p).order (Sign.of q)
      else (Sign.of q * Sign.of (p * p - q * q)).toOrdering) = compare p q := by
  rw [← toOrdering_of_sub]
  split_ifs with hne
  · rw [of_sub_of_ne (Ne.symm hne), toOrdering_ofOrdering]
  · rw [of_sub_of_eq (not_not.1 hne).symm, not_not.1 hne]

namespace Distance

/-- The comparison of two angles at `x` is that of their cosines. -/
theorem cosineVerdict_eq {a b : Vec3 ℚ} (ha : 0 < a.normSq) (hb : 0 < b.normSq) (x : Vec3 ℚ) :
    cosineVerdict x a b = compare (x.real.dot b.real * a.real.length)
      (x.real.dot a.real * b.real.length) := by
  have hlengthA : 0 < a.real.length := Vec3.length_pos (Vec3.real_normSq_pos ha)
  have hlengthB : 0 < b.real.length := Vec3.length_pos (Vec3.real_normSq_pos hb)
  have hsignA : Sign.of (x.dot a) = Sign.of (x.real.dot a.real * b.real.length) := by
    rw [mul_comm, Sign.of_mul_of_pos hlengthB, Vec3.real_dot, Sign.of_ratCast]
  have hsignB : Sign.of (x.dot b) = Sign.of (x.real.dot b.real * a.real.length) := by
    rw [mul_comm, Sign.of_mul_of_pos hlengthA, Vec3.real_dot, Sign.of_ratCast]
  have hsquares : ((x.dot b * x.dot b * a.normSq - x.dot a * x.dot a * b.normSq : ℚ) : ℝ) =
      x.real.dot b.real * a.real.length * (x.real.dot b.real * a.real.length) -
        x.real.dot a.real * b.real.length * (x.real.dot a.real * b.real.length) := by
    rw [mul_mul_mul_comm, mul_mul_mul_comm (x.real.dot a.real), Vec3.length_mul_self,
      Vec3.length_mul_self]
    simp only [Vec3.real_dot, Vec3.real_normSq]
    push_cast
    rfl
  rw [cosineVerdict, hsignA, hsignB, ← Sign.of_ratCast (_ - _), hsquares]
  exact Sign.order_by_squares _ _

/-- The comparison of an angle with a radius is that of their cosines. -/
theorem cosineRadiusVerdict_eq {x y : Vec3 ℚ} (hx : 0 < x.normSq) (hy : 0 < y.normSq) (r2 : ℚ) :
    cosineRadiusVerdict x y r2 =
      compare ((1 - 1 / 2 * r2 : ℚ) * (x.real.length * y.real.length)) (x.real.dot y.real) := by
  have hlength : 0 < x.real.length * y.real.length :=
    mul_pos (Vec3.length_pos (Vec3.real_normSq_pos hx)) (Vec3.length_pos (Vec3.real_normSq_pos hy))
  have hangle : Sign.of (x.dot y) = Sign.of (x.real.dot y.real) := by
    rw [Vec3.real_dot, Sign.of_ratCast]
  have hradius : Sign.of (1 - 1 / 2 * r2) =
      Sign.of ((1 - 1 / 2 * r2 : ℚ) * (x.real.length * y.real.length)) := by
    rw [mul_comm (Rat.cast _), Sign.of_mul_of_pos hlength, Sign.of_ratCast]
  have hsquares : (((1 - 1 / 2 * r2) * (1 - 1 / 2 * r2) * x.normSq * y.normSq -
      x.dot y * x.dot y : ℚ) : ℝ) =
        (1 - 1 / 2 * r2 : ℚ) * (x.real.length * y.real.length) *
          ((1 - 1 / 2 * r2 : ℚ) * (x.real.length * y.real.length)) -
            x.real.dot y.real * x.real.dot y.real := by
    rw [mul_mul_mul_comm, mul_mul_mul_comm x.real.length, Vec3.length_mul_self,
      Vec3.length_mul_self]
    simp only [Vec3.real_dot, Vec3.real_normSq]
    push_cast
    ring
  rw [cosineRadiusVerdict, hangle, hradius, ← Sign.of_ratCast (_ - _), hsquares]
  exact Sign.order_by_squares _ _

end Distance
end ExactSphere
