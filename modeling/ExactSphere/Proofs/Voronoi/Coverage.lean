import ExactSphere.Proofs.Verdict.Squares

/-!
# Intervals on a great circle

Within a radius of cosine `c`, a site covers an interval of the great circle with a given normal,
centred on its projection. `Inside c n a b` is the inequality that places the interval of `a`
inside that of `b`. It bounds the cosine between the two projections from below
(`Inside.projection_ge`), and this makes `b` at least as near as `a` to every point that `a` covers
(`Inside.nearer`): the difference of the two cosines is linear along the circle.
-/

namespace ExactSphere.Voronoi

/-- The square of the sine of half the interval that a site covers, up to the lengths of the
vectors. It is negative if the site is too far from the circle to cover any of it. -/
def reach {R : Type} [CommRing R] (c : R) (n a : Vec3 R) : R :=
  n.normSq * (1 - c * c) * a.normSq - a.dot n * a.dot n

theorem reach_real (c : ℚ) (n a : Vec3 ℚ) :
    reach (c : ℝ) n.real a.real = (reach c n a : ℚ) := by
  simp only [reach, Vec3.real_normSq, Vec3.real_dot]
  push_cast
  rfl

/-- The interval of `a` lies inside that of `b`: the projections are less than 90 degrees apart,
and no farther than the two half intervals differ. -/
structure Inside (c : ℝ) (n a b : Vec3 ℝ) : Prop where
  near : 0 < a.dot b * n.normSq - a.dot n * b.dot n
  turn_le : |(a.cross b).dot n| ≤ c * (a.length * √(reach c n b) - b.length * √(reach c n a))

variable {c : ℝ} {n a b q : Vec3 ℝ}

/-- How far the half intervals of two sites differ. -/
noncomputable def halfDifference (c : ℝ) (n a b : Vec3 ℝ) : ℝ :=
  c * (a.length * √(reach c n b) - b.length * √(reach c n a))

theorem root_mul_self (ha : 0 ≤ reach c n a) (b : Vec3 ℝ) :
    b.length * √(reach c n a) * (b.length * √(reach c n a)) = b.normSq * reach c n a := by
  rw [mul_mul_mul_comm, Vec3.length_mul_self, Real.mul_self_sqrt ha]

/-- The longer half interval is found by squares. -/
theorem sign_halfDifference (hc : 0 < c) (ha : 0 ≤ reach c n a) (hb : 0 ≤ reach c n b) :
    Sign.of (halfDifference c n a b) =
      Sign.of (a.normSq * reach c n b - b.normSq * reach c n a) := by
  rw [halfDifference, Sign.of_mul_of_pos hc, ← root_mul_self hb, ← root_mul_self ha,
    Sign.of_mul_self_sub (mul_nonneg a.length_nonneg (Real.sqrt_nonneg _))
      (mul_nonneg b.length_nonneg (Real.sqrt_nonneg _))]

/-- The intervals compared by squaring twice: the half intervals of `a` and `b` differ by more than
the projections are apart, or by less. -/
theorem sign_gap (ha : 0 ≤ reach c n a) (hb : 0 ≤ reach c n b)
    (hlength : 0 ≤ halfDifference c n a b) :
    Sign.of (c * c * (a.normSq * reach c n b + b.normSq * reach c n a) -
      (a.cross b).dot n * (a.cross b).dot n -
        2 * (c * c) * √(a.normSq * reach c n b * (b.normSq * reach c n a))) =
      Sign.of (halfDifference c n a b - |(a.cross b).dot n|) := by
  have hlong : 0 ≤ a.length * √(reach c n b) := mul_nonneg a.length_nonneg (Real.sqrt_nonneg _)
  have hshort : 0 ≤ b.length * √(reach c n a) := mul_nonneg b.length_nonneg (Real.sqrt_nonneg _)
  rw [← Sign.of_mul_self_sub hlength (abs_nonneg _), abs_mul_abs_self, halfDifference,
    ← root_mul_self hb, ← root_mul_self ha, mul_mul_mul_comm (a.length * _),
    Real.sqrt_mul_self (mul_nonneg hlong hshort)]
  congr 1
  ring

/-- What is covered of the distance between a site and the normal, by Pythagoras. -/
theorem normSq_cross_eq (h : 0 ≤ reach c n a) :
    (n.cross a).normSq =
      √(reach c n a) * √(reach c n a) + c * a.length * (c * a.length) * n.normSq := by
  rw [Real.mul_self_sqrt h, mul_mul_mul_comm, Vec3.length_mul_self, Vec3.normSq_cross,
    Vec3.dot_comm n a, reach]
  ring

/-- The projections of two sites, their cosine and their sine. -/
theorem normSq_cross_mul_normSq_cross (n a b : Vec3 ℝ) :
    (n.cross a).normSq * (n.cross b).normSq =
      (a.dot b * n.normSq - a.dot n * b.dot n) * (a.dot b * n.normSq - a.dot n * b.dot n) +
        (a.cross b).dot n * (a.cross b).dot n * n.normSq := by
  simp only [Vec3.normSq, Vec3.dot, Vec3.cross]
  ring

/-- The cosine between two projections is at least that of the difference of the half intervals. -/
theorem Inside.projection_ge (h : Inside c n a b) (ha : 0 ≤ reach c n a) (hb : 0 ≤ reach c n b) :
    √(reach c n a) * √(reach c n b) + c * a.length * (c * b.length) * n.normSq ≤
      a.dot b * n.normSq - a.dot n * b.dot n := by
  have hlength := mul_nonneg a.length_nonneg b.length_nonneg
  have hnonneg : 0 ≤ √(reach c n a) * √(reach c n b) +
      c * a.length * (c * b.length) * n.normSq := by
    have hroots := mul_nonneg (Real.sqrt_nonneg (reach c n a)) (Real.sqrt_nonneg (reach c n b))
    have hsquare := mul_nonneg (mul_nonneg (mul_self_nonneg c) hlength) n.normSq_nonneg
    linarith
  have hturn : (a.cross b).dot n * (a.cross b).dot n ≤
      c * (a.length * √(reach c n b) - b.length * √(reach c n a)) *
        (c * (a.length * √(reach c n b) - b.length * √(reach c n a))) := by
    rw [← abs_mul_abs_self]
    exact mul_self_le_mul_self (abs_nonneg _) h.turn_le
  have hproduct := normSq_cross_mul_normSq_cross n a b
  rw [normSq_cross_eq ha, normSq_cross_eq hb] at hproduct
  rw [mul_self_le_mul_self_iff hnonneg h.near.le]
  linarith [mul_le_mul_of_nonneg_right hturn n.normSq_nonneg]

/-! ## Points of the circle

A point `q` of the circle has two coordinates: `q.dot a` along the projection of a site `a`, and
`(n.cross a).dot q` across it. -/

section Circle

variable (hq : n.dot q = 0)

include hq

theorem dot_mul_normSq_cross (a b : Vec3 ℝ) : q.dot b * (n.cross a).normSq =
    q.dot a * (a.dot b * n.normSq - a.dot n * b.dot n) +
      (n.cross a).dot q * (a.cross b).dot n := by
  have hproduct := Vec3.det_mul_det n a q b
  rw [hq, Vec3.det_rotate n a b, Vec3.dot_comm a q, Vec3.dot_comm n a,
    Vec3.dot_comm n b] at hproduct
  linarith

theorem normSq_mul_normSq_cross (a : Vec3 ℝ) : q.normSq * (n.cross a).normSq =
    q.dot a * q.dot a * n.normSq + (n.cross a).dot q * (n.cross a).dot q := by
  have hproduct := Vec3.det_mul_det n a q q
  rw [hq, Vec3.dot_comm a q] at hproduct
  change _ = _ + q.normSq * _ at hproduct
  linarith

/-- A covered point is within half of the interval from its middle. -/
theorem abs_across_le (hc : 0 < c) (ha : 0 < a.normSq) (hreach : 0 ≤ reach c n a)
    (hcover : c * (q.length * a.length) ≤ q.dot a) :
    c * a.length * |(n.cross a).dot q| ≤ √(reach c n a) * q.dot a := by
  have hlength := Vec3.length_pos ha
  have hcosine : 0 ≤ c * (q.length * a.length) :=
    mul_nonneg hc.le (mul_nonneg q.length_nonneg hlength.le)
  have hsquares : c * a.length * (c * a.length) * (q.normSq * (n.cross a).normSq) ≤
      q.dot a * q.dot a * (n.cross a).normSq := by
    have hscaled := mul_le_mul_of_nonneg_right (mul_self_le_mul_self hcosine hcover)
      (n.cross a).normSq_nonneg
    rw [← q.length_mul_self]
    linarith
  rw [normSq_mul_normSq_cross hq, normSq_cross_eq hreach] at hsquares
  rw [mul_self_le_mul_self_iff (by positivity)
    (mul_nonneg (Real.sqrt_nonneg _) (hcosine.trans hcover)), mul_mul_mul_comm, abs_mul_abs_self]
  linarith

end Circle

/-- The site with the larger interval is the nearer one wherever the other site covers. -/
theorem Inside.nearer (h : Inside c n a b) (hc : 0 < c) (hn : 0 < n.normSq) (ha : 0 < a.normSq)
    (hreachA : 0 ≤ reach c n a) (hreachB : 0 ≤ reach c n b) (hq : n.dot q = 0)
    (hcover : c * (q.length * a.length) ≤ q.dot a) :
    q.dot a * b.length ≤ q.dot b * a.length := by
  have hlength := Vec3.length_pos ha
  have hcosine : 0 ≤ q.dot a :=
    (mul_nonneg hc.le (mul_nonneg q.length_nonneg hlength.le)).trans hcover
  have hpos : 0 < (n.cross a).normSq := by
    have := mul_self_nonneg √(reach c n a)
    rw [normSq_cross_eq hreachA]
    positivity
  have hacross := mul_le_mul_of_nonneg_right (abs_across_le hq hc ha hreachA hcover)
    (abs_nonneg ((a.cross b).dot n))
  -- the bounds of `h`, scaled to be added up
  have hprojection := mul_le_mul_of_nonneg_left (h.projection_ge hreachA hreachB)
    (mul_nonneg hcosine (mul_pos hc hlength).le)
  have hturn := mul_le_mul_of_nonneg_left h.turn_le
    (mul_nonneg hcosine (Real.sqrt_nonneg (reach c n a)))
  have hlow : -(c * a.length * |(n.cross a).dot q| * |(a.cross b).dot n|) ≤
      c * a.length * ((n.cross a).dot q * (a.cross b).dot n) := by
    have := neg_abs_le ((n.cross a).dot q * (a.cross b).dot n)
    rw [abs_mul] at this
    linarith [mul_le_mul_of_nonneg_left this (mul_pos hc hlength).le]
  have hdotB := congrArg (c * a.length * ·) (dot_mul_normSq_cross hq a b)
  have hdotA := congrArg (q.dot a * (c * b.length) * ·) (normSq_cross_eq hreachA)
  have hdifference : 0 ≤ c * (n.cross a).normSq * (q.dot b * a.length - q.dot a * b.length) := by
    linarith
  exact sub_nonneg.1 (nonneg_of_mul_nonneg_right hdifference (mul_pos hc hpos))

end ExactSphere.Voronoi
