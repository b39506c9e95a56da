import ExactSphere.Proofs.Voronoi.Coverage

/-!
# Intervals as sets of directions

The interval of a site is the set of directions on the circle within the radius of the site (`arc`),
and its ends are those at the radius. The inequality `Inside` is equivalent to the inclusion of the
intervals (`arc_subset_iff`): the ends of the smaller one have to lie in the larger one, and the
points between them do so as well. An included interval shares an end with the larger one if and
only if the inequality is an equality (`exists_common_end_iff`).
-/

namespace ExactSphere.Voronoi

/-- The directions on the circle of normal `n` within an angle of a site. -/
def arc (n a : Vec3 ℝ) (r : ℝ) : Set (Vec3 ℝ) :=
  {q | q.normSq = 1 ∧ n.dot q = 0 ∧ q.angle a ≤ r}

/-- The ends of the interval of a site: the directions on the circle at the given angle. -/
def arcEnds (n a : Vec3 ℝ) (r : ℝ) : Set (Vec3 ℝ) :=
  {q | q.normSq = 1 ∧ n.dot q = 0 ∧ q.angle a = r}

variable {c σ : ℝ} {n a b q : Vec3 ℝ}

theorem length_eq_one (h : q.normSq = 1) : q.length = 1 := by rw [Vec3.length, h, Real.sqrt_one]

section Membership

variable (hmin : -1 ≤ c) (hmax : c ≤ 1) (ha : 0 < a.normSq)

include hmin hmax ha

theorem mem_arc_iff : q ∈ arc n a (Real.arccos c) ↔
    q.normSq = 1 ∧ n.dot q = 0 ∧ c * a.length ≤ q.dot a := by
  refine and_congr_right fun hq => and_congr_right fun _ => ?_
  rw [Vec3.angle_le_arccos_iff (hq.symm ▸ one_pos) ha hmin hmax, length_eq_one hq, one_mul]

theorem mem_arcEnds_iff : q ∈ arcEnds n a (Real.arccos c) ↔
    q.normSq = 1 ∧ n.dot q = 0 ∧ q.dot a = c * a.length := by
  refine and_congr_right fun hq => and_congr_right fun _ => ?_
  rw [Vec3.angle_eq_arccos_iff (hq.symm ▸ one_pos) ha hmin hmax, length_eq_one hq, one_mul]

end Membership

/-! ## The ends of an interval -/

/-- The end of the interval of a site, on the side given by a sign. -/
noncomputable def arcEnd (c σ : ℝ) (n a : Vec3 ℝ) : Vec3 ℝ :=
  ((n.cross a).cross n).scale (c * a.length / (n.cross a).normSq) +
    (n.cross a).scale (σ * √(reach c n a) / (n.cross a).normSq)

theorem arcEnd_dot (hpos : (n.cross a).normSq ≠ 0) (b : Vec3 ℝ) :
    (arcEnd c σ n a).dot b * (n.cross a).normSq =
      c * a.length * (a.dot b * n.normSq - a.dot n * b.dot n) +
        σ * √(reach c n a) * (a.cross b).dot n := by
  rw [arcEnd, Vec3.combination_dot, Vec3.cross_cross_dot, Vec3.det_rotate n a b]
  field_simp

theorem normal_dot_arcEnd (c σ : ℝ) (n a : Vec3 ℝ) : n.dot (arcEnd c σ n a) = 0 := by
  rw [Vec3.dot_comm, arcEnd, Vec3.combination_dot, Vec3.cross_dot_right, Vec3.cross_dot_left,
    mul_zero, mul_zero, add_zero]

theorem normSq_arcEnd (hσ : σ * σ = 1) (hreach : 0 ≤ reach c n a)
    (hpos : (n.cross a).normSq ≠ 0) : (arcEnd c σ n a).normSq = 1 := by
  have hroot := Real.mul_self_sqrt hreach
  have hsplit := normSq_cross_eq hreach
  rw [hroot] at hsplit
  rw [arcEnd, Vec3.normSq_combination, Vec3.cross_dot_left, Vec3.normSq_cross_cross, mul_zero,
    add_zero]
  generalize √(reach c n a) = root at *
  field_simp
  rw [hsplit]
  linear_combination root * root * hσ + hroot

theorem arcEnd_dot_self (hpos : (n.cross a).normSq ≠ 0) :
    (arcEnd c σ n a).dot a = c * a.length := by
  have hself : (a.cross a).dot n = 0 := by
    simp only [Vec3.dot, Vec3.cross]
    ring
  refine mul_right_cancel₀ hpos ?_
  rw [arcEnd_dot hpos, hself, Vec3.normSq_cross, Vec3.dot_comm n a]
  change _ * (a.normSq * n.normSq - _) + _ = _
  ring

/-- One of the two signs turns a quantity below zero. -/
theorem exists_sign_mul_eq (x : ℝ) : ∃ σ : ℝ, σ * σ = 1 ∧ σ * x = -|x| := by
  rcases abs_cases x with ⟨h, -⟩ | ⟨h, -⟩
  · exact ⟨-1, by norm_num, by rw [h]; ring⟩
  · exact ⟨1, by norm_num, by rw [h]; ring⟩

/-! ## Inclusion

Two half intervals have cosines `p` and `q` and sines `s` and `t`, up to the lengths of the sites
and of the normal, whose square is `k`. The projections of the sites have the cosine `x` and the
sine `d`, up to the same lengths. -/

section Plane

variable {p q s t x d k : ℝ} (hk : 0 < k) (hp : 0 < p) (hx : 0 ≤ x) (hd : 0 ≤ d)
  (hcircle : (s * s + p * p * k) * (t * t + q * q * k) = x * x + d * d * k)

include hk hp hx hd hcircle

/-- If the first projection turned by its half interval is not beyond the end of the second one, the
projections are no farther apart than the half intervals differ. -/
theorem turn_le_of_ends (hq : 0 ≤ q) (hs : 0 ≤ s) (ht : 0 ≤ t)
    (h : q * (s * s + p * p * k) + s * d ≤ p * x) : d ≤ p * t - q * s := by
  have hlength : 0 < s * s + p * p * k := by positivity
  have hacross : 0 ≤ s * x + p * k * d := by positivity
  have hsquares : (p * x - s * d) * (p * x - s * d) * k +
      (s * x + p * k * d) * (s * x + p * k * d) =
        (s * s + p * p * k) * ((s * s + p * p * k) * (t * t + q * q * k)) := by
    rw [hcircle]
    ring
  have hcosine : q * (s * s + p * p * k) * (q * (s * s + p * p * k)) * k ≤
      (p * x - s * d) * (p * x - s * d) * k :=
    mul_le_mul_of_nonneg_right (mul_self_le_mul_self (by positivity) (by linarith)) hk.le
  have hsine : s * x + p * k * d ≤ (s * s + p * p * k) * t := by
    rw [mul_self_le_mul_self_iff hacross (by positivity)]
    linarith
  refine le_of_mul_le_mul_left ?_ hlength
  linarith [mul_le_mul_of_nonneg_left hsine hp.le, mul_le_mul_of_nonneg_left h hs]

/-- The cosine of the difference of the half intervals goes with its sine. -/
theorem cosine_eq_iff (hq : 0 ≤ q) (hs : 0 ≤ s) (ht : 0 ≤ t) (hle : q * s ≤ p * t) :
    x = s * t + p * q * k ↔ d = p * t - q * s := by
  have hdifference : (s * s + p * p * k) * (t * t + q * q * k) =
      (s * t + p * q * k) * (s * t + p * q * k) + (p * t - q * s) * (p * t - q * s) * k := by
    ring
  have hsum : 0 ≤ s * t + p * q * k := by positivity
  rw [← mul_self_inj hx hsum, ← mul_self_inj hd (sub_nonneg.2 hle)]
  constructor
  · intro h
    exact mul_right_cancel₀ hk.ne' (by linarith)
  · intro h
    rw [h] at hcircle
    linarith

end Plane

section Inclusion

variable (hc : 0 < c) (hn : 0 < n.normSq) (ha : 0 < a.normSq) (hb : 0 < b.normSq)
  (hreachA : 0 ≤ reach c n a) (hreachB : 0 ≤ reach c n b)

include hc hn ha hreachA

theorem normSq_cross_pos : 0 < (n.cross a).normSq := by
  have hlength := Vec3.length_pos ha
  have hroot := mul_self_nonneg √(reach c n a)
  rw [normSq_cross_eq hreachA]
  positivity

include hb hreachB

/-- An interval whose ends are in another one is inside it. -/
theorem inside_of_ends (h : c * b.length * (n.cross a).normSq +
      √(reach c n a) * |(a.cross b).dot n| ≤
    c * a.length * (a.dot b * n.normSq - a.dot n * b.dot n)) : Inside c n a b := by
  have hp := mul_pos hc (Vec3.length_pos ha)
  have hq := mul_pos hc (Vec3.length_pos hb)
  have hroot := mul_nonneg (Real.sqrt_nonneg (reach c n a)) (abs_nonneg ((a.cross b).dot n))
  have hnear : 0 < a.dot b * n.normSq - a.dot n * b.dot n := by
    have hpositive := mul_pos hq (normSq_cross_pos hc hn ha hreachA)
    exact (mul_pos_iff_of_pos_left hp).1 (by linarith)
  have hproduct := normSq_cross_mul_normSq_cross n a b
  rw [← abs_mul_abs_self ((a.cross b).dot n), normSq_cross_eq hreachA,
    normSq_cross_eq hreachB] at hproduct
  rw [normSq_cross_eq hreachA] at h
  have hturn := turn_le_of_ends hn hp hnear.le (abs_nonneg _) hproduct hq.le
    (Real.sqrt_nonneg _) (Real.sqrt_nonneg _) h
  exact ⟨hnear, hturn.trans_eq (by ring)⟩

/-- The intervals compared by their ends are compared as sets. -/
theorem arc_subset_iff (hmax : c ≤ 1) :
    arc n a (Real.arccos c) ⊆ arc n b (Real.arccos c) ↔ Inside c n a b := by
  have hmin : -1 ≤ c := by linarith
  have hpos := normSq_cross_pos hc hn ha hreachA
  constructor
  case mp =>
    intro h
    obtain ⟨σ, hσ, hturn⟩ := exists_sign_mul_eq ((a.cross b).dot n)
    have hend : arcEnd c σ n a ∈ arc n a (Real.arccos c) :=
      (mem_arc_iff hmin hmax ha).2 ⟨normSq_arcEnd hσ hreachA hpos.ne', normal_dot_arcEnd c σ n a,
        (arcEnd_dot_self hpos.ne').ge⟩
    obtain ⟨-, -, hcovered⟩ := (mem_arc_iff hmin hmax hb).1 (h hend)
    have hscaled := mul_le_mul_of_nonneg_right hcovered hpos.le
    rw [arcEnd_dot hpos.ne', mul_right_comm σ, hturn] at hscaled
    exact inside_of_ends hc hn ha hb hreachA hreachB (by linarith)
  case mpr =>
    intro h q hq
    obtain ⟨hunit, hcircle, hcover⟩ := (mem_arc_iff hmin hmax ha).1 hq
    have hlength := Vec3.length_pos ha
    have hnearer :=
      h.nearer hc hn ha hreachA hreachB hcircle (by rwa [length_eq_one hunit, one_mul])
    refine (mem_arc_iff hmin hmax hb).2 ⟨hunit, hcircle, le_of_mul_le_mul_right ?_ hlength⟩
    linarith [mul_le_mul_of_nonneg_right hcover b.length_nonneg]

/-- An interval inside another one shares an end with it if it is as far aside as it can be. -/
theorem exists_common_end_iff (hmax : c ≤ 1) (h : Inside c n a b) :
    (arcEnds n a (Real.arccos c) ∩ arcEnds n b (Real.arccos c)).Nonempty ↔
      |(a.cross b).dot n| = halfDifference c n a b := by
  have hmin : -1 ≤ c := by linarith
  have hpos := normSq_cross_pos hc hn ha hreachA
  have hp := mul_pos hc (Vec3.length_pos ha)
  have hq := mul_pos hc (Vec3.length_pos hb)
  have hproduct := normSq_cross_mul_normSq_cross n a b
  rw [← abs_mul_abs_self ((a.cross b).dot n), normSq_cross_eq hreachA,
    normSq_cross_eq hreachB] at hproduct
  have hdifference : halfDifference c n a b =
      c * a.length * √(reach c n b) - c * b.length * √(reach c n a) := by
    rw [halfDifference]
    ring
  have hturn : |(a.cross b).dot n| ≤ halfDifference c n a b := h.turn_le
  have hnonneg := (abs_nonneg _).trans hturn
  rw [hdifference, ← cosine_eq_iff hn hp h.near.le (abs_nonneg _) hproduct hq.le
    (Real.sqrt_nonneg _) (Real.sqrt_nonneg _) (by linarith)]
  constructor
  case mp =>
    rintro ⟨q, hqa, hqb⟩
    obtain ⟨hunit, hcircle, hcosineA⟩ := (mem_arcEnds_iff hmin hmax ha).1 hqa
    obtain ⟨-, -, hcosineB⟩ := (mem_arcEnds_iff hmin hmax hb).1 hqb
    have hlength := normSq_mul_normSq_cross hcircle a
    have hdot := dot_mul_normSq_cross hcircle a b
    rw [hunit, one_mul, hcosineA, normSq_cross_eq hreachA] at hlength
    rw [hcosineA, hcosineB, normSq_cross_eq hreachA] at hdot
    have hacross : |(n.cross a).dot q| = √(reach c n a) := by
      rw [← mul_self_inj (abs_nonneg _) (Real.sqrt_nonneg _), abs_mul_abs_self]
      linarith
    have hlow := neg_abs_le ((n.cross a).dot q * (a.cross b).dot n)
    rw [abs_mul, hacross] at hlow
    refine le_antisymm (le_of_mul_le_mul_left ?_ hp) (h.projection_ge hreachA hreachB)
    rw [hdifference] at hturn
    linarith [mul_le_mul_of_nonneg_left hturn (Real.sqrt_nonneg (reach c n a))]
  case mpr =>
    intro hcosine
    have hdistance := (cosine_eq_iff hn hp h.near.le (abs_nonneg _) hproduct hq.le
      (Real.sqrt_nonneg _) (Real.sqrt_nonneg _) (by linarith)).1 hcosine
    obtain ⟨σ, hσ, hsign⟩ := exists_sign_mul_eq ((a.cross b).dot n)
    have hunit := normSq_arcEnd hσ hreachA hpos.ne'
    have hcircle := normal_dot_arcEnd c σ n a
    refine ⟨arcEnd c σ n a,
      (mem_arcEnds_iff hmin hmax ha).2 ⟨hunit, hcircle, arcEnd_dot_self hpos.ne'⟩,
      (mem_arcEnds_iff hmin hmax hb).2 ⟨hunit, hcircle, mul_right_cancel₀ hpos.ne' ?_⟩⟩
    rw [arcEnd_dot hpos.ne', mul_right_comm σ, hsign, hcosine, hdistance, normSq_cross_eq hreachA]
    ring

end Inclusion

end ExactSphere.Voronoi
