import ExactSphere.Proofs.Voronoi.Exclusion

/-!
# The nearest point of an edge

The comparison of a point with an edge is that of the least angle between the point and a point of
the edge (`exists_isLeast`). If the point projects inside the edge, the least angle is the one to
its projection (`isLeast_foot`): no other direction of the circle is nearer. Otherwise it is that to
an end (`isLeast_ends`). The end nearest to the projection lies between the projection and the
points of the edge, and a direction between two others is not the farthest of the three.
-/

namespace ExactSphere.Edge

open Distance (cosineRadiusVerdict)
open Voronoi (radius radiusCosine neg_one_le_radiusCosine radiusCosine_le_one)

variable {x a0 a1 p q v : Vec3 ℝ} {s t : ℝ}

/-! ## Directions between others -/

/-- A direction between two others is not the farthest of the three. -/
theorem nearer_of_between {k l m : ℝ} (hk : 0 < k) (hl : 0 ≤ l) (hm : 0 ≤ m)
    (hv : v.scale k = q.scale l + p.scale m) (hq : 0 ≤ x.dot q)
    (hp : x.dot q * p.length ≤ x.dot p * q.length) :
    x.dot q * v.length ≤ x.dot v * q.length := by
  have hdot : k * x.dot v = l * x.dot q + m * x.dot p := by
    rw [← Vec3.dot_scale, hv, Vec3.dot_combination]
  have hlength : k * v.length ≤ l * q.length + m * p.length := by
    rw [← Vec3.length_scale hk.le, hv]
    exact Vec3.length_combination_le hl hm q p
  refine le_of_mul_le_mul_left ?_ hk
  calc k * (x.dot q * v.length) = x.dot q * (k * v.length) := by ring
    _ ≤ x.dot q * (l * q.length + m * p.length) := mul_le_mul_of_nonneg_left hlength hq
    _ = l * x.dot q * q.length + m * (x.dot q * p.length) := by ring
    _ ≤ l * x.dot q * q.length + m * (x.dot p * q.length) := by
      linarith [mul_le_mul_of_nonneg_left hp hm]
    _ = k * (x.dot v * q.length) := by rw [← mul_assoc k, hdot]; ring

/-- An end is as near as a combination of the ends that is not too short. -/
theorem nearer_end_of_length (hs : 0 ≤ s) (ht : 0 ≤ t) (hst : s ≠ 0 ∨ t ≠ 0)
    (hq : q = a0.scale s + a1.scale t)
    (hlength : x.dot q * (s * a0.length + t * a1.length) ≤ x.dot q * q.length) :
    x.dot q * a0.length ≤ x.dot a0 * q.length ∨ x.dot q * a1.length ≤ x.dot a1 * q.length := by
  have hdot : x.dot q = s * x.dot a0 + t * x.dot a1 := by rw [hq, Vec3.dot_combination]
  by_contra hfar
  simp only [not_or, not_le] at hfar
  obtain ⟨h0, h1⟩ := hfar
  have hsum : s * (x.dot a0 * q.length) + t * (x.dot a1 * q.length) <
      s * (x.dot q * a0.length) + t * (x.dot q * a1.length) := by
    rcases hst with hs0 | ht0
    · exact add_lt_add_of_lt_of_le (mul_lt_mul_of_pos_left h0 (hs.lt_of_ne' hs0))
        (mul_le_mul_of_nonneg_left h1.le ht)
    · exact add_lt_add_of_le_of_lt (mul_le_mul_of_nonneg_left h0.le hs)
        (mul_lt_mul_of_pos_left h1 (ht.lt_of_ne' ht0))
  have hexact := congrArg (· * q.length) hdot
  linarith

/-! ## The foot of the perpendicular -/

/-- The projection of a point on the circle of an edge, up to a positive factor. -/
def foot (x a0 a1 : Vec3 ℝ) : Vec3 ℝ :=
  a0.scale ((a0.cross a1).dot (x.cross a1)) + a1.scale ((a0.cross a1).dot (a0.cross x))

theorem foot_eq (x a0 a1 : Vec3 ℝ) :
    foot x a0 a1 = ((a0.cross a1).cross x).cross (a0.cross a1) := by
  change Vec3.mk _ _ _ = Vec3.mk _ _ _
  congr 1 <;> simp only [Vec3.scale, Vec3.map, Vec3.cross, Vec3.dot] <;> ring

theorem foot_dot (hv : v.dot (a0.cross a1) = 0) :
    (foot x a0 a1).dot v = x.dot v * (a0.cross a1).normSq := by
  rw [foot_eq, Vec3.cross_cross_dot, hv, mul_zero, sub_zero]

theorem foot_dot_normal (x a0 a1 : Vec3 ℝ) : (foot x a0 a1).dot (a0.cross a1) = 0 := by
  rw [foot_eq, Vec3.cross_dot_right]

theorem normSq_foot (x a0 a1 : Vec3 ℝ) :
    (foot x a0 a1).normSq = x.dot (foot x a0 a1) * (a0.cross a1).normSq :=
  foot_dot (foot_dot_normal x a0 a1)

theorem dot_foot (x a0 a1 : Vec3 ℝ) :
    x.dot (foot x a0 a1) = ((a0.cross a1).cross x).normSq := by
  rw [Vec3.dot_comm, foot_eq, Vec3.cross_cross_dot, Vec3.normSq_cross (a0.cross a1) x,
    Vec3.dot_comm x (a0.cross a1), mul_comm (a0.cross a1).normSq]
  rfl

theorem length_foot (x a0 a1 : Vec3 ℝ) :
    (foot x a0 a1).length = ((a0.cross a1).cross x).length * (a0.cross a1).length := by
  rw [foot_eq, Vec3.length, Vec3.normSq_cross_cross, Real.sqrt_mul (Vec3.normSq_nonneg _)]
  rfl

theorem sine_pos (hpos : 0 < (foot x a0 a1).normSq) : 0 < ((a0.cross a1).cross x).length := by
  have hlength := Vec3.length_pos hpos
  rw [length_foot] at hlength
  exact pos_of_mul_pos_left hlength (Vec3.length_nonneg _)

/-- The angle to the projection is compared with a radius by the sine of that at the normal. -/
theorem compare_angle_foot {c : ℝ} (hx : 0 < x.normSq) (hpos : 0 < (foot x a0 a1).normSq)
    (hmin : -1 ≤ c) (hmax : c ≤ 1) :
    compare (x.angle (foot x a0 a1)) (Real.arccos c) =
      compare (c * (x.length * (a0.cross a1).length)) ((a0.cross a1).cross x).length := by
  have hscale : c * (x.length * (foot x a0 a1).length) =
      c * (x.length * (a0.cross a1).length) * ((a0.cross a1).cross x).length := by
    rw [length_foot]
    ring
  rw [Vec3.compare_angle_arccos hx hpos hmin hmax, dot_foot, ← Vec3.length_mul_self, hscale,
    ← cmp_eq_compare, (strictMono_mul_right_of_pos (sine_pos hpos)).cmp_map_eq, cmp_eq_compare]

theorem dot_foot_pos (hn : 0 < (a0.cross a1).normSq) (hv : v.dot (a0.cross a1) = 0)
    (hnear : 0 < x.dot v) : 0 < x.dot (foot x a0 a1) := by
  have hlength : 0 < (foot x a0 a1).normSq := by
    refine Vec3.normSq_pos_of_dot (w := v) ?_
    rw [foot_dot hv]
    exact (mul_pos hnear hn).ne'
  rw [normSq_foot] at hlength
  exact (pos_iff_pos_of_mul_pos hlength).2 hn

/-- No direction of the circle is nearer than the projection. -/
theorem nearer_foot (hn : 0 < (a0.cross a1).normSq) (hv : v.dot (a0.cross a1) = 0) :
    x.dot v * (foot x a0 a1).length ≤ x.dot (foot x a0 a1) * v.length := by
  have hcauchy := mul_le_mul_of_nonneg_right (Vec3.dot_le_length_mul_length (foot x a0 a1) v)
    (foot x a0 a1).length_nonneg
  have hsquare := (foot x a0 a1).length_mul_self
  rw [normSq_foot] at hsquare
  rw [foot_dot hv] at hcauchy
  refine le_of_mul_le_mul_right ?_ hn
  linarith [congrArg (· * v.length) hsquare]

/-! ## The nearer end -/

/-- A combination of two vectors is turned to the first one by another combination. -/
theorem scale_eq_combination (a0 a1 : Vec3 ℝ) (s t u0 u1 : ℝ) :
    a0.scale (t * u1 - s * u0) =
      (a0.scale s + a1.scale t).scale (-u0) + (a0.scale u1 + a1.scale u0).scale t := by
  change Vec3.mk _ _ _ = Vec3.mk _ _ _
  congr 1 <;> simp only [Vec3.scale, Vec3.map, Vec3.add_x, Vec3.add_y, Vec3.add_z] <;> ring

theorem cross_dot_cross_comm (a0 a1 x : Vec3 ℝ) :
    (a1.cross a0).dot (x.cross a0) = (a0.cross a1).dot (a0.cross x) := by
  simp only [Vec3.dot, Vec3.cross]
  ring

section Ends

variable (hn : 0 < (a0.cross a1).normSq) (hs : 0 ≤ s) (ht : 0 ≤ t) (hst : s ≠ 0 ∨ t ≠ 0)
  (hq : q = a0.scale s + a1.scale t)

include hn hs ht hst hq

/-- If the projection is not before the second end, an end is between it and a near point. -/
theorem nearer_end_of_beyond (hout : (a0.cross a1).dot (x.cross a1) ≤ 0) (hnear : 0 < x.dot q) :
    x.dot q * a0.length ≤ x.dot a0 * q.length ∨ x.dot q * a1.length ≤ x.dot a1 * q.length := by
  have hcircle : q.dot (a0.cross a1) = 0 := by
    rw [hq, Vec3.dot_comm, Vec3.cross_dot_combination]
  have hfoot := nearer_foot (x := x) hn hcircle
  have hfirst := scale_eq_combination a0 a1 s t ((a0.cross a1).dot (a0.cross x))
    ((a0.cross a1).dot (x.cross a1))
  have hsecond := scale_eq_combination a1 a0 t s ((a0.cross a1).dot (x.cross a1))
    ((a0.cross a1).dot (a0.cross x))
  rw [Vec3.combination_comm a1 a0, Vec3.combination_comm a1 a0] at hsecond
  rw [← foot, ← hq] at hfirst hsecond
  generalize (a0.cross a1).dot (a0.cross x) = u0 at *
  generalize (a0.cross a1).dot (x.cross a1) = u1 at *
  have hbeyond : t * u1 ≤ 0 := mul_nonpos_of_nonneg_of_nonpos ht hout
  -- the end on the way from the point to the projection
  rcases lt_trichotomy (s * u0) (t * u1) with hlt | heq | hgt
  · have hbefore : u0 < 0 := neg_of_mul_neg_right (hlt.trans_le hbeyond) hs
    exact .inl (nearer_of_between (sub_pos.2 hlt) (by linarith) ht hfirst hnear.le hfoot)
  · -- the point is on the way itself, and can only be the second end
    have hdot := congrArg x.dot hsecond
    rw [heq, sub_self, Vec3.dot_scale, zero_mul, Vec3.dot_combination] at hdot
    have hstart : s = 0 := by
      refine le_antisymm (nonpos_of_mul_nonpos_left ?_ (dot_foot_pos hn hcircle hnear)) hs
      linarith [mul_nonpos_of_nonpos_of_nonneg hout hnear.le]
    have hend : t ≠ 0 := hst.resolve_left (not_not.2 hstart)
    refine .inr (nearer_of_between (ht.lt_of_ne' hend) zero_le_one le_rfl ?_ hnear.le hfoot)
    rw [hq, hstart]
    change Vec3.mk _ _ _ = Vec3.mk _ _ _
    congr 1 <;> simp [Vec3.scale, Vec3.map]
  · exact .inr (nearer_of_between (sub_pos.2 hgt) (by linarith) hs hsecond hnear.le hfoot)

/-- If the point does not project inside the edge, no point of the edge is nearer than both ends. -/
theorem nearer_end_of_outside
    (hout : ¬(0 < (a0.cross a1).dot (a0.cross x) ∧ 0 < (a0.cross a1).dot (x.cross a1))) :
    x.dot q * a0.length ≤ x.dot a0 * q.length ∨ x.dot q * a1.length ≤ x.dot a1 * q.length := by
  rcases le_or_gt (x.dot q) 0 with hfar | hnear
  · refine nearer_end_of_length hs ht hst hq (mul_le_mul_of_nonpos_left ?_ hfar)
    rw [hq]
    exact Vec3.length_combination_le hs ht a0 a1
  · rcases not_and_or.1 hout with hbefore | hbeyond
    · rw [← cross_dot_cross_comm, not_lt] at hbefore
      rw [Vec3.combination_comm] at hq
      have hn' : 0 < (a1.cross a0).normSq := by rwa [Vec3.normSq_cross_comm]
      exact (nearer_end_of_beyond hn' ht hs hst.symm hq hbefore hnear).symm
    · exact nearer_end_of_beyond hn hs ht hst hq (not_lt.1 hbeyond) hnear

end Ends

/-- Between parallel ends, each of them is as near as any other point. -/
theorem nearer_end_of_parallel (hs : 0 ≤ s) (ht : 0 ≤ t) (hst : s ≠ 0 ∨ t ≠ 0)
    (hq : q = a0.scale s + a1.scale t) (hn : (a0.cross a1).normSq = 0) (hdot : 0 < a0.dot a1) :
    x.dot q * a0.length ≤ x.dot a0 * q.length ∨ x.dot q * a1.length ≤ x.dot a1 * q.length := by
  refine nearer_end_of_length hs ht hst hq (le_of_eq ?_)
  rw [hq, Vec3.length_combination_of_parallel hs ht hn hdot.le]

/-! ## The least angle -/

/-- The points of an edge. -/
def points (a0 a1 : Vec3 ℝ) : Set (Vec3 ℝ) :=
  {q | ∃ s t : ℝ, 0 ≤ s ∧ 0 ≤ t ∧ (s ≠ 0 ∨ t ≠ 0) ∧ q = a0.scale s + a1.scale t}

theorem left_mem_points (a0 a1 : Vec3 ℝ) : a0 ∈ points a0 a1 := by
  refine ⟨1, 0, zero_le_one, le_rfl, .inl one_ne_zero, ?_⟩
  change Vec3.mk _ _ _ = Vec3.mk _ _ _
  congr 1 <;> simp [Vec3.scale, Vec3.map]

theorem points_comm (a0 a1 : Vec3 ℝ) : points a0 a1 = points a1 a0 := by
  ext q
  constructor
  · rintro ⟨s, t, hs, ht, hst, rfl⟩
    exact ⟨t, s, ht, hs, hst.symm, Vec3.combination_comm _ _ _ _⟩
  · rintro ⟨s, t, hs, ht, hst, rfl⟩
    exact ⟨t, s, ht, hs, hst.symm, Vec3.combination_comm _ _ _ _⟩

theorem right_mem_points (a0 a1 : Vec3 ℝ) : a1 ∈ points a0 a1 :=
  points_comm a1 a0 ▸ left_mem_points a1 a0

section Least

-- the ends are not antipodal
variable (hends : (a0.cross a1).normSq = 0 → 0 < a0.dot a1)

include hends

theorem normSq_pos_of_mem_points (hq : q ∈ points a0 a1) : 0 < q.normSq := by
  obtain ⟨s, t, hs, ht, hst, rfl⟩ := hq
  rcases (a0.cross a1).normSq_nonneg.eq_or_lt' with hn | hn
  · have hdot := hends hn
    have h0 := Vec3.length_pos (Vec3.normSq_pos_of_dot hdot.ne')
    have h1 := Vec3.length_pos (Vec3.normSq_pos_of_dot ((a1.dot_comm a0).trans_ne hdot.ne'))
    rw [← Real.sqrt_pos, ← Vec3.length, Vec3.length_combination_of_parallel hs ht hn hdot.le]
    rcases hst with hs0 | ht0
    · exact add_pos_of_pos_of_nonneg (mul_pos (hs.lt_of_ne' hs0) h0) (mul_nonneg ht h1.le)
    · exact add_pos_of_nonneg_of_pos (mul_nonneg hs h0.le) (mul_pos (ht.lt_of_ne' ht0) h1)
  · exact Vec3.normSq_combination_pos hn hst

/-- A point that does not project inside the edge is nearest to an end. -/
theorem isLeast_ends (hx : 0 < x.normSq)
    (hout : ¬(0 < (a0.cross a1).dot (a0.cross x) ∧ 0 < (a0.cross a1).dot (x.cross a1))) :
    IsLeast (x.angle '' points a0 a1) (min (x.angle a0) (x.angle a1)) := by
  have h0 := left_mem_points a0 a1
  have h1 := right_mem_points a0 a1
  constructor
  · rcases min_choice (x.angle a0) (x.angle a1) with hmin | hmin
    · exact ⟨a0, h0, hmin.symm⟩
    · exact ⟨a1, h1, hmin.symm⟩
  · rintro _ ⟨q, hq, rfl⟩
    have hpos := normSq_pos_of_mem_points hends hq
    rw [min_le_iff, Vec3.angle_le_angle_iff hx (normSq_pos_of_mem_points hends h0) hpos,
      Vec3.angle_le_angle_iff hx (normSq_pos_of_mem_points hends h1) hpos]
    obtain ⟨s, t, hs, ht, hst, heq⟩ := hq
    rcases (a0.cross a1).normSq_nonneg.eq_or_lt' with hn | hn
    · exact nearer_end_of_parallel hs ht hst heq hn (hends hn)
    · exact nearer_end_of_outside hn hs ht hst heq hout

end Least

/-- A point that projects inside the edge is nearest to its projection. -/
theorem isLeast_foot (hx : 0 < x.normSq) (hn : 0 < (a0.cross a1).normSq)
    (hstart : 0 < (a0.cross a1).dot (a0.cross x)) (hend : 0 < (a0.cross a1).dot (x.cross a1)) :
    IsLeast (x.angle '' points a0 a1) (x.angle (foot x a0 a1)) := by
  have hfoot : foot x a0 a1 ∈ points a0 a1 := ⟨_, _, hend.le, hstart.le, .inl hend.ne', rfl⟩
  refine ⟨⟨_, hfoot, rfl⟩, ?_⟩
  rintro _ ⟨q, hq, rfl⟩
  have hends : (a0.cross a1).normSq = 0 → 0 < a0.dot a1 := fun hzero => absurd hzero hn.ne'
  rw [Vec3.angle_le_angle_iff hx (normSq_pos_of_mem_points hends hfoot)
    (normSq_pos_of_mem_points hends hq)]
  obtain ⟨s, t, -, -, -, rfl⟩ := hq
  refine nearer_foot hn ?_
  rw [Vec3.dot_comm, Vec3.cross_dot_combination]

/-! ## The verdicts -/

section Verdicts

variable {x y a0 a1 : Vec3 ℚ} {r2 : ℚ} (hx : 0 < x.normSq) (hmin : 0 ≤ r2) (hmax : r2 ≤ 4)

include hx hmin hmax

theorem cosineRadiusVerdict_eq_compare (hy : 0 < y.normSq) :
    cosineRadiusVerdict x y r2 = compare (x.real.angle y.real) (radius r2) := by
  rw [Distance.cosineRadiusVerdict_eq hx hy, radius,
    Vec3.compare_angle_arccos (Vec3.real_normSq_pos hx) (Vec3.real_normSq_pos hy)
      (by exact_mod_cast neg_one_le_radiusCosine hmax) (by exact_mod_cast radiusCosine_le_one hmin)]
  rfl

theorem endpointVerdict_eq_compare (h0 : 0 < a0.normSq) (h1 : 0 < a1.normSq) :
    endpointVerdict x a0 a1 r2 =
      compare (min (x.real.angle a0.real) (x.real.angle a1.real)) (radius r2) := by
  rw [endpointVerdict, cosineRadiusVerdict_eq_compare hx hmin hmax h0,
    cosineRadiusVerdict_eq_compare hx hmin hmax h1, eq_comm]
  generalize x.real.angle a0.real = α
  generalize x.real.angle a1.real = β
  cases hα : compare α (radius r2) <;> cases hβ : compare β (radius r2) <;>
    simp only [compare_lt_iff_lt, compare_eq_iff_eq, compare_gt_iff_gt] at hα hβ ⊢ <;>
    grind

/-- The comparison with the circle is that of the angle to the projection. -/
theorem circleVerdict_eq_compare (hpos : 0 < (foot x.real a0.real a1.real).normSq) :
    circleVerdict x (a0.cross a1) r2 =
      compare (x.real.angle (foot x.real a0.real a1.real)) (radius r2) := by
  have hsine := sine_pos hpos
  rw [radius, compare_angle_foot (Vec3.real_normSq_pos hx) hpos
    (by exact_mod_cast neg_one_le_radiusCosine hmax) (by exact_mod_cast radiusCosine_le_one hmin)]
  rw [← Vec3.real_cross] at hsine ⊢
  rw [circleVerdict]
  have hlengths : 0 ≤ x.real.length * (a0.cross a1).real.length :=
    mul_nonneg x.real.length_nonneg (Vec3.length_nonneg _)
  split_ifs with hlarge
  · have hcosine : (radiusCosine r2 : ℝ) ≤ 0 := by
      have : (2 : ℝ) < r2 := by exact_mod_cast hlarge
      rw [Voronoi.radiusCosine_cast]
      linarith
    have hbelow := (mul_nonpos_of_nonpos_of_nonneg hcosine hlengths).trans_lt hsine
    exact (compare_lt_iff_lt.2 hbelow).symm
  · have hcosine : 0 ≤ (radiusCosine r2 : ℝ) := by
      have : (r2 : ℝ) ≤ 2 := by exact_mod_cast not_lt.1 hlarge
      rw [Voronoi.radiusCosine_cast]
      linarith
    have hsquares : ((x.dot (a0.cross a1) * x.dot (a0.cross a1) -
        r2 * (1 - 1 / 4 * r2) * x.normSq * (a0.cross a1).normSq : ℚ) : ℝ) =
          radiusCosine r2 * (x.real.length * (a0.cross a1).real.length) *
            (radiusCosine r2 * (x.real.length * (a0.cross a1).real.length)) -
              ((a0.cross a1).real.cross x.real).length *
                ((a0.cross a1).real.cross x.real).length := by
      rw [mul_mul_mul_comm, mul_mul_mul_comm x.real.length, Vec3.length_mul_self,
        Vec3.length_mul_self, Vec3.length_mul_self, Vec3.normSq_cross (a0.cross a1).real x.real,
        Vec3.dot_comm (a0.cross a1).real, radiusCosine]
      simp only [Vec3.real_dot, Vec3.real_normSq]
      push_cast
      ring
    rw [← Sign.of_ratCast, hsquares, Sign.of_mul_self_sub (mul_nonneg hcosine hlengths)
      (Vec3.length_nonneg _), Sign.toOrdering_of_sub]

/-- The comparison with an edge is that with the least angle to its points. -/
theorem exists_isLeast (h0 : 0 < a0.normSq) (h1 : 0 < a1.normSq)
    (hends : (a0.cross a1).normSq = 0 → 0 < a0.dot a1) :
    ∃ θ, IsLeast (x.real.angle '' points a0.real a1.real) θ ∧
      distanceVerdict x a0 a1 r2 = compare θ (radius r2) := by
  have hx' := Vec3.real_normSq_pos hx
  have hends' : (a0.real.cross a1.real).normSq = 0 → 0 < a0.real.dot a1.real := by
    rw [← Vec3.real_cross, Vec3.real_normSq, Vec3.real_dot]
    exact_mod_cast hends
  have hstart : Sign.of ((a0.cross a1).dot (a0.cross x)) = .positive ↔
      0 < (a0.real.cross a1.real).dot (a0.real.cross x.real) := by
    rw [Sign.of_eq_positive_iff, ← Vec3.real_cross, ← Vec3.real_cross, Vec3.real_dot, Rat.cast_pos]
  have hend : Sign.of ((a0.cross a1).dot (x.cross a1)) = .positive ↔
      0 < (a0.real.cross a1.real).dot (x.real.cross a1.real) := by
    rw [Sign.of_eq_positive_iff, ← Vec3.real_cross, ← Vec3.real_cross, Vec3.real_dot, Rat.cast_pos]
  unfold distanceVerdict
  split_ifs with hinside <;> rw [hstart, hend] at hinside
  · have hleast := isLeast_foot hx' (Vec3.normSq_pos_of_dot hinside.1.ne') hinside.1 hinside.2
    have hfoot : foot x.real a0.real a1.real ∈ points a0.real a1.real :=
      ⟨_, _, hinside.2.le, hinside.1.le, .inl hinside.2.ne', rfl⟩
    exact ⟨_, hleast, circleVerdict_eq_compare hx hmin hmax (normSq_pos_of_mem_points hends' hfoot)⟩
  · exact ⟨_, isLeast_ends hends' hx' hinside, endpointVerdict_eq_compare hx hmin hmax h0 h1⟩

end Verdicts

/-! ## The exact test -/

section Exact

variable {x a0 a1 : Point} {r2 : Float}

/-- Antipodal ends are parallel and point to opposite sides. -/
theorem not_same_neg (ha0 : a0.Finite) (ha1 : a1.Finite)
    (hends : (a0.value.cross a1.value).normSq = 0 → 0 < a0.value.dot a1.value) :
    ¬a0.same (-a1) = true := by
  intro hsame
  have hvalue := Point.value_eq_of_key_eq ((Point.same_iff ha0 ha1.neg).1 hsame)
  rw [Point.value_neg] at hvalue
  have hnormal : ((-a1.value).cross a1.value).normSq = 0 := by
    simp only [Vec3.normSq, Vec3.dot, Vec3.cross, Vec3.neg_x, Vec3.neg_y, Vec3.neg_z]
    ring
  have hdot : (-a1.value).dot a1.value = -a1.value.normSq := by
    simp only [Vec3.normSq, Vec3.dot, Vec3.neg_x, Vec3.neg_y, Vec3.neg_z]
    ring
  rw [hvalue, hdot] at hends
  exact (neg_nonpos.2 a1.value.normSq_nonneg).not_gt (hends hnormal)

/-- The exact test compares the radius with the angles to all points of the edge. -/
theorem exactOutcome_of_angles (hx : x.Finite) (ha0 : a0.Finite) (ha1 : a1.Finite)
    (hzero : x.value ≠ ⟨0, 0, 0⟩) (hzero0 : a0.value ≠ ⟨0, 0, 0⟩) (hzero1 : a1.value ≠ ⟨0, 0, 0⟩)
    (hends : a0.value.cross a1.value ≠ ⟨0, 0, 0⟩ ∨ 0 < a0.value.dot a1.value) (hmin : 0 ≤ r2)
    (hmax : r2 ≤ 4) :
    ∃ order, (distancePredicate x a0 a1 r2).exactOutcome = .ok order ∧
      withinRadius x a0 a1 r2 = .ok order ∧
      (order = .lt ↔
        ∃ q ∈ points a0.real a1.real, x.real.angle q < radius (Binary64.value r2)) ∧
      (order = .gt ↔
        ∀ q ∈ points a0.real a1.real, radius (Binary64.value r2) < x.real.angle q) ∧
      (order = .eq ↔
        (¬∃ q ∈ points a0.real a1.real, x.real.angle q < radius (Binary64.value r2)) ∧
          ¬∀ q ∈ points a0.real a1.real, radius (Binary64.value r2) < x.real.angle q) := by
  have hr2 := Binary64.isFinite_of_between (by decide +kernel) (by decide +kernel) hmin hmax
  have hminValue : 0 ≤ Binary64.value r2 := by
    rw [← Binary64.value_zero]
    exact (Binary64.le_iff_value (by decide +kernel) hr2).1 hmin
  have hmaxValue : Binary64.value r2 ≤ 4 := by
    rw [← Binary64.value_four]
    exact (Binary64.le_iff_value hr2 (by decide +kernel)).1 hmax
  have hx' := Vec3.normSq_pos hzero
  have h0 := Vec3.normSq_pos hzero0
  have h1 := Vec3.normSq_pos hzero1
  have hends' : (a0.value.cross a1.value).normSq = 0 → 0 < a0.value.dot a1.value := fun hnormal =>
    hends.resolve_left fun hne => (Vec3.normSq_pos hne).ne' hnormal
  obtain ⟨θ, ⟨⟨p, hp, rfl⟩, hleast⟩, hverdict⟩ :=
    exists_isLeast hx' hminValue hmaxValue h0 h1 hends'
  have hfinds := Voronoi.finds_edge hx ha0 ha1 hr2
  rw [hverdict] at hfinds
  have hexact : (distancePredicate x a0 a1 r2).exactOutcome =
    .ok (compare (x.real.angle p) (radius (Binary64.value r2))) := hfinds.exactOutcome_eq
  have hbelow : ∀ q ∈ points a0.real a1.real, x.real.angle p ≤ x.real.angle q := fun q hq =>
    hleast ⟨q, hq, rfl⟩
  have hlt : compare (x.real.angle p) (radius (Binary64.value r2)) = .lt ↔
      ∃ q ∈ points a0.real a1.real, x.real.angle q < radius (Binary64.value r2) := by
    rw [compare_lt_iff_lt]
    exact ⟨fun h => ⟨p, hp, h⟩, fun ⟨q, hq, h⟩ => (hbelow q hq).trans_lt h⟩
  have hgt : compare (x.real.angle p) (radius (Binary64.value r2)) = .gt ↔
      ∀ q ∈ points a0.real a1.real, radius (Binary64.value r2) < x.real.angle q := by
    rw [compare_gt_iff_gt]
    exact ⟨fun h q hq => h.trans_le (hbelow q hq), fun h => h p hp⟩
  refine ⟨_, hexact, ?_, hlt, hgt, ?_⟩
  · rw [withinRadius, if_neg (not_same_neg ha0 ha1 hends'), hfinds.coherent.outcome_eq]
    exact hexact
  · rw [← hlt, ← hgt]
    cases compare (x.real.angle p) (radius (Binary64.value r2)) <;> decide

/-- Both ends of the edge are beyond the radius, and a point between them is within it. -/
theorem exactOutcome_of_angles_interior :
    withinRadius ⟨1, 1, 1⟩ ⟨1, 0, 0⟩ ⟨0, 1, 0⟩ 0.5 = .ok .lt ∧
      ∃ q ∈ points (Point.real ⟨1, 0, 0⟩) (Point.real ⟨0, 1, 0⟩),
        (Point.real ⟨1, 1, 1⟩).angle q < radius (Binary64.value 0.5) := by
  have hexact : (distancePredicate ⟨1, 1, 1⟩ ⟨1, 0, 0⟩ ⟨0, 1, 0⟩ 0.5).exactOutcome = .ok .lt := by
    decide +kernel
  obtain ⟨order, houtcome, hwithin, hlt, -, -⟩ := @exactOutcome_of_angles ⟨1, 1, 1⟩ ⟨1, 0, 0⟩
    ⟨0, 1, 0⟩ 0.5 (by decide +kernel) (by decide +kernel) (by decide +kernel) (by decide +kernel)
    (by decide +kernel) (by decide +kernel) (.inl (by decide +kernel)) (by decide +kernel)
    (by decide +kernel)
  obtain rfl : .lt = order := Except.ok.inj (hexact.symm.trans houtcome)
  exact ⟨hwithin, hlt.1 rfl⟩

end Exact

end ExactSphere.Edge
