import ExactSphere.Proofs.Verdict.Edge
import ExactSphere.Proofs.Verdict.Squares
import ExactSphere.Proofs.Verdict.Voronoi
import ExactSphere.Proofs.Voronoi.Coverage

/-!
# The verdict on two intervals

A site within the radius of an edge covers a part of its circle (`covers_of_distanceVerdict`). Of
two such sites, the first one is excluded exactly if its interval lies inside that of the second
one, where it has to be the smaller site if the two intervals touch (`resolve_eq_first_iff`). The
two sites play the same part in this (`resolve_swap`).
-/

namespace ExactSphere

theorem Sign.toOrdering_of_ne_gt_iff {K : Type*} [Zero K] [LinearOrder K] {x : K} :
    (Sign.of x).toOrdering ≠ .gt ↔ x ≤ 0 := by
  rw [← not_lt, ← of_eq_positive_iff]
  cases Sign.of x <;> simp [toOrdering]

/-- The exclusion of the other site. -/
def Exclusion.swap : Exclusion → Exclusion
  | first => second
  | second => first
  | neither => neither

theorem Exclusion.swap_eq_first_iff {excluded : Exclusion} :
    excluded.swap = first ↔ excluded = second := by
  cases excluded <;> decide

namespace Voronoi

/-! ## The radius -/

section Radius

variable {r2 : ℚ}

/-- The cosine of the radius with a given squared chord. -/
def radiusCosine (r2 : ℚ) : ℚ := 1 - 1 / 2 * r2

theorem radiusCosine_pos (hr : r2 < 2) : 0 < radiusCosine r2 := by
  rw [radiusCosine]
  linarith

theorem neg_one_le_radiusCosine (hr : r2 ≤ 4) : -1 ≤ radiusCosine r2 := by
  rw [radiusCosine]
  linarith

theorem radiusCosine_le_one (hr : 0 ≤ r2) : radiusCosine r2 ≤ 1 := by
  rw [radiusCosine]
  linarith

/-- The radius with a given squared chord. -/
noncomputable def radius (r2 : ℚ) : ℝ := Real.arccos (radiusCosine r2)

theorem radiusCosine_cast (r2 : ℚ) : (radiusCosine r2 : ℝ) = 1 - r2 / 2 := by
  rw [radiusCosine]
  push_cast
  ring

/-- The cosine of the radius, for a chord that is no longer than a diameter. -/
theorem cos_radius (hmin : 0 ≤ r2) (hmax : r2 ≤ 4) :
    Real.cos (radius r2) = 1 - r2 / 2 := by
  rw [radius, Real.cos_arccos, radiusCosine_cast]
  · exact_mod_cast neg_one_le_radiusCosine hmax
  · exact_mod_cast radiusCosine_le_one hmin

end Radius

/-! ## Sites that cover a part of the circle -/

section Covers

variable {n x y x0 x1 : Vec3 ℚ} {c r2 : ℚ}

/-- The site is within the radius of some point of the circle. -/
structure Covers (c : ℚ) (n x : Vec3 ℚ) : Prop where
  pos : 0 < x.normSq
  reach_nonneg : 0 ≤ reach c n x

theorem Covers.reach_real_nonneg (h : Covers c n x) : 0 ≤ reach (c : ℝ) n.real x.real := by
  rw [reach_real]
  exact_mod_cast h.reach_nonneg

/-- A site covers the points of the circle that are within its radius. -/
theorem covers_of_near (hy : y.dot n = 0) (hpos : 0 < x.dot y)
    (h : c * c * x.normSq * y.normSq ≤ x.dot y * x.dot y) : Covers c n x := by
  have hproduct := Vec3.det_mul_det x y n n
  rw [hy, Vec3.normSq_cross] at hproduct
  have hdet := mul_self_nonneg ((x.cross y).dot n)
  rw [hproduct] at hdet
  have hscaled : 0 ≤ y.normSq * reach c n x := by
    change 0 ≤ _ + n.normSq * _ at hdet
    rw [reach]
    linarith [mul_le_mul_of_nonneg_left h n.normSq_nonneg]
  have hpos' : 0 < y.normSq := Vec3.normSq_pos_of_dot ((y.dot_comm x).trans_ne hpos.ne')
  exact ⟨Vec3.normSq_pos_of_dot hpos.ne', nonneg_of_mul_nonneg_right hscaled hpos'⟩

/-- Within a radius below 90 degrees the cosine is positive and not below that of the radius. -/
theorem near_of_cosineRadiusVerdict (hr : r2 < 2) (h : Distance.cosineRadiusVerdict x y r2 ≠ .gt) :
    0 < x.dot y ∧
      radiusCosine r2 * radiusCosine r2 * x.normSq * y.normSq ≤ x.dot y * x.dot y := by
  unfold Distance.cosineRadiusVerdict at h
  rw [← radiusCosine, Sign.of_pos (radiusCosine_pos hr)] at h
  split_ifs at h with hsign
  · cases hcosine : Sign.of (x.dot y) with
    | positive => exact absurd hcosine hsign
    | negative | zero =>
      rw [hcosine] at h
      exact absurd rfl h
  · have hpositive := not_not.1 hsign
    rw [hpositive] at h
    exact ⟨Sign.of_eq_positive_iff.1 hpositive, sub_nonpos.1 (Sign.toOrdering_of_ne_gt_iff.1 h)⟩

/-- An end within the radius settles the comparison with both ends. -/
theorem exists_end_of_endpointVerdict (h : Edge.endpointVerdict x x0 x1 r2 ≠ .gt) :
    Distance.cosineRadiusVerdict x x0 r2 ≠ .gt ∨ Distance.cosineRadiusVerdict x x1 r2 ≠ .gt := by
  by_contra hfar
  obtain ⟨hfirst, hsecond⟩ := not_or.1 hfar
  rw [Edge.endpointVerdict, not_not.1 hfirst, not_not.1 hsecond] at h
  exact h rfl

/-- A site within the radius of an edge covers a part of its circle. -/
theorem covers_of_distanceVerdict (hr : r2 < 2) (h : Edge.distanceVerdict x x0 x1 r2 ≠ .gt) :
    Covers (radiusCosine r2) (x0.cross x1) x := by
  unfold Edge.distanceVerdict at h
  split_ifs at h with hinside
  · have hstart := Sign.of_eq_positive_iff.1 hinside.1
    rw [Vec3.dot_comm, Vec3.det_rotate, Vec3.det_rotate, Vec3.dot_comm] at hstart
    rw [Edge.circleVerdict, if_neg hr.not_gt, Sign.toOrdering_of_ne_gt_iff] at h
    refine ⟨Vec3.normSq_pos_of_dot hstart.ne', ?_⟩
    rw [reach, radiusCosine]
    linarith
  · rcases exists_end_of_endpointVerdict h with hfirst | hsecond
    · obtain ⟨hpos, hle⟩ := near_of_cosineRadiusVerdict hr hfirst
      exact covers_of_near ((Vec3.dot_comm _ _).trans (Vec3.cross_dot_left x0 x1)) hpos hle
    · obtain ⟨hpos, hle⟩ := near_of_cosineRadiusVerdict hr hsecond
      exact covers_of_near ((Vec3.dot_comm _ _).trans (Vec3.cross_dot_right x0 x1)) hpos hle

end Covers

/-! ## The difference of the half intervals -/

section Intervals

variable {u v n : Vec3 ℚ} {r2 : ℚ}

/-- The root difference by the half intervals of the sites. -/
theorem exactGap_eq (u v n : Vec3 ℚ) (r2 : ℚ) :
    exactGap u v n r2 =
      ⟨radiusCosine r2 * radiusCosine r2 * (u.normSq * reach (radiusCosine r2) n v +
          v.normSq * reach (radiusCosine r2) n u) - (u.cross v).dot n * (u.cross v).dot n,
        2 * (radiusCosine r2 * radiusCosine r2),
        u.normSq * reach (radiusCosine r2) n v * (v.normSq * reach (radiusCosine r2) n u)⟩ := by
  have hsinSq : r2 * (1 - 1 / 4 * r2) = 1 - radiusCosine r2 * radiusCosine r2 := by
    rw [radiusCosine]
    ring
  simp only [exactGap, hsinSq, reach, radiusCosine]

theorem exactGap_swap (u v n : Vec3 ℚ) (r2 : ℚ) : exactGap v u n r2 = exactGap u v n r2 := by
  simp only [exactGap, Vec3.det_swap v u n, RootDifference.mk.injEq]
  refine ⟨?_, trivial, ?_⟩ <;> ring

theorem radicand_nonneg (hu : Covers (radiusCosine r2) n u) (hv : Covers (radiusCosine r2) n v) :
    0 ≤ u.normSq * reach (radiusCosine r2) n v * (v.normSq * reach (radiusCosine r2) n u) :=
  mul_nonneg (mul_nonneg hu.pos.le hv.reach_nonneg) (mul_nonneg hv.pos.le hu.reach_nonneg)

/-- The lengths of the intervals are compared by the distances of the sites from the circle. -/
theorem sign_length (hr : r2 < 2) (hu : Covers (radiusCosine r2) n u)
    (hv : Covers (radiusCosine r2) n v) :
    Sign.of (v.normSq * (u.dot n * u.dot n) - u.normSq * (v.dot n * v.dot n)) =
      Sign.of (halfDifference (radiusCosine r2) n.real u.real v.real) := by
  have hdifference : v.normSq * (u.dot n * u.dot n) - u.normSq * (v.dot n * v.dot n) =
      u.normSq * reach (radiusCosine r2) n v - v.normSq * reach (radiusCosine r2) n u := by
    simp only [reach]
    ring
  rw [sign_halfDifference (Rat.cast_pos.2 (radiusCosine_pos hr)) hu.reach_real_nonneg
    hv.reach_real_nonneg, hdifference, ← Sign.of_ratCast]
  simp only [Vec3.real_normSq, reach_real]
  push_cast
  rfl

/-- The sign of the gap says how far the projections are apart, against the difference of the half
intervals. -/
theorem verdict_exactGap (hu : Covers (radiusCosine r2) n u) (hv : Covers (radiusCosine r2) n v)
    (hlength : 0 ≤ halfDifference (radiusCosine r2) n.real u.real v.real) :
    (exactGap u v n r2).verdict = Sign.of (halfDifference (radiusCosine r2) n.real u.real v.real -
      |(u.real.cross v.real).dot n.real|) := by
  rw [← sign_gap hu.reach_real_nonneg hv.reach_real_nonneg hlength, exactGap_eq,
    RootDifference.verdict_eq (radicand_nonneg hu hv)]
  simp only [Vec3.real_normSq, reach_real, ← Vec3.real_cross, Vec3.real_dot]
  push_cast
  rfl

end Intervals

/-! ## The outcome of the test -/

section Outcome

variable {a b : Point}

/-- The outcome of a containment, where a touching interval is excluded if its site sorts first. -/
def resolve (a b : Point) : Containment → Exclusion
  | .settled excluded => excluded
  | .touching .first => if a.lexOrder b = .lt then .first else .neither
  | .touching .second => if b.lexOrder a = .lt then .second else .neither
  | .touching .neither => .neither

/-- A touching interval is excluded if its site is the smaller one. -/
theorem resolve_conclusion_first (ha : a.Finite) (hb : b.Finite) (gap : Sign) :
    resolve a b (conclusion .first gap) = .first ↔
      gap = .positive ∨ gap = .zero ∧ a.key < b.key := by
  cases gap with
  | positive => simp [conclusion, resolve]
  | negative => simp [conclusion, resolve]
  | zero => simp [conclusion, resolve, Point.lexOrder_eq_lt_iff ha hb]

theorem resolve_conclusion_second (gap : Sign) :
    resolve a b (conclusion .second gap) ≠ .first := by
  cases gap with
  | positive => exact nofun
  | negative => exact nofun
  | zero =>
    rw [conclusion, resolve]
    split_ifs <;> exact nofun

theorem resolve_conclusion_swap (candidate : Exclusion) (gap : Sign) :
    resolve b a (conclusion candidate.swap gap) =
      (resolve a b (conclusion candidate gap)).swap := by
  cases candidate <;> cases gap <;> simp only [conclusion, Exclusion.swap, resolve] <;>
    split_ifs <;> rfl

/-- Intervals that coincide exclude the smaller site. -/
theorem resolve_coincide (ha : a.Finite) (hb : b.Finite) :
    resolve a b (if a.lexOrder b = .gt then .touching .second else .touching .first) =
      if a.key < b.key then .first else if b.key < a.key then .second else .neither := by
  have hlt := Point.lexOrder_eq_lt_iff ha hb
  have hgt := Point.lexOrder_eq_gt_iff ha hb
  rcases lt_trichotomy a.key b.key with h | h | h
  · rw [if_neg (hgt.not.2 h.not_gt), if_pos h, resolve, if_pos (hlt.2 h)]
  · rw [if_neg (hgt.not.2 h.not_gt), if_neg h.not_lt, if_neg h.not_gt, resolve,
      if_neg (hlt.not.2 h.not_lt)]
  · rw [if_pos (hgt.2 h), if_neg h.not_gt, if_pos h, resolve,
      if_pos ((Point.lexOrder_eq_lt_iff hb ha).2 h)]

/-- Intervals of one length exclude a site only if they coincide. -/
theorem resolve_equal_eq_first_iff (ha : a.Finite) (hb : b.Finite) (turn : ℚ) :
    resolve a b (if Sign.of turn ≠ .zero then .settled .neither
      else if a.lexOrder b = .gt then .touching .second else .touching .first) = .first ↔
        turn = 0 ∧ a.key < b.key := by
  by_cases hturn : turn = 0
  · rw [hturn, Sign.of_zero, if_neg (not_not.2 rfl), resolve_coincide ha hb]
    split_ifs with hlt <;> simp [hlt]
  · rw [if_pos (mt Sign.of_eq_zero_iff.1 hturn)]
    exact iff_of_false nofun fun h => hturn h.1

/-- The sites in the other order. -/
theorem resolve_swap (ha : a.Finite) (hb : b.Finite) (u v n : Vec3 ℚ) (r2 : ℚ) :
    resolve b a (intervalVerdict v u n r2 (b.lexOrder a)) =
      (resolve a b (intervalVerdict u v n r2 (a.lexOrder b))).swap := by
  have hlength : u.normSq * (v.dot n * v.dot n) - v.normSq * (u.dot n * u.dot n) =
      -(v.normSq * (u.dot n * u.dot n) - u.normSq * (v.dot n * v.dot n)) := by ring
  unfold intervalVerdict
  rw [v.dot_comm u, mul_comm (v.dot n), exactGap_swap, hlength, Vec3.det_swap u v n,
    Sign.of_neg_eq, Sign.of_neg_eq]
  by_cases hside : Sign.of (u.dot v * n.normSq - u.dot n * v.dot n) ≠ .positive
  · rw [if_pos hside, if_pos hside]
    rfl
  rw [if_neg hside, if_neg hside]
  cases Sign.of (v.normSq * (u.dot n * u.dot n) - u.normSq * (v.dot n * v.dot n)) with
  | positive => exact resolve_conclusion_swap .first _
  | negative => exact resolve_conclusion_swap .second _
  | zero =>
    cases Sign.of ((u.cross v).dot n) with
    | positive => rfl
    | negative => rfl
    | zero =>
      change resolve b a (if b.lexOrder a = .gt then _ else _) =
        (resolve a b (if a.lexOrder b = .gt then _ else _)).swap
      rw [resolve_coincide ha hb, resolve_coincide hb ha]
      split_ifs with hba hab
      · exact absurd hba hab.not_gt
      · rfl
      · rfl
      · rfl

end Outcome

section Inclusion

variable {a b : Point} {u v n : Vec3 ℚ} {r2 : ℚ} (ha : a.Finite) (hb : b.Finite) (hr : r2 < 2)
  (hu : Covers (radiusCosine r2) n u) (hv : Covers (radiusCosine r2) n v)

/-- A bound that is strict, or else comes with a condition. -/
theorem lt_or_eq_and_iff {x y : ℝ} {p : Prop} : x < y ∨ y = x ∧ p ↔ x ≤ y ∧ (x ≠ y ∨ p) := by
  constructor
  · rintro (hlt | ⟨rfl, hp⟩)
    · exact ⟨hlt.le, .inl hlt.ne⟩
    · exact ⟨le_rfl, .inr hp⟩
  · rintro ⟨hle, hne | hp⟩
    · exact .inl (hle.lt_of_ne hne)
    · exact hle.lt_or_eq.imp_right fun heq => ⟨heq.symm, hp⟩

include ha hb hr hu hv

/-- The first site is excluded if its interval lies inside that of the second one, where it has to
be the smaller site if the intervals touch. -/
theorem resolve_eq_first_iff :
    resolve a b (intervalVerdict u v n r2 (a.lexOrder b)) = .first ↔
      Inside (radiusCosine r2) n.real u.real v.real ∧
        (|(u.real.cross v.real).dot n.real| ≠
            halfDifference (radiusCosine r2) n.real u.real v.real ∨ a.key < b.key) := by
  have hnear : 0 < u.real.dot v.real * n.real.normSq - u.real.dot n.real * v.real.dot n.real ↔
      0 < u.dot v * n.normSq - u.dot n * v.dot n := by
    simp only [Vec3.real_dot, Vec3.real_normSq]
    exact_mod_cast Iff.rfl
  have hturn := abs_nonneg ((u.real.cross v.real).dot n.real)
  unfold intervalVerdict
  by_cases hside : Sign.of (u.dot v * n.normSq - u.dot n * v.dot n) ≠ .positive
  · rw [if_pos hside]
    refine iff_of_false nofun fun ⟨hinside, _⟩ => hside ?_
    rw [Sign.of_eq_positive_iff]
    exact hnear.1 hinside.near
  rw [not_not, Sign.of_eq_positive_iff] at hside
  have hinside : Inside (radiusCosine r2) n.real u.real v.real ↔
      |(u.real.cross v.real).dot n.real| ≤ halfDifference (radiusCosine r2) n.real u.real v.real :=
    ⟨Inside.turn_le, fun h => ⟨hnear.2 hside, h⟩⟩
  rw [if_neg (not_not.2 (Sign.of_pos hside)), hinside, sign_length hr hu hv]
  cases hlength : Sign.of (halfDifference (radiusCosine r2) n.real u.real v.real) with
  | positive =>
    have hpos := Sign.of_eq_positive_iff.1 hlength
    change resolve a b (conclusion _ _) = _ ↔ _
    rw [resolve_conclusion_first ha hb, verdict_exactGap hu hv hpos.le, Sign.of_eq_positive_iff,
      Sign.of_eq_zero_iff, sub_pos, sub_eq_zero, lt_or_eq_and_iff]
  | negative =>
    have hneg := Sign.of_eq_negative_iff.1 hlength
    exact iff_of_false (resolve_conclusion_second _) fun h => (hneg.trans_le hturn).not_ge h.1
  | zero =>
    have hzero := Sign.of_eq_zero_iff.1 hlength
    change resolve a b (if Sign.of _ ≠ .zero then _ else _) = _ ↔ _
    rw [hzero, resolve_equal_eq_first_iff ha hb, ← Vec3.real_cross, Vec3.real_dot, abs_nonpos_iff,
      Rat.cast_eq_zero]
    refine and_congr_right fun hmiddle => ?_
    simp [hmiddle]

theorem resolve_eq_second_iff :
    resolve a b (intervalVerdict u v n r2 (a.lexOrder b)) = .second ↔
      Inside (radiusCosine r2) n.real v.real u.real ∧
        (|(v.real.cross u.real).dot n.real| ≠
            halfDifference (radiusCosine r2) n.real v.real u.real ∨ b.key < a.key) := by
  rw [← Exclusion.swap_eq_first_iff, ← resolve_swap ha hb, resolve_eq_first_iff hb ha hr hv hu]

end Inclusion

end Voronoi
end ExactSphere
