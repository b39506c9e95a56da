import ExactSphere.Proofs.Safety
import ExactSphere.Proofs.Distance.Ranking
import ExactSphere.Proofs.Voronoi.Intervals

/-!
# Excluding a site costs nothing

A site that the test excludes is never the only nearest one to a point of the edge within the
radius (`exclusion_safe`). If the test exits early, the other site is the nearer one at both ends,
and so between them. Otherwise the interval of the excluded site lies inside that of the other one.
-/

namespace ExactSphere.Voronoi

/-! ## The exact test -/

section Exact

variable {a b x x0 x1 : Point} {r2 : Float}

theorem displaced_eq (ha : a.Finite) (hb : b.Finite) (hx0 : x0.Finite) (hx1 : x1.Finite)
    (hr2 : r2.isFinite = true) {candidate : Exclusion}
    (h : containmentVerdict a b x0 x1 r2 = .touching candidate) :
    displaced a b x0 x1 r2 = .ok (resolve a b (.touching candidate)) := by
  have hrun := (answers_containment (α := BigFloat) ha hb hx0 hx1 hr2).run_eq
  rw [displaced, hrun, h]
  cases candidate <;> rfl

theorem finds_edge (hx : x.Finite) (hx0 : x0.Finite) (hx1 : x1.Finite)
    (hr2 : r2.isFinite = true) : (Edge.distancePredicate x x0 x1 r2).Finds
      (.decided (Edge.distanceVerdict x.value x0.value x1.value (Binary64.value r2))) := by
  rw [← Edge.edgeVerdict_eq hx0 hx1]
  exact Predicate.finds_of_sound fun _ => Edge.answers_distanceFormula hx hx0 hx1 hr2

theorem finds (ha : a.Finite) (hb : b.Finite) (hx0 : x0.Finite) (hx1 : x1.Finite)
    (hr2 : r2.isFinite = true) : (predicate a b x0 x1 r2).Finds (verdict a b x0 x1 r2) :=
  Predicate.finds_of_sound fun _ => answers_formula ha hb hx0 hx1 hr2

theorem exactOutcome_eq (ha : a.Finite) (hb : b.Finite) (hx0 : x0.Finite) (hx1 : x1.Finite)
    (hr2 : r2.isFinite = true) :
    (predicate a b x0 x1 r2).exactOutcome =
      .ok (resolve a b (containmentVerdict a b x0 x1 r2)) := by
  rw [(finds ha hb hx0 hx1 hr2).exactOutcome_eq, verdict]
  cases hcontainment : containmentVerdict a b x0 x1 r2 with
  | settled excluded => rfl
  | touching candidate =>
    rw [Predicate.conclude_degenerate (displaced_eq ha hb hx0 hx1 hr2 hcontainment)]
    rfl

/-- The exclusion test where every predicate is evaluated exactly. -/
def exactExclusion (a b x0 x1 : Point) (r2 : Float) : Except Fault Exclusion := do
  if ¬r2 < 2 then throw .radiusTooLarge
  else if (← (Distance.sitePredicate x0 a b true).exactOutcome) ≠ .lt then throw .sitesOutOfOrder
  else if (← (Distance.sitePredicate x1 a b true).exactOutcome) = .lt then return .second
  else (predicate a b x0 x1 r2).exactOutcome

theorem exclusion_eq_exactExclusion (ha : a.Finite) (hb : b.Finite) (hx0 : x0.Finite)
    (hx1 : x1.Finite) (hr2 : r2.isFinite = true) :
    exclusion a b x0 x1 r2 = exactExclusion a b x0 x1 r2 := by
  have hsite : ∀ {x : Point}, x.Finite → Distance.nearerPerturbed x a b =
      (Distance.sitePredicate x a b true).exactOutcome := fun hx =>
    (Distance.finds_siteVerdict hx ha hb true).coherent.outcome_eq
  have hintervals : (predicate a b x0 x1 r2).outcome = (predicate a b x0 x1 r2).exactOutcome :=
    (finds ha hb hx0 hx1 hr2).coherent.outcome_eq
  rw [exclusion, exactExclusion, hsite hx0, hsite hx1, hintervals]

/-- The exact test once the order of the sites at both ends is known. -/
theorem exactExclusion_eq {second : Ordering} (hmax : r2 < 2)
    (hfirst : (Distance.sitePredicate x0 a b true).exactOutcome = .ok .lt)
    (hsecond : (Distance.sitePredicate x1 a b true).exactOutcome = .ok second) :
    exactExclusion a b x0 x1 r2 =
      if second = .lt then .ok .second else (predicate a b x0 x1 r2).exactOutcome := by
  rw [exactExclusion, if_neg (not_not.2 hmax), hfirst, hsecond]
  rfl

theorem exists_exactOutcome_site (hx : x.Finite) (ha : a.Finite) (hb : b.Finite) :
    ∃ order, (Distance.sitePredicate x a b true).exactOutcome = .ok order := by
  rw [(Distance.finds_siteVerdict hx ha hb true).exactOutcome_eq]
  cases Distance.siteVerdict x a b true <;> exact ⟨_, rfl⟩

/-- The nearer of two sites, ties broken, has the larger cosine. -/
theorem cosineVerdict_of_nearer (hx : x.Finite) (ha : a.Finite) (hb : b.Finite)
    (h : (Distance.sitePredicate x a b true).exactOutcome = .ok .lt) :
    Distance.cosineVerdict x.value a.value b.value ≠ .gt := by
  rw [(Distance.finds_siteVerdict hx ha hb true).exactOutcome_eq, Distance.siteVerdict] at h
  intro hfarther
  have htie : ¬(Ordering.gt = .eq ∧ true = true) := by decide
  rw [hfarther, if_neg htie] at h
  split_ifs at h <;> cases h

theorem distanceVerdict_of_exactOutcome (hx : x.Finite) (hx0 : x0.Finite) (hx1 : x1.Finite)
    (hr2 : r2.isFinite = true) (h : (Edge.distancePredicate x x0 x1 r2).exactOutcome ≠ .ok .gt) :
    Edge.distanceVerdict x.value x0.value x1.value (Binary64.value r2) ≠ .gt := by
  intro hfarther
  rw [(finds_edge hx hx0 hx1 hr2).exactOutcome_eq, hfarther] at h
  exact h rfl

end Exact

/-! ## Safety -/

/-- A site that is the nearer one at both ends is so between them. -/
theorem angle_le_of_ends {a b y0 y1 : Vec3 ℚ} {s t : ℝ} (ha : 0 < a.normSq) (hb : 0 < b.normSq)
    (h0 : Distance.cosineVerdict y0 a b ≠ .gt) (h1 : Distance.cosineVerdict y1 a b ≠ .gt)
    (hs : 0 ≤ s) (ht : 0 ≤ t) (hq : 0 < (y0.real.scale s + y1.real.scale t).normSq) :
    (y0.real.scale s + y1.real.scale t).angle a.real ≤
      (y0.real.scale s + y1.real.scale t).angle b.real := by
  rw [Distance.cosineVerdict_eq ha hb, compare_le_iff_le] at h0 h1
  rw [Vec3.angle_le_angle_iff hq (Vec3.real_normSq_pos ha) (Vec3.real_normSq_pos hb),
    Vec3.combination_dot, Vec3.combination_dot]
  linarith [mul_le_mul_of_nonneg_left h0 hs, mul_le_mul_of_nonneg_left h1 ht]

/-- A point of the circle that is covered by a site is as near to one with a larger interval. -/
theorem angle_le_of_inside {u v n : Vec3 ℚ} {r2 : ℚ} {q : Vec3 ℝ} (hmin : 0 ≤ r2) (hmax : r2 < 2)
    (hn : 0 < n.normSq) (hu : Covers (radiusCosine r2) n u) (hv : Covers (radiusCosine r2) n v)
    (h : Inside (radiusCosine r2) n.real u.real v.real) (hq : n.real.dot q = 0)
    (hpos : 0 < q.normSq) (hcover : q.angle u.real ≤ radius r2) :
    q.angle v.real ≤ q.angle u.real := by
  have hu' := Vec3.real_normSq_pos hu.pos
  have hv' := Vec3.real_normSq_pos hv.pos
  have hcosine : (0 : ℝ) < radiusCosine r2 := Rat.cast_pos.2 (radiusCosine_pos hmax)
  have hcosine' : (radiusCosine r2 : ℝ) ≤ 1 := by exact_mod_cast radiusCosine_le_one hmin
  rw [radius, Vec3.angle_le_arccos_iff hpos hu' (by linarith) hcosine'] at hcover
  rw [Vec3.angle_le_angle_iff hpos hv' hu']
  exact h.nearer hcosine (Vec3.real_normSq_pos hn) hu' hu.reach_real_nonneg hv.reach_real_nonneg hq
    hcover

/-- Whatever the test excludes, the other site is at least as near to every point of the edge that
the excluded site covers. The test runs on exact outcomes, and the cascade has the same outcome. -/
theorem exclusion_safe {a b x0 x1 : Point} {r2 : Float} (ha : a.Finite) (hb : b.Finite)
    (hx0 : x0.Finite) (hx1 : x1.Finite) (hr2 : r2.isFinite = true)
    (hends : x0.value.cross x1.value ≠ ⟨0, 0, 0⟩) (hmin : 0 ≤ r2) (hmax : r2 < 2)
    (hcoverA : (Edge.distancePredicate a x0 x1 r2).exactOutcome ≠ .ok .gt)
    (hcoverB : (Edge.distancePredicate b x0 x1 r2).exactOutcome ≠ .ok .gt)
    (horder : (Distance.sitePredicate x0 a b true).exactOutcome = .ok .lt) :
    ∃ excluded, exactExclusion a b x0 x1 r2 = .ok excluded ∧
      exclusion a b x0 x1 r2 = .ok excluded ∧
      ∀ s t : ℝ, 0 ≤ s → 0 ≤ t → s ≠ 0 ∨ t ≠ 0 →
        let q := x0.real.scale s + x1.real.scale t
        (excluded = .first → q.angle a.real ≤ radius (Binary64.value r2) →
            q.angle b.real ≤ q.angle a.real) ∧
          (excluded = .second → q.angle b.real ≤ radius (Binary64.value r2) →
            q.angle a.real ≤ q.angle b.real) := by
  have hzero : Binary64.value 0 ≤ Binary64.value r2 :=
    (Binary64.le_iff_value (by decide +kernel) hr2).1 hmin
  have htwo : Binary64.value r2 < Binary64.value 2 :=
    (Binary64.lt_iff_value hr2 (by decide +kernel)).1 hmax
  rw [Binary64.value_zero] at hzero
  rw [Binary64.value_two] at htwo
  have hA := covers_of_distanceVerdict htwo
    (distanceVerdict_of_exactOutcome ha hx0 hx1 hr2 hcoverA)
  have hB := covers_of_distanceVerdict htwo
    (distanceVerdict_of_exactOutcome hb hx0 hx1 hr2 hcoverB)
  have hnormal := Vec3.normSq_pos hends
  have hnormal' := Vec3.real_normSq_pos hnormal
  rw [Vec3.real_cross] at hnormal'
  obtain ⟨order, hsecond⟩ := exists_exactOutcome_site hx1 ha hb
  rw [exclusion_eq_exactExclusion ha hb hx0 hx1 hr2, exactExclusion_eq hmax horder hsecond]
  split_ifs with hnearer
  · -- the first site is the nearer one at both ends
    refine ⟨_, rfl, rfl, fun s t hs ht hst => ⟨nofun, fun _ _ => ?_⟩⟩
    rw [hnearer] at hsecond
    exact angle_le_of_ends hA.pos hB.pos (cosineVerdict_of_nearer hx0 ha hb horder)
      (cosineVerdict_of_nearer hx1 ha hb hsecond) hs ht (Vec3.normSq_combination_pos hnormal' hst)
  · refine ⟨_, exactOutcome_eq ha hb hx0 hx1 hr2, exactOutcome_eq ha hb hx0 hx1 hr2,
      fun s t _ _ hst => ?_⟩
    have hfirst := resolve_eq_first_iff ha hb htwo hA hB
    have hsecond := resolve_eq_second_iff ha hb htwo hA hB
    have hcircle := Vec3.cross_dot_combination x0.value.real x1.value.real s t
    rw [← Vec3.real_cross] at hcircle
    have hpos := Vec3.normSq_combination_pos hnormal' hst
    refine ⟨fun h hcover => ?_, fun h hcover => ?_⟩
    · have hinside := (hfirst.1 h).1
      exact angle_le_of_inside hzero htwo hnormal hA hB hinside hcircle hpos hcover
    · have hinside := (hsecond.1 h).1
      exact angle_le_of_inside hzero htwo hnormal hB hA hinside hcircle hpos hcover

/-- A site off the edge gives way to one on it that is farther from the start. -/
theorem exclusion_safe_first :
    exclusion ⟨1, 0.5, 0.25⟩ ⟨1, 0.625, 0⟩ ⟨1, 0, 0⟩ ⟨0, 1, 0⟩ 0.0625 = .ok .first ∧
      ∀ s t : ℝ, 0 ≤ s → 0 ≤ t → s ≠ 0 ∨ t ≠ 0 →
        let q := (Point.real ⟨1, 0, 0⟩).scale s + (Point.real ⟨0, 1, 0⟩).scale t
        q.angle (Point.real ⟨1, 0.5, 0.25⟩) ≤ radius (Binary64.value 0.0625) →
          q.angle (Point.real ⟨1, 0.625, 0⟩) ≤ q.angle (Point.real ⟨1, 0.5, 0.25⟩) := by
  have hradius : (0.0625 : Float).isFinite = true := by decide +kernel
  have hfirst : exactExclusion ⟨1, 0.5, 0.25⟩ ⟨1, 0.625, 0⟩ ⟨1, 0, 0⟩ ⟨0, 1, 0⟩ 0.0625 =
    .ok .first := by decide +kernel
  obtain ⟨excluded, hexact, houtcome, hsafe⟩ := @exclusion_safe ⟨1, 0.5, 0.25⟩
    ⟨1, 0.625, 0⟩ ⟨1, 0, 0⟩ ⟨0, 1, 0⟩ 0.0625 (by decide +kernel)
    (by decide +kernel) (by decide +kernel) (by decide +kernel) hradius (by decide +kernel)
    (by decide +kernel) (by decide +kernel) (by decide +kernel) (by decide +kernel)
    (by decide +kernel)
  obtain rfl : .first = excluded := Except.ok.inj (hfirst.symm.trans hexact)
  exact ⟨houtcome, fun s t hs ht hst => (hsafe s t hs ht hst).1 rfl⟩

end ExactSphere.Voronoi
