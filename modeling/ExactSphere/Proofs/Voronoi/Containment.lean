import ExactSphere.Proofs.Voronoi.Arc
import ExactSphere.Proofs.Voronoi.Exclusion

/-!
# Exclusion is inclusion of intervals

A site is excluded exactly if its interval on the circle of the edge lies inside that of the other
site; where the intervals have a common end, it has to be the smaller of the two sites
(`exactOutcome_of_arcs`). The intervals are compared as sets of directions (`arc_subset_iff`), and
touch where the inequality that places one inside the other is an equality.
-/

namespace ExactSphere.Voronoi

/-! ## Inclusion -/

section Inclusion

variable {a b : Point} {u v n : Vec3 ℚ} {r2 : ℚ}

/-- The interval of a site is given up to that of another one that contains it. Where they have a
common end, the larger site is kept. -/
def GivesWay (n : Vec3 ℝ) (r : ℝ) (a b : Point) : Prop :=
  arc n a.real r ⊆ arc n b.real r ∧
    (arcEnds n a.real r ∩ arcEnds n b.real r = ∅ ∨ a.key < b.key)

theorem resolve_eq_first_iff_givesWay (ha : a.Finite) (hb : b.Finite) (hmin : 0 ≤ r2) (hr : r2 < 2)
    (hn : 0 < n.normSq) (hu : Covers (radiusCosine r2) n a.value)
    (hv : Covers (radiusCosine r2) n b.value) :
    resolve a b (intervalVerdict a.value b.value n r2 (a.lexOrder b)) = .first ↔
      GivesWay n.real (radius r2) a b := by
  have hcosine : (0 : ℝ) < radiusCosine r2 := Rat.cast_pos.2 (radiusCosine_pos hr)
  have hcosine' : (radiusCosine r2 : ℝ) ≤ 1 := by exact_mod_cast radiusCosine_le_one hmin
  have hn' := Vec3.real_normSq_pos hn
  have hu' := Vec3.real_normSq_pos hu.pos
  have hv' := Vec3.real_normSq_pos hv.pos
  have hsubset := arc_subset_iff hcosine hn' hu' hv' hu.reach_real_nonneg hv.reach_real_nonneg
    hcosine'
  rw [resolve_eq_first_iff ha hb hr hu hv, GivesWay]
  change _ ↔ arc n.real a.value.real _ ⊆ arc n.real b.value.real _ ∧ _
  rw [radius, hsubset]
  refine and_congr_right fun hinside => or_congr_left (not_iff_comm.1 ?_)
  rw [← Ne, ← Set.nonempty_iff_ne_empty]
  exact exists_common_end_iff hcosine hn' hu' hv' hu.reach_real_nonneg hv.reach_real_nonneg
    hcosine' hinside

/-- A site covers a part of the circle unless its latitude is beyond the radius. -/
theorem latitude_iff {x : Vec3 ℚ} (hmin : 0 ≤ r2) (hmax : r2 ≤ 4) :
    x.real.dot n.real ^ 2 ≤ Real.sin (radius r2) ^ 2 * x.real.normSq * n.real.normSq ↔
      0 ≤ reach (radiusCosine r2) n x := by
  have hreach : 0 ≤ reach (radiusCosine r2) n x ↔
      0 ≤ reach (radiusCosine r2 : ℝ) n.real x.real := by
    rw [reach_real, Rat.cast_nonneg]
  rw [hreach, reach, Real.sin_sq, cos_radius hmin hmax, radiusCosine_cast, ← sub_nonneg]
  ring_nf

end Inclusion

/-! ## The exact test -/

/-- The exact test finds the site whose interval is inside the other one. -/
theorem exactOutcome_of_arcs {a b x0 x1 : Point} {r2 : Float} (ha : a.Finite) (hb : b.Finite)
    (hx0 : x0.Finite) (hx1 : x1.Finite) (hzeroA : a.value ≠ ⟨0, 0, 0⟩)
    (hzeroB : b.value ≠ ⟨0, 0, 0⟩) (hends : x0.value.cross x1.value ≠ ⟨0, 0, 0⟩) (hmin : 0 ≤ r2)
    (hmax : r2 < 2)
    (hlatitudeA : a.real.dot (x0.real.cross x1.real) ^ 2 ≤
      Real.sin (radius (Binary64.value r2)) ^ 2 * a.real.normSq * (x0.real.cross x1.real).normSq)
    (hlatitudeB : b.real.dot (x0.real.cross x1.real) ^ 2 ≤
      Real.sin (radius (Binary64.value r2)) ^ 2 * b.real.normSq * (x0.real.cross x1.real).normSq) :
    ∃ excluded, (predicate a b x0 x1 r2).exactOutcome = .ok excluded ∧
      (predicate a b x0 x1 r2).outcome = .ok excluded ∧
      (excluded = .first ↔
        GivesWay (x0.real.cross x1.real) (radius (Binary64.value r2)) a b) ∧
      (excluded = .second ↔
        GivesWay (x0.real.cross x1.real) (radius (Binary64.value r2)) b a) ∧
      (excluded = .neither ↔
        ¬GivesWay (x0.real.cross x1.real) (radius (Binary64.value r2)) a b ∧
          ¬GivesWay (x0.real.cross x1.real) (radius (Binary64.value r2)) b a) := by
  have hr2 := Binary64.isFinite_of_between (by decide +kernel) (by decide +kernel) hmin
    (Binary64.le_of_less hmax)
  have hzero : Binary64.value 0 ≤ Binary64.value r2 :=
    (Binary64.le_iff_value (by decide +kernel) hr2).1 hmin
  have htwo : Binary64.value r2 < Binary64.value 2 :=
    (Binary64.lt_iff_value hr2 (by decide +kernel)).1 hmax
  rw [Binary64.value_zero] at hzero
  rw [Binary64.value_two] at htwo
  have hexact := exactOutcome_eq ha hb hx0 hx1 hr2
  have hcoherent := (finds ha hb hx0 hx1 hr2).coherent.outcome_eq
  have hnormal : x0.real.cross x1.real = (x0.value.cross x1.value).real :=
    (Vec3.real_cross x0.value x1.value).symm
  rw [hnormal] at hlatitudeA hlatitudeB ⊢
  have hn := Vec3.normSq_pos hends
  have hA : Covers (radiusCosine (Binary64.value r2)) (x0.value.cross x1.value) a.value :=
    ⟨Vec3.normSq_pos hzeroA, (latitude_iff hzero (by linarith)).1 hlatitudeA⟩
  have hB : Covers (radiusCosine (Binary64.value r2)) (x0.value.cross x1.value) b.value :=
    ⟨Vec3.normSq_pos hzeroB, (latitude_iff hzero (by linarith)).1 hlatitudeB⟩
  have hfirst := resolve_eq_first_iff_givesWay ha hb hzero htwo hn hA hB
  have hsecond := resolve_eq_first_iff_givesWay hb ha hzero htwo hn hB hA
  rw [resolve_swap ha hb, Exclusion.swap_eq_first_iff] at hsecond
  refine ⟨_, hexact, hcoherent.trans hexact, hfirst, hsecond, ?_⟩
  rw [← hfirst, ← hsecond, containmentVerdict]
  cases resolve a b _ <;> decide

/-- Sites on both sides of an edge and at the same distance have one interval. The smaller site
gives way. -/
theorem exactOutcome_of_arcs_mirrored :
    (predicate ⟨1, 1, 0.25⟩ ⟨1, 1, -0.25⟩ ⟨1, 0, 0⟩ ⟨0, 1, 0⟩ 1).outcome = .ok .second ∧
      GivesWay ((Point.real ⟨1, 0, 0⟩).cross (Point.real ⟨0, 1, 0⟩)) (radius (Binary64.value 1))
        ⟨1, 1, -0.25⟩ ⟨1, 1, 0.25⟩ := by
  have hexact : (predicate ⟨1, 1, 0.25⟩ ⟨1, 1, -0.25⟩ ⟨1, 0, 0⟩ ⟨0, 1, 0⟩ 1).exactOutcome =
    .ok .second := by decide +kernel
  have hlatitude : ∀ x : Point, x = ⟨1, 1, 0.25⟩ ∨ x = ⟨1, 1, -0.25⟩ →
      x.real.dot ((Point.real ⟨1, 0, 0⟩).cross (Point.real ⟨0, 1, 0⟩)) ^ 2 ≤
        Real.sin (radius (Binary64.value 1)) ^ 2 * x.real.normSq *
          ((Point.real ⟨1, 0, 0⟩).cross (Point.real ⟨0, 1, 0⟩)).normSq := by
    have hnormal := Vec3.real_cross (Point.value ⟨1, 0, 0⟩) (Point.value ⟨0, 1, 0⟩)
    rintro x (rfl | rfl) <;> refine hnormal ▸ (latitude_iff ?_ ?_).2 ?_ <;> decide +kernel
  obtain ⟨excluded, houtcome, hcascade, -, hsecond, -⟩ := @exactOutcome_of_arcs ⟨1, 1, 0.25⟩
    ⟨1, 1, -0.25⟩ ⟨1, 0, 0⟩ ⟨0, 1, 0⟩ 1 (by decide +kernel) (by decide +kernel)
    (by decide +kernel) (by decide +kernel) (by decide +kernel) (by decide +kernel)
    (by decide +kernel) (by decide +kernel) (by decide +kernel)
    (hlatitude _ (.inl rfl)) (hlatitude _ (.inr rfl))
  obtain rfl : .second = excluded := Except.ok.inj (hexact.symm.trans houtcome)
  exact ⟨hcascade, hsecond.1 rfl⟩

end ExactSphere.Voronoi
