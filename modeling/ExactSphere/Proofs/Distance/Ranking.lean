import ExactSphere.Proofs.Cascade
import ExactSphere.Proofs.Verdict.Squares

/-!
# The nearer of two sites

Seen from a point, every site has a projection, and the nearer of two sites is the one with the
larger projection (`cosineVerdict_eq_projection`). Ties go by the coordinates. So the comparison
with ties broken is that of one rank for each site, in a linear order, and is itself a total order
(`sites_ranked`).
-/

namespace ExactSphere.Distance

noncomputable section

/-- The length of `x` along the direction of `a`. Along the zero vector it is zero. -/
def projection (x a : Vec3 ℚ) : ℝ := x.real.dot a.real / a.real.length

/-- What decides which of two sites is farther from `x`: the projection, then the coordinates. -/
def rank (x a : Point) : ℝ ×ₗ ℚ ×ₗ ℚ ×ₗ ℚ := toLex (projection x.value a.value, a.key)

end

/-! ## Projections -/

section Projection

variable {x a b : Vec3 ℚ}

theorem projection_of_normSq_eq_zero (ha : a.normSq = 0) (x : Vec3 ℚ) : projection x a = 0 := by
  rw [projection, Vec3.length, Vec3.real_normSq, ha, Rat.cast_zero, Real.sqrt_zero, div_zero]

theorem dot_of_normSq_eq_zero (ha : a.normSq = 0) (x : Vec3 ℚ) : x.dot a = 0 := by
  by_contra hne
  rw [Vec3.dot_comm] at hne
  exact (Vec3.normSq_pos_of_dot hne).ne' ha

/-- A site lies on the side of `x` to which its projection points. -/
theorem sign_projection (x a : Vec3 ℚ) : Sign.of (projection x a) = Sign.of (x.dot a) := by
  rcases a.normSq_nonneg.eq_or_lt with ha | ha
  · rw [projection_of_normSq_eq_zero ha.symm, dot_of_normSq_eq_zero ha.symm, Sign.of_zero,
      Sign.of_zero]
  · have hlength : 0 < a.real.length⁻¹ := inv_pos.2 (Vec3.length_pos (Vec3.real_normSq_pos ha))
    rw [projection, div_eq_mul_inv, mul_comm, Sign.of_mul_of_pos hlength, Vec3.real_dot,
      Sign.of_ratCast]

/-- Cross-multiplied squares compare projections that are not both zero. -/
theorem sign_squares_projection (h : x.dot a ≠ 0) (hsign : Sign.of (x.dot a) = Sign.of (x.dot b)) :
    Sign.of (x.dot b * x.dot b * a.normSq - x.dot a * x.dot a * b.normSq) =
      Sign.of (projection x b * projection x b - projection x a * projection x a) := by
  have hb : x.dot b ≠ 0 := fun hzero => h (Sign.of_eq_zero_iff.1 (hsign.trans (by rw [hzero]; rfl)))
  rw [Vec3.dot_comm] at h hb
  have hlengthA := Vec3.length_pos (Vec3.real_normSq_pos (Vec3.normSq_pos_of_dot h))
  have hlengthB := Vec3.length_pos (Vec3.real_normSq_pos (Vec3.normSq_pos_of_dot hb))
  have hfactor : 0 < a.real.normSq * b.real.normSq := by
    rw [← Vec3.length_mul_self, ← Vec3.length_mul_self]
    positivity
  rw [← Sign.of_mul_of_pos hfactor, ← Sign.of_ratCast]
  congr 1
  rw [projection, projection, ← Vec3.length_mul_self, ← Vec3.length_mul_self]
  push_cast
  rw [← Vec3.real_dot, ← Vec3.real_dot, ← Vec3.real_normSq, ← Vec3.real_normSq,
    ← Vec3.length_mul_self, ← Vec3.length_mul_self]
  field_simp

/-- The nearer site has the larger projection. -/
theorem cosineVerdict_eq_projection (x a b : Vec3 ℚ) :
    cosineVerdict x a b = compare (projection x b) (projection x a) := by
  rw [← Sign.order_by_squares, sign_projection, sign_projection, cosineVerdict]
  split_ifs with hne
  · rfl
  · by_cases hzero : x.dot a = 0
    · -- both projections vanish, whatever the squares of the lengths are
      rw [hzero, Sign.of_zero]
      rfl
    · rw [sign_squares_projection hzero (not_not.1 hne)]

end Projection

/-! ## Ranks -/

section Rank

variable {x a b c : Point}

theorem rank_eq_iff : rank x a = rank x b ↔ a.key = b.key := by
  refine ⟨fun h => congrArg (fun r => (ofLex r).2) h, fun h => ?_⟩
  rw [rank, rank, h, Point.value_eq_of_key_eq h]

theorem compare_rank (x a b : Point) : compare (rank x b) (rank x a) =
    (compare (projection x.value b.value) (projection x.value a.value)).then
      (compare b.key a.key) := rfl

theorem finds_siteVerdict (hx : x.Finite) (ha : a.Finite) (hb : b.Finite) (perturbed : Bool) :
    (sitePredicate x a b perturbed).Finds (siteVerdict x a b perturbed) :=
  Predicate.finds_of_sound fun _ => answers_siteFormula hx ha hb perturbed

theorem exactOutcome_site (hx : x.Finite) (ha : a.Finite) (hb : b.Finite) :
    (sitePredicate x a b false).exactOutcome =
      .ok (compare (projection x.value b.value) (projection x.value a.value)) := by
  rw [(finds_siteVerdict hx ha hb false).exactOutcome_eq, siteVerdict,
    cosineVerdict_eq_projection]
  by_cases hsame : a.same b = true
  · rw [if_pos hsame, Point.value_eq_of_key_eq ((Point.same_iff ha hb).1 hsame),
      compare_eq_iff_eq.2 rfl]
    rfl
  · rw [if_neg hsame, if_neg fun h => Bool.false_ne_true h.2]
    rfl

/-- With ties broken, the site of the larger rank is the nearer one. -/
theorem exactOutcome_perturbed (hx : x.Finite) (ha : a.Finite) (hb : b.Finite) :
    (sitePredicate x a b true).exactOutcome = .ok (compare (rank x b) (rank x a)) := by
  rw [(finds_siteVerdict hx ha hb true).exactOutcome_eq, siteVerdict, cosineVerdict_eq_projection]
  by_cases hsame : a.same b = true
  · rw [if_pos hsame, compare_eq_iff_eq.2 (rank_eq_iff.2 ((Point.same_iff ha hb).1 hsame).symm)]
    rfl
  · rw [if_neg hsame, compare_rank]
    split_ifs with htie
    · rw [Predicate.conclude_degenerate rfl, htie.1, Point.lexOrder_eq hb ha]
      rfl
    · cases hprojection : compare (projection x.value b.value) (projection x.value a.value) with
      | eq => exact absurd ⟨hprojection, rfl⟩ htie
      | lt | gt => rfl

end Rank

/-! ## The order of the sites -/

/-- The comparison `order` is a total order of the finite points: it always answers, with equality
only for equal points, and the answers do not depend on the order in which they are asked for. -/
structure RanksSites (order : Point → Point → Except Fault Ordering) : Prop where
  answers : ∀ {a b : Point}, a.Finite → b.Finite → ∃ o, order a b = .ok o
  eq_iff : ∀ {a b : Point}, a.Finite → b.Finite → (order a b = .ok .eq ↔ a.same b = true)
  swap : ∀ {a b : Point}, a.Finite → b.Finite → order b a = (order a b).map Ordering.swap
  trans : ∀ {a b c : Point}, a.Finite → b.Finite → c.Finite →
    order a b ≠ .ok .gt → order b c ≠ .ok .gt → order a c ≠ .ok .gt

/-- A comparison by ranks in a linear order, the larger one first, is a total order. -/
theorem RanksSites.of_rank {K : Type} [LinearOrder K] {r : Point → K}
    {order : Point → Point → Except Fault Ordering}
    (horder : ∀ {a b : Point}, a.Finite → b.Finite → order a b = .ok (compare (r b) (r a)))
    (hr : ∀ {a b : Point}, a.Finite → b.Finite → (r a = r b ↔ a.same b = true)) :
    RanksSites order where
  answers ha hb := ⟨_, horder ha hb⟩
  eq_iff ha hb := by
    rw [horder ha hb, Except.ok.injEq, compare_eq_iff_eq, eq_comm, hr ha hb]
  swap ha hb := by
    rw [horder ha hb, horder hb ha, Except.map, Std.OrientedOrd.eq_swap (α := K)]
  trans ha hb hc hab hbc := by
    rw [horder ha hb, ne_eq, Except.ok.injEq, ← ne_eq, compare_le_iff_le] at hab
    rw [horder hb hc, ne_eq, Except.ok.injEq, ← ne_eq, compare_le_iff_le] at hbc
    rw [horder ha hc, ne_eq, Except.ok.injEq, ← ne_eq, compare_le_iff_le]
    exact hbc.trans hab

/-- Seen from a finite point, the nearer of two sites is the one with the larger projection. With
ties broken, the comparison is a total order of the finite points that refines this one. Both hold
of the exact evaluation, with which the whole cascade agrees. -/
theorem sites_ranked {x : Point} (hx : x.Finite) :
    (∀ a b : Point, a.Finite → b.Finite →
      nearer x a b = (sitePredicate x a b false).exactOutcome ∧
        nearerPerturbed x a b = (sitePredicate x a b true).exactOutcome) ∧
    (∀ a b : Point, a.Finite → b.Finite → a.value ≠ ⟨0, 0, 0⟩ → b.value ≠ ⟨0, 0, 0⟩ →
      (sitePredicate x a b false).exactOutcome =
        .ok (compare (x.real.dot b.real / b.real.length) (x.real.dot a.real / a.real.length))) ∧
    RanksSites (fun a b => (sitePredicate x a b true).exactOutcome) ∧
    (∀ a b : Point, a.Finite → b.Finite → (sitePredicate x a b false).exactOutcome ≠ .ok .eq →
      (sitePredicate x a b true).exactOutcome = (sitePredicate x a b false).exactOutcome) := by
  refine ⟨fun a b ha hb => ?_, fun a b ha hb _ _ => exactOutcome_site hx ha hb, ?_,
    fun a b ha hb hne => ?_⟩
  · exact ⟨(finds_siteVerdict hx ha hb false).coherent.outcome_eq,
      (finds_siteVerdict hx ha hb true).coherent.outcome_eq⟩
  · refine RanksSites.of_rank (exactOutcome_perturbed hx) fun ha hb => ?_
    rw [rank_eq_iff, Point.same_iff ha hb]
  · rw [exactOutcome_site hx ha hb] at hne ⊢
    rw [exactOutcome_perturbed hx ha hb, compare_rank]
    cases hprojection : compare (projection x.value b.value) (projection x.value a.value) with
    | eq => exact absurd (congrArg Except.ok hprojection) hne
    | lt | gt => rfl

/-- Two sites at right angles to `x`: neither projection is larger, only the coordinates decide, and
exchanging the sites exchanges the answers. -/
theorem sites_ranked_perpendicular :
    compare (projection (Point.value ⟨1, 0, 0⟩) (Point.value ⟨0, 0, 1⟩))
        (projection (Point.value ⟨1, 0, 0⟩) (Point.value ⟨0, 1, 0⟩)) = .eq ∧
      (sitePredicate ⟨1, 0, 0⟩ ⟨0, 1, 0⟩ ⟨0, 0, 1⟩ true).exactOutcome = .ok .lt ∧
      (sitePredicate ⟨1, 0, 0⟩ ⟨0, 0, 1⟩ ⟨0, 1, 0⟩ true).exactOutcome = .ok .gt := by
  obtain ⟨-, hprojections, hranks, -⟩ := sites_ranked (x := ⟨1, 0, 0⟩) (by decide +kernel)
  have hfirst : Point.Finite ⟨0, 1, 0⟩ ∧ Point.value ⟨0, 1, 0⟩ ≠ ⟨0, 0, 0⟩ := by decide +kernel
  have hsecond : Point.Finite ⟨0, 0, 1⟩ ∧ Point.value ⟨0, 0, 1⟩ ≠ ⟨0, 0, 0⟩ := by decide +kernel
  have htie : (sitePredicate ⟨1, 0, 0⟩ ⟨0, 1, 0⟩ ⟨0, 0, 1⟩ false).exactOutcome = .ok .eq := by
    decide +kernel
  have hnearer : (sitePredicate ⟨1, 0, 0⟩ ⟨0, 1, 0⟩ ⟨0, 0, 1⟩ true).exactOutcome = .ok .lt := by
    decide +kernel
  have hsame := (hprojections _ _ hfirst.1 hsecond.1 hfirst.2 hsecond.2).symm.trans htie
  have hswap := hranks.swap hfirst.1 hsecond.1
  exact ⟨Except.ok.inj hsame, hnearer, hswap.trans (by rw [hnearer]; rfl)⟩

end ExactSphere.Distance
