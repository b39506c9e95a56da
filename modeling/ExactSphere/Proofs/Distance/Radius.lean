import ExactSphere.Proofs.Cascade
import ExactSphere.Proofs.Verdict.Squares

/-!
# Points within a radius

The angle between two points is compared with a radius by their cosines (`exactOutcome_radius`).
That of the radius is `1 - r2 / 2`, which also decides beyond the range of cosines: every angle is
above a radius below zero and within one beyond 180 degrees. So a larger radius never leaves a point
farther outside, and neither of the two points comes first (`radius_compared`).
-/

namespace ExactSphere.Distance

variable {x y : Point} {r2 s2 : Float}

theorem finds_radius (hx : x.Finite) (hy : y.Finite) (hr2 : r2.isFinite = true) :
    (radiusPredicate x y r2).Finds
      (.decided (cosineRadiusVerdict x.value y.value (Binary64.value r2))) :=
  Predicate.finds_of_sound fun _ => answers_radiusFormula hx hy hr2

section Nonzero

variable (hx : x.Finite) (hy : y.Finite) (hx0 : x.value ≠ ⟨0, 0, 0⟩) (hy0 : y.value ≠ ⟨0, 0, 0⟩)

include hx hy hx0 hy0

theorem exactOutcome_radius (hr2 : r2.isFinite = true) :
    (radiusPredicate x y r2).exactOutcome =
      .ok (compare ((1 - Binary64.value r2 / 2) * (x.real.length * y.real.length))
        (x.real.dot y.real)) := by
  have hcosine : ((1 - 1 / 2 * Binary64.value r2 : ℚ) : ℝ) = 1 - Binary64.value r2 / 2 := by
    push_cast
    ring
  rw [(finds_radius hx hy hr2).exactOutcome_eq,
    cosineRadiusVerdict_eq (Vec3.normSq_pos hx0) (Vec3.normSq_pos hy0), hcosine]
  rfl

theorem exactOutcome_radius_comm (hr2 : r2.isFinite = true) :
    (radiusPredicate y x r2).exactOutcome = (radiusPredicate x y r2).exactOutcome := by
  rw [exactOutcome_radius hx hy hx0 hy0 hr2, exactOutcome_radius hy hx hy0 hx0 hr2,
    mul_comm y.real.length, Vec3.dot_comm y.real]

/-- A larger radius has a smaller cosine, so its answer is not above that of a smaller one. -/
theorem exactOutcome_radius_mono (hr2 : r2.isFinite = true) (hs2 : s2.isFinite = true)
    (hle : r2 ≤ s2) {o p : Ordering} (ho : (radiusPredicate x y r2).exactOutcome = .ok o)
    (hp : (radiusPredicate x y s2).exactOutcome = .ok p) :
    (o = .lt → p = .lt) ∧ (o = .eq → p ≠ .gt) := by
  have hvalue : (Binary64.value r2 : ℝ) ≤ Binary64.value s2 := by
    exact_mod_cast (Binary64.le_iff_value hr2 hs2).1 hle
  have hlengths : 0 ≤ x.real.length * y.real.length :=
    mul_nonneg x.real.length_nonneg y.real.length_nonneg
  have hbound : (1 - Binary64.value s2 / 2) * (x.real.length * y.real.length) ≤
      (1 - Binary64.value r2 / 2) * (x.real.length * y.real.length) :=
    mul_le_mul_of_nonneg_right (by linarith) hlengths
  rw [exactOutcome_radius hx hy hx0 hy0 hr2, Except.ok.injEq] at ho
  rw [exactOutcome_radius hx hy hx0 hy0 hs2, Except.ok.injEq] at hp
  subst ho hp
  constructor
  · intro hlt
    rw [compare_lt_iff_lt] at hlt ⊢
    exact hbound.trans_lt hlt
  · intro heq
    rw [compare_eq_iff_eq] at heq
    rw [compare_le_iff_le]
    exact hbound.trans_eq heq

end Nonzero

/-- The exact test, with which the whole cascade agrees, compares the angle between two points with
a radius. A larger radius moves the answer only towards `lt`, and the points can be exchanged. -/
theorem radius_compared (hx : x.Finite) (hy : y.Finite) (hx0 : x.value ≠ ⟨0, 0, 0⟩)
    (hy0 : y.value ≠ ⟨0, 0, 0⟩) :
    (∀ r2 : Float, r2.isFinite = true →
      withinRadius x y r2 = (radiusPredicate x y r2).exactOutcome ∧
      (radiusPredicate x y r2).exactOutcome =
        .ok (compare ((1 - Binary64.value r2 / 2) * (x.real.length * y.real.length))
          (x.real.dot y.real)) ∧
      (radiusPredicate y x r2).exactOutcome = (radiusPredicate x y r2).exactOutcome) ∧
    (∀ r2 s2 : Float, r2.isFinite = true → s2.isFinite = true → r2 ≤ s2 → ∀ o p : Ordering,
      (radiusPredicate x y r2).exactOutcome = .ok o →
      (radiusPredicate x y s2).exactOutcome = .ok p →
      (o = .lt → p = .lt) ∧ (o = .eq → p ≠ .gt)) := by
  refine ⟨fun r2 hr2 => ⟨?_, ?_, ?_⟩, ?_⟩
  · exact (finds_radius hx hy hr2).coherent.outcome_eq
  · exact exactOutcome_radius hx hy hx0 hy0 hr2
  · exact exactOutcome_radius_comm hx hy hx0 hy0 hr2
  · intro r2 s2 hr2 hs2 hle o p ho hp
    exact exactOutcome_radius_mono hx hy hx0 hy0 hr2 hs2 hle ho hp

/-- Two directions at 120 degrees, whose squared chord is 3: the test finds them exactly that far
apart, from either of them, and a radius of 4 contains them all the more. -/
theorem radius_compared_obtuse :
    (1 - Binary64.value 3 / 2) *
        ((Point.real ⟨1, 1, 0⟩).length * (Point.real ⟨-1, 0, 1⟩).length) =
          (Point.real ⟨1, 1, 0⟩).dot (Point.real ⟨-1, 0, 1⟩) ∧
      (radiusPredicate ⟨-1, 0, 1⟩ ⟨1, 1, 0⟩ 3).exactOutcome = .ok .eq ∧
      ∃ p, (radiusPredicate ⟨1, 1, 0⟩ ⟨-1, 0, 1⟩ 4).exactOutcome = .ok p ∧ p ≠ .gt := by
  have hthree : (3 : Float).isFinite = true := by decide +kernel
  have hfour : (4 : Float).isFinite = true := by decide +kernel
  have hexact : (radiusPredicate ⟨1, 1, 0⟩ ⟨-1, 0, 1⟩ 3).exactOutcome = .ok .eq := by
    decide +kernel
  obtain ⟨hradius, hmono⟩ := radius_compared (x := ⟨1, 1, 0⟩) (y := ⟨-1, 0, 1⟩) (by decide +kernel)
    (by decide +kernel) (by decide +kernel) (by decide +kernel)
  obtain ⟨-, hcosines, hcomm⟩ := hradius 3 hthree
  obtain ⟨-, hlarger, -⟩ := hradius 4 hfour
  have hequal := Except.ok.inj (hcosines.symm.trans hexact)
  rw [compare_eq_iff_eq] at hequal
  exact ⟨hequal, hcomm.trans hexact, _, hlarger,
    (hmono 3 4 hthree hfour (by decide +kernel) _ _ hexact hlarger).2 rfl⟩

end ExactSphere.Distance
