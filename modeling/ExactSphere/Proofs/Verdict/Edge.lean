import ExactSphere.Edge
import ExactSphere.Proofs.Verdict.Distance

/-!
# Exact comparisons with edges

A rounded scalar may leave one of two questions about an edge undecided and still settle the
comparison by the other one. Every answer given that way is that of the exact coordinates.
-/

namespace ExactSphere.Edge

open Certify (Answers)
open Distance (cosineRadiusVerdict answers_cosineRadiusOrder)

/-- The comparison with the nearer end of an edge. -/
def endpointVerdict (x a0 a1 : Vec3 ℚ) (r2 : ℚ) : Ordering :=
  match cosineRadiusVerdict x a0 r2, cosineRadiusVerdict x a1 r2 with
  | .lt, _ | _, .lt => .lt
  | .eq, _ | _, .eq => .eq
  | .gt, .gt => .gt

/-- The comparison with a great circle. -/
def circleVerdict (x n : Vec3 ℚ) (r2 : ℚ) : Ordering :=
  if 2 < r2 then .lt
  else
    (Sign.of (x.dot n * x.dot n - r2 * (1 - 1 / 4 * r2) * x.normSq * n.normSq)).toOrdering

/-- The comparison with an edge whose ends differ. -/
def distanceVerdict (x a0 a1 : Vec3 ℚ) (r2 : ℚ) : Ordering :=
  if Sign.of ((a0.cross a1).dot (a0.cross x)) = .positive ∧
      Sign.of ((a0.cross a1).dot (x.cross a1)) = .positive then
    circleVerdict x (a0.cross a1) r2
  else endpointVerdict x a0 a1 r2

variable {α : Type} [Scalar α] {rounded : Bool} {r2 : Float}

section

variable {x a0 a1 n : Vec3 Expression}

theorem answers_endpointOrder [SoundScalar rounded α] (hx : x.Fits 0) (ha0 : a0.Fits 0)
    (ha1 : a1.Fits 0) (hr2 : r2.isFinite = true) :
    Answers rounded (endpointOrder (x.eval α) (a0.eval α) (a1.eval α) r2)
      (endpointVerdict x.value a0.value a1.value (Binary64.value r2)) := by
  have hfirst := answers_cosineRadiusOrder (α := α) hx ha0 hr2
  have hsecond := answers_cosineRadiusOrder (α := α) hx ha1 hr2
  unfold endpointOrder endpointVerdict
  generalize cosineRadiusVerdict x.value a0.value (Binary64.value r2) = first at hfirst ⊢
  generalize cosineRadiusVerdict x.value a1.value (Binary64.value r2) = second at hsecond ⊢
  refine hfirst.attempt_bind (hsecond.attempt_bind ?_ fun _ => ?_)
    fun _ => hsecond.weaken.attempt_bind ?_ fun _ => ?_
  · cases first <;> cases second <;> exact .pure _
  · cases first
    case lt => exact .pure _
    all_goals exact .undecided _
  · cases first <;> cases second
    case lt.lt | eq.lt | gt.lt => exact .pure _
    all_goals exact .undecided _
  · exact .undecided _

theorem answers_circleOrder [SoundScalar rounded α] (hx : x.Fits 0) (hn : n.Fits 2)
    (hr2 : r2.isFinite = true) :
    Answers rounded (circleOrder (x.eval α) (n.eval α) r2)
      (circleVerdict x.value n.value (Binary64.value r2)) := by
  have hradius : (Scalar.ofFloat r2 : Expression).Fits 0 := .leaf hr2
  have hsinSq := hradius.mul (Expression.Fits.one.sub (Expression.Fits.quarter.mul hradius))
  have hfits := ((hx.dot hn).mul (hx.dot hn)).sub ((hsinSq.mul hx.normSq).mul hn.normSq)
  have hsign := answers_sign? (α := α) circleBudget hfits (by decide)
  simp only [Expression.value_sub, Expression.value_mul, Expression.value_ofFloat, Vec3.value_dot,
    Vec3.value_normSq, Binary64.value_one, Binary64.value_quarter] at hsign
  have hlarge : 2 < r2 ↔ 2 < Binary64.value r2 := by
    rw [Binary64.lt_iff_value (by decide +kernel) hr2, Binary64.value_two]
  unfold circleOrder circleVerdict
  by_cases h : 2 < r2
  · rw [if_pos h, if_pos (hlarge.1 h)]
    exact .pure _
  · rw [if_neg h, if_neg (mt hlarge.2 h)]
    exact hsign.bind (.pure _)

theorem answers_distanceOrder [SoundScalar rounded α] (hx : x.Fits 0) (ha0 : a0.Fits 0)
    (ha1 : a1.Fits 0) (hr2 : r2.isFinite = true) :
    Answers rounded (distanceOrder (x.eval α) (a0.eval α) (a1.eval α) r2)
      (distanceVerdict x.value a0.value a1.value (Binary64.value r2)) := by
  have hnormal := ha0.cross ha1
  have hstart := answers_sign? (α := α) crossDotBudget (hnormal.dot (ha0.cross hx)) (by decide)
  have hend := answers_sign? (α := α) crossDotBudget (hnormal.dot (hx.cross ha1)) (by decide)
  have hcircle := answers_circleOrder (α := α) hx hnormal hr2
  have hends := answers_endpointOrder (α := α) hx ha0 ha1 hr2
  simp only [Vec3.value_dot, Vec3.value_cross] at hstart hend hcircle
  unfold distanceOrder distanceVerdict
  generalize Sign.of ((a0.value.cross a1.value).dot (a0.value.cross x.value)) = s at hstart ⊢
  generalize Sign.of ((a0.value.cross a1.value).dot (x.value.cross a1.value)) = t at hend ⊢
  refine hstart.attempt_bind (hend.attempt_bind ?_ fun _ => ?_)
    fun _ => hend.weaken.attempt_bind ?_ fun _ => ?_
  · cases s <;> cases t
    case positive.positive => exact hcircle
    all_goals exact hends
  · cases s
    case positive => exact .undecided _
    all_goals exact hends.weaken
  · cases t
    case positive => exact .undecided _
    all_goals
      rw [if_neg (by simp)]
      exact hends.weaken
  · exact .undecided _

end

variable {x a0 a1 b0 b1 : Point}

/-- The comparison with an edge, whose ends may be equal. -/
def edgeVerdict (x a0 a1 : Point) (r2 : Float) : Ordering :=
  if a0.same a1 then cosineRadiusVerdict x.value a0.value (Binary64.value r2)
  else distanceVerdict x.value a0.value a1.value (Binary64.value r2)

/-- The way out for equal ends changes nothing. -/
theorem edgeVerdict_eq (ha0 : a0.Finite) (ha1 : a1.Finite) :
    edgeVerdict x a0 a1 r2 = distanceVerdict x.value a0.value a1.value (Binary64.value r2) := by
  unfold edgeVerdict
  split_ifs with hsame
  · have hvalue := Point.value_eq_of_key_eq ((Point.same_iff ha0 ha1).1 hsame)
    rw [distanceVerdict, ← hvalue, Vec3.cross_self, Vec3.zero_dot, Sign.of_zero,
      if_neg (fun h => nomatch h.1), endpointVerdict]
    cases cosineRadiusVerdict x.value a0.value (Binary64.value r2) <;> rfl
  · rfl

theorem answers_distanceFormula [SoundScalar rounded α] (hx : x.Finite) (ha0 : a0.Finite)
    (ha1 : a1.Finite) (hr2 : r2.isFinite = true) :
    Answers rounded (distanceFormula α x a0 a1 r2) (.decided (edgeVerdict x a0 a1 r2)) := by
  unfold distanceFormula edgeVerdict
  split_ifs
  · exact (answers_cosineRadiusOrder hx.fits ha0.fits hr2).map _
  · exact (answers_distanceOrder hx.fits ha0.fits ha1.fits hr2).map _

theorem answers_directionFormula [SoundScalar rounded α] (ha0 : a0.Finite) (ha1 : a1.Finite)
    (hb0 : b0.Finite) (hb1 : b1.Finite) :
    Answers rounded (directionFormula α a0 a1 b0 b1)
      (.decided (Sign.of ((a0.value.cross a1.value).dot (b0.value.cross b1.value)))) :=
  (answers_sign? _ ((ha0.fits.cross ha1.fits).dot (hb0.fits.cross hb1.fits)) (by decide)).map _

end ExactSphere.Edge
