import ExactSphere.Voronoi
import ExactSphere.Proofs.Verdict.Radical

/-!
# The exact containment of intervals

The tests that lead to a containment, and the root difference at their end, are within the budgets
they declare. Every sound scalar therefore follows the path of the exact coordinates.
-/

namespace ExactSphere

open Certify (Answers)

namespace Voronoi

/-- What is left of the containment test once the site with the shorter interval is known. -/
def conclusion (candidate : Exclusion) : Sign → Containment
  | .positive => .settled candidate
  | .negative => .settled .neither
  | .zero => .touching candidate

/-- The root difference of the exact coordinates. -/
def exactGap (a b n : Vec3 ℚ) (r2 : ℚ) : RootDifference ℚ :=
  let sinSq := r2 * (1 - 1 / 4 * r2)
  let cosSq := (1 - 1 / 2 * r2) * (1 - 1 / 2 * r2)
  let p := a.normSq * (n.normSq * sinSq * b.normSq - b.dot n * b.dot n)
  let q := b.normSq * (n.normSq * sinSq * a.normSq - a.dot n * a.dot n)
  ⟨cosSq * (p + q) - (a.cross b).dot n * (a.cross b).dot n, 2 * cosSq, p * q⟩

/-- How the intervals of two sites on the circle of normal `n` lie to each other. The order of the
sites counts only for equal intervals. -/
def intervalVerdict (u v n : Vec3 ℚ) (r2 : ℚ) (order : Ordering) : Containment :=
  if Sign.of (u.dot v * n.normSq - u.dot n * v.dot n) ≠ .positive then .settled .neither
  else
    match Sign.of (v.normSq * (u.dot n * u.dot n) - u.normSq * (v.dot n * v.dot n)) with
    | .zero =>
      if Sign.of ((u.cross v).dot n) ≠ .zero then .settled .neither
      else if order = .gt then .touching .second
      else .touching .first
    | .positive => conclusion .first (exactGap u v n r2).verdict
    | .negative => conclusion .second (exactGap u v n r2).verdict

/-- How the intervals of two sites on the circle of an edge lie to each other. -/
def containmentVerdict (a b x0 x1 : Point) (r2 : Float) : Containment :=
  intervalVerdict a.value b.value (x0.value.cross x1.value) (Binary64.value r2) (a.lexOrder b)

/-- The exclusion test; touching intervals are degenerate. -/
def verdict (a b x0 x1 : Point) (r2 : Float) : Finding Exclusion :=
  match containmentVerdict a b x0 x1 r2 with
  | .settled excluded => .decided excluded
  | .touching _ => .degenerate

variable {α : Type} [Scalar α] {rounded : Bool} {a b x0 x1 : Point} {r2 : Float}

theorem answers_containmentGap [SoundScalar rounded α] {u v n : Vec3 Expression} (hu : u.Fits 0)
    (hv : v.Fits 0) (hn : n.Fits 2) (hr2 : r2.isFinite = true) :
    Answers rounded
      ((containmentGap (u.eval α) (v.eval α) (n.eval α) r2).sign containmentDepths)
      (exactGap u.value v.value n.value (Binary64.value r2)).verdict := by
  have hradius : (Scalar.ofFloat r2 : Expression).Fits 0 := .leaf hr2
  have hsinSq := hradius.mul (Expression.Fits.one.sub (Expression.Fits.quarter.mul hradius))
  have hcosine := Expression.Fits.one.sub (Expression.Fits.half.mul hradius)
  have hcosSq := hcosine.mul hcosine
  have hd := (hu.cross hv).dot hn
  have hscaled := hn.normSq.mul hsinSq
  have hun := hu.dot hn
  have hvn := hv.dot hn
  have hp := hu.normSq.mul ((hscaled.mul hv.normSq).sub (hvn.mul hvn))
  have hq := hv.normSq.mul ((hscaled.mul hu.normSq).sub (hun.mul hun))
  have hanswer := RootDifference.answers_sign (α := α) containmentDepths
    ((hcosSq.mul (hp.add hq)).sub (hd.mul hd)) (Expression.Fits.two.mul hcosSq) (hp.mul hq)
    (by decide)
  simp only [Expression.value_sub, Expression.value_add, Expression.value_mul,
    Expression.value_ofFloat, Vec3.value_dot, Vec3.value_normSq, Vec3.value_cross,
    Binary64.value_one, Binary64.value_two, Binary64.value_half, Binary64.value_quarter] at hanswer
  exact hanswer

theorem answers_conclude (candidate : Exclusion) (s : Sign) :
    Answers rounded (containment.conclude candidate s) (conclusion candidate s) := by
  cases s <;> exact .pure _

theorem answers_containment [SoundScalar rounded α] (ha : a.Finite) (hb : b.Finite)
    (hx0 : x0.Finite) (hx1 : x1.Finite) (hr2 : r2.isFinite = true) :
    Answers rounded (containment α a b x0 x1 r2) (containmentVerdict a b x0 x1 r2) := by
  have hn := hx0.fits.cross hx1.fits
  have hun := ha.fits.dot hn
  have hvn := hb.fits.dot hn
  have hprojection := answers_sign? (α := α) projectionBudget
    (((ha.fits.dot hb.fits).mul hn.normSq).sub (hun.mul hvn)) (by decide)
  have hlength := answers_sign? (α := α) lengthBudget
    ((hb.fits.normSq.mul (hun.mul hun)).sub (ha.fits.normSq.mul (hvn.mul hvn))) (by decide)
  have hturn := answers_sign? (α := α) turnBudget ((ha.fits.cross hb.fits).dot hn) (by decide)
  have hgap := answers_containmentGap (α := α) ha.fits hb.fits hn hr2
  simp only [Expression.value_sub, Expression.value_mul, Vec3.value_dot, Vec3.value_normSq,
    Vec3.value_cross, Point.value_lift] at hprojection hlength hturn hgap
  unfold containment containmentVerdict intervalVerdict
  generalize Sign.of (a.value.dot b.value * _ - _) = projection at hprojection ⊢
  generalize Sign.of (b.value.normSq * _ - _) = length at hlength ⊢
  generalize Sign.of ((a.value.cross b.value).dot _) = turn at hturn ⊢
  refine hprojection.bind ?_
  by_cases hside : projection ≠ .positive
  · rw [if_pos hside, if_pos hside]
    exact .pure _
  · rw [if_neg hside, if_neg hside]
    refine hlength.bind ?_
    cases length with
    | negative => exact hgap.bind (answers_conclude _ _)
    | positive => exact hgap.bind (answers_conclude _ _)
    | zero =>
      refine hturn.bind ?_
      dsimp only
      split_ifs <;> exact .pure _

/-- In every sound scalar, the formula finds the exclusion of the exact coordinates. -/
theorem answers_formula [SoundScalar rounded α] (ha : a.Finite) (hb : b.Finite)
    (hx0 : x0.Finite) (hx1 : x1.Finite) (hr2 : r2.isFinite = true) :
    Answers rounded (formula α a b x0 x1 r2) (verdict a b x0 x1 r2) := by
  unfold formula verdict
  refine (answers_containment ha hb hx0 hx1 hr2).bind ?_
  cases containmentVerdict a b x0 x1 r2 <;> exact .pure _

end Voronoi
end ExactSphere
