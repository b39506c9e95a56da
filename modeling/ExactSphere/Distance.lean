import ExactSphere.Cascade
import ExactSphere.Vector

/-!
Angles between points, compared with one another and with a radius, without roots or
trigonometry. A radius is given by the square `r2` of its chord, so that its cosine is
`1 - r2 / 2`. `Ordering.lt` means nearer or within.
-/

namespace ExactSphere.Distance

/-- The budgets of a comparison of cosines. -/
structure CosineBudgets where
  /-- For `x · a` and `x · b`. -/
  cosine : Nat
  /-- For `(x · b) ^ 2 |a| ^ 2 - (x · a) ^ 2 |b| ^ 2`. -/
  squares : Nat

/-- The budget of a scalar product of input points: a product and two sums. -/
def dotBudget : Nat := 3

/-- The budgets of cosines between input points: a squared cosine has depth 7, times a squared
length 11. -/
def pointCosines : CosineBudgets := ⟨dotBudget, 12⟩

/-- The budget of a comparison of sines: a chord product has depth 3, its squared length 9. -/
def sineBudget : Nat := 14

/-- The budget of the cosine of a radius. -/
def radiusCosineBudget : Nat := 2

/-- The budget of the comparison of a cosine with that of a radius. -/
def cosineRadiusBudget : Nat := 14

/-- The budget of the comparison of a sine with that of a radius. -/
def sineRadiusBudget : Nat := 13

/-- Whether `y` is within 45 degrees of `x` or of its antipode. There the sine separates angles
better than the cosine. -/
def favoursSine (x y : Point) : Bool :=
  let cosine := x.dot y
  0.5 * x.normSq * y.normSq < cosine * cosine

/-- The sum of two doubles, if it is a double. -/
def exactSum? (a b : Float) : Option Float :=
  let (sum, error) := ErrorFree.twoSum a b
  if error == 0 then some sum else none

/-- The vector `2 (x × y)` as the product of `x - y` and `x + y`. The shorter factor must be exact
in doubles, so that the error scales with its length. -/
def sineVector? (α : Type) [Scalar α] (x y : Point) : Option (Vec3 α) := do
  let near : Bool := 0 ≤ x.dot y
  let other := if near then -y else y
  let short : Point :=
    ⟨← exactSum? x.x other.x, ← exactSum? x.y other.y, ← exactSum? x.z other.z⟩
  let long := if near then x.lift α + y.lift α else x.lift α - y.lift α
  return (short.lift α).cross long

variable {α : Type} [Scalar α]

/-- Compares the angles from `x` to `a` and to `b` by their cosines: first the signs, then the
squares. -/
def cosineOrder (x a b : Vec3 α) (budgets : CosineBudgets) : Certify Ordering := do
  let cosA := x.dot a
  let cosB := x.dot b
  let aSign ← sign? cosA budgets.cosine
  let bSign ← sign? cosB budgets.cosine
  if aSign ≠ bSign then return bSign.order aSign
  else if aSign = .zero then return .eq
  else
    let squares := cosB * cosB * a.normSq - cosA * cosA * b.normSq
    let squaresSign ← sign? squares budgets.squares
    return (aSign * squaresSign).toOrdering

/-- Compares the angles from `x` to `a` and to `b` by their sines, if both lie on one side of
90 degrees. Beyond 90 degrees the sine falls as the angle grows. -/
def sineOrder (α : Type) [Scalar α] (x a b : Point) : Certify Ordering := do
  let aSign ← sign? ((x.lift α).dot (a.lift α)) dotBudget
  if aSign = .zero then Certify.undecided
  else
    let bSign ← sign? ((x.lift α).dot (b.lift α)) dotBudget
    if bSign ≠ aSign then Certify.undecided
    else
      let crossA ← Certify.ofOption (sineVector? α x a)
      let crossB ← Certify.ofOption (sineVector? α x b)
      let squares := crossA.normSq * (b.lift α).normSq - crossB.normSq * (a.lift α).normSq
      let squaresSign ← sign? squares sineBudget
      return (aSign * squaresSign).toOrdering

/-- Compares the angle between `x` and `y` with a radius by their cosines. -/
def cosineRadiusOrder (x y : Vec3 α) (r2 : Float) : Certify Ordering := do
  let cosine := x.dot y
  let radiusCosine := Scalar.ofFloat 1 - Scalar.ofFloat 0.5 * Scalar.ofFloat r2
  let angleSign ← sign? cosine dotBudget
  let radiusSign ← sign? radiusCosine radiusCosineBudget
  if angleSign ≠ radiusSign then return radiusSign.order angleSign
  else
    let squares := radiusCosine * radiusCosine * x.normSq * y.normSq - cosine * cosine
    let squaresSign ← sign? squares cosineRadiusBudget
    return (angleSign * squaresSign).toOrdering

/-- Compares an angle below 90 degrees with a radius below 45 degrees by their sines. -/
def sineRadiusOrder (α : Type) [Scalar α] (x y : Point) (r2 : Float) : Certify Ordering := do
  let angleSign ← sign? ((x.lift α).dot (y.lift α)) dotBudget
  if angleSign ≠ .positive then Certify.undecided
  else
    let cross ← Certify.ofOption (sineVector? α x y)
    let r2 : α := Scalar.ofFloat r2
    let radiusSq := Scalar.ofFloat 4 * r2 * (Scalar.ofFloat 1 - Scalar.ofFloat 0.25 * r2)
    let squares := cross.normSq - radiusSq * ((x.lift α).normSq * (y.lift α).normSq)
    return (← sign? squares sineRadiusBudget).toOrdering

/-- The squared chord of 45 degrees. -/
def sineRadiusLimit : Float := 2 - Binary64.sqrtTwo

/-- Which of two sites is nearer to `x`: by cosines, or by sines near 0 and 180 degrees. With
`perturbed`, a tie between different sites is degenerate. -/
def siteFormula (α : Type) [Scalar α] (x a b : Point) (perturbed : Bool) :
    Certify (Finding Ordering) := do
  if a.same b then return .decided .eq
  else
    let order ← cosineOrder (x.lift α) (a.lift α) (b.lift α) pointCosines <|>
      (if favoursSine x a then sineOrder α x a b else Certify.undecided)
    if order = .eq ∧ perturbed then return .degenerate else return .decided order

/-- The comparison of two sites as a predicate. Each site stands on an infinitesimal pedestal,
higher for sites that sort first; of two sites at one distance the smaller is farther. -/
def sitePredicate (x a b : Point) (perturbed : Bool) : Predicate Ordering where
  name := "compare_distances"
  formula α := siteFormula α x a b perturbed
  tieBreak := .ok (b.lexOrder a)

/-- An angle against a radius: by cosines, or by sines for small radii. -/
def radiusFormula (α : Type) [Scalar α] (x y : Point) (r2 : Float) : Certify (Finding Ordering) :=
  .decided <$> (cosineRadiusOrder (x.lift α) (y.lift α) r2 <|>
    (if r2 < sineRadiusLimit then sineRadiusOrder α x y r2 else Certify.undecided))

/-- The comparison of an angle with a radius as a predicate. -/
def radiusPredicate (x y : Point) (r2 : Float) : Predicate Ordering where
  name := "compare_distance"
  formula α := radiusFormula α x y r2

/-- The sign of a scalar product as a predicate. It goes from doubles straight to exact numbers. -/
def hemispherePredicate (a b : Point) : Predicate Sign where
  name := "sign_dot_prod"
  extended := false
  formula α := .decided <$> sign? ((a.lift α).dot (b.lift α)) dotBudget

/-- Which of two sites is nearer to `x`. -/
def nearer (x a b : Point) : Except Fault Ordering := (sitePredicate x a b false).outcome

/-- Which of two sites is nearer to `x`, ties broken: equal only for equal sites. -/
def nearerPerturbed (x a b : Point) : Except Fault Ordering := (sitePredicate x a b true).outcome

/-- How the angle between `x` and `y` compares with a radius. -/
def withinRadius (x y : Point) (r2 : Float) : Except Fault Ordering :=
  (radiusPredicate x y r2).outcome

/-- The side of `b` on which `a` lies: zero when they are perpendicular. -/
def hemisphere (a b : Point) : Except Fault Sign := (hemispherePredicate a b).outcome

end ExactSphere.Distance
