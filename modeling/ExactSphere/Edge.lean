import ExactSphere.Distance

/-!
Edges, the shorter arcs of great circles between two points: the distance from a point to an edge
against a radius, and the angle between the directions of two edges.
-/

namespace ExactSphere.Edge

/-- The budget of a scalar product of two vector products. -/
def crossDotBudget : Nat := 7

/-- The budget of the comparison with a great circle: a height has depth 5, the squared sine of a
radius 3, and the squared length of a normal 7. -/
def circleBudget : Nat := 16

variable {α : Type} [Scalar α]

/-- Compares the distance from `x` to the nearer end of an edge with a radius. Either end within
the radius settles it. -/
def endpointOrder (x a0 a1 : Vec3 α) (r2 : Float) : Certify Ordering := do
  let first ← (Distance.cosineRadiusOrder x a0 r2).attempt
  let second ← (Distance.cosineRadiusOrder x a1 r2).attempt
  match first, second with
  | some .lt, _ | _, some .lt => return .lt
  | some .eq, some _ | some _, some .eq => return .eq
  | some .gt, some .gt => return .gt
  | _, _ => Certify.undecided

/-- Compares the distance from `x` to the great circle with normal `n` with a radius. That
distance is at most 90 degrees. -/
def circleOrder (x n : Vec3 α) (r2 : Float) : Certify Ordering := do
  if 2 < r2 then return .lt
  else
    let r2 : α := Scalar.ofFloat r2
    let radiusSq := r2 * (Scalar.ofFloat 1 - Scalar.ofFloat 0.25 * r2)
    let height := x.dot n
    let squares := height * height - radiusSq * x.normSq * n.normSq
    return (← sign? squares circleBudget).toOrdering

/-- Compares the distance from `x` to an edge with a radius. The nearest point is inside the edge
exactly if `x` projects after its start and before its end. -/
def distanceOrder (x a0 a1 : Vec3 α) (r2 : Float) : Certify Ordering := do
  let n := a0.cross a1
  let afterStart ← (sign? (n.dot (a0.cross x)) crossDotBudget).attempt
  let beforeEnd ← (sign? (n.dot (x.cross a1)) crossDotBudget).attempt
  match afterStart, beforeEnd with
  | some .positive, some .positive => circleOrder x n r2
  | some .negative, _ | some .zero, _ | _, some .negative | _, some .zero =>
    endpointOrder x a0 a1 r2
  | _, _ => Certify.undecided

/-- The distance from a point to an edge against a radius; an edge with equal ends is a point. -/
def distanceFormula (α : Type) [Scalar α] (x a0 a1 : Point) (r2 : Float) :
    Certify (Finding Ordering) :=
  .decided <$>
    if a0.same a1 then Distance.cosineRadiusOrder (x.lift α) (a0.lift α) r2
    else distanceOrder (x.lift α) (a0.lift α) (a1.lift α) r2

/-- The comparison of an edge distance with a radius as a predicate. -/
def distancePredicate (x a0 a1 : Point) (r2 : Float) : Predicate Ordering where
  name := "compare_edge_distance"
  formula α := distanceFormula α x a0 a1 r2

/-- The sign of `(a0 × a1) · (b0 × b1)`. -/
def directionFormula (α : Type) [Scalar α] (a0 a1 b0 b1 : Point) : Certify (Finding Sign) :=
  .decided <$> sign?
    (((a0.lift α).cross (a1.lift α)).dot ((b0.lift α).cross (b1.lift α))) crossDotBudget

/-- The comparison of two edge directions as a predicate. -/
def directionPredicate (a0 a1 b0 b1 : Point) : Predicate Sign where
  name := "compare_edge_directions"
  formula α := directionFormula α a0 a1 b0 b1

/-- How the distance from `x` to an edge compares with a radius. The ends must not be antipodal. -/
def withinRadius (x a0 a1 : Point) (r2 : Float) : Except Fault Ordering :=
  if a0.same (-a1) then .error .antipodalEdge else (distancePredicate x a0 a1 r2).outcome

/-- Whether two edges point the same way (positive) or opposite ways (negative); zero when they are
perpendicular or one of them is degenerate. -/
def alignment (a0 a1 b0 b1 : Point) : Except Fault Sign :=
  (directionPredicate a0 a1 b0 b1).outcome

end ExactSphere.Edge
