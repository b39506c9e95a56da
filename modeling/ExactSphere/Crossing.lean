import ExactSphere.Distance

/-!
Crossings of edges with a great circle. The crossing point of the edge `ab` with the circle of
normal `n` is known up to a positive factor, which suffices to ask for its side of another circle
and for its distance from a point.
-/

namespace ExactSphere.Crossing

/-- The crossing point of `ab` with the circle of normal `n`, up to a positive factor. -/
def point {α : Type} [Scalar α] (a b n : Vec3 α) : Vec3 α :=
  a.scale (Scalar.abs (b.dot n)) + b.scale (Scalar.abs (a.dot n))

/-- The budget of a scalar product with a crossing point, which has depth 5. -/
def sideBudget : Nat := 8

/-- The sign of the scalar product of `x` with the crossing point. -/
def sideFormula (α : Type) [Scalar α] (a b n x : Point) : Certify (Finding Sign) :=
  let (a, b, n, x) := (a.lift α, b.lift α, n.lift α, x.lift α)
  .decided <$> sign?
    (Scalar.abs (b.dot n) * a.dot x + Scalar.abs (a.dot n) * b.dot x) sideBudget

/-- The side of a crossing point as a predicate. -/
def sidePredicate (a b n x : Point) : Predicate Sign where
  name := "circle_edge_intersection_sign"
  formula α := sideFormula α a b n x

/-- The budgets of cosines of crossing points. -/
def cosines : Distance.CosineBudgets := ⟨sideBudget, 32⟩

/-- Whether `ab` and `cd` are one edge, in either direction. -/
def sameEdge (a b c d : Point) : Bool :=
  (a.same c && b.same d) || (a.same d && b.same c)

/-- Which of two crossing points is nearer to `m`. -/
def orderFormula (α : Type) [Scalar α] (a b c d m n : Point) : Certify (Finding Ordering) :=
  if sameEdge a b c d then pure (.decided .eq)
  else
    .decided <$> Distance.cosineOrder (m.lift α)
      (point (a.lift α) (b.lift α) (n.lift α)) (point (c.lift α) (d.lift α) (n.lift α)) cosines

/-- The comparison of two crossing points as a predicate. -/
def orderPredicate (a b c d m n : Point) : Predicate Ordering where
  name := "intersection_ordering"
  formula α := orderFormula α a b c d m n

/-- The side of the circle with normal `x` on which `ab` crosses the circle with normal `n`. -/
def side (a b n x : Point) : Except Fault Sign := (sidePredicate a b n x).outcome

/-- Which of the edges `ab` and `cd` crosses the circle with normal `n` nearer to `m`. -/
def nearer (a b c d m n : Point) : Except Fault Ordering := (orderPredicate a b c d m n).outcome

end ExactSphere.Crossing
