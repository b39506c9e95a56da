import ExactSphere.Cascade
import ExactSphere.Vector

/-!
The orientation of three points: the sign of `(a × b) · c`, which is positive when they turn
counterclockwise seen from outside the sphere. Distinct points on one great circle get a sign
too, that of the determinant after an infinitesimal displacement of the points.
-/

namespace ExactSphere.Orientation

/-- The budget of the determinant: a difference of products has depth 2, and its scalar product with
a point has depth 5. -/
def determinantBudget : Nat := 5

/-- The budget of the determinant from edges, whose coordinates have depth 1. -/
def edgeDeterminantBudget : Nat := 7

variable (α : Type) [Scalar α]

/-- The determinant of the coordinates. -/
def determinant (a b c : Point) : α := ((a.lift α).cross (b.lift α)).dot (c.lift α)

/-- The same determinant from the two shortest edges, which is far more accurate for points that
are close together. Lengths are compared in doubles; any choice gives the same exact value. -/
def edgeDeterminant (a b c : Point) : α :=
  let abSq := (b - a).normSq
  let bcSq := (c - b).normSq
  let caSq := (a - c).normSq
  let ab := b.lift α - a.lift α
  let bc := c.lift α - b.lift α
  let ca := a.lift α - c.lift α
  if bcSq ≤ abSq ∧ caSq ≤ abSq then -(ca.cross bc).dot (c.lift α)
  else if caSq ≤ bcSq then -(ab.cross ca).dot (a.lift α)
  else -(bc.cross ab).dot (b.lift α)

/-- Whether two of the points are equal. -/
def repeated (a b c : Point) : Bool := a.same b || b.same c || c.same a

/-- The sign of the determinant in its direct form, or else from the edges. -/
def formula (a b c : Point) : Certify (Finding Sign) :=
  if repeated a b c then pure (.decided .zero)
  else
    .nonzero <$> (sign? (determinant α a b c) determinantBudget <|>
      sign? (edgeDeterminant α a b c) edgeDeterminantBudget)

/-- The sign of a vanishing determinant of sorted points after each is displaced by
infinitesimals, those of earlier points larger. The determinant is then a polynomial in the
infinitesimals; its coefficients are listed by falling size of what they multiply. -/
def displacedSign (a b c : Vec3 BigFloat) : Sign :=
  let bc := b.cross c
  let coefficients := [
    bc.z.sign, bc.y.sign, bc.x.sign,
    (c.x * a.y - c.y * a.x).sign, c.x.sign, -c.y.sign,
    (c.z * a.x - c.x * a.z).sign, c.z.sign,
    (a.x * b.y - a.y * b.x).sign, -b.x.sign, b.y.sign, a.x.sign]
  (Sign.firstNonzero? coefficients).getD .positive

/-- The orientation of points on one great circle: the points are sorted, and an odd permutation
negates the sign. -/
def displaced (a b c : Point) : Sign :=
  let ((a, b, c), odd) := Point.sort3 a b c
  let s := displacedSign (a.lift BigFloat) (b.lift BigFloat) (c.lift BigFloat)
  if odd then -s else s

/-- The orientation as a predicate. -/
def predicate (a b c : Point) : Predicate Sign where
  name := "sign"
  formula α := formula α a b c
  tieBreak := .ok (displaced a b c)

/-- The orientation of three points; zero only if two of them are equal. -/
def of (a b c : Point) : Except Fault Sign := (predicate a b c).outcome

/-- Whether `a`, `b` and `c` come in this order on a counterclockwise sweep around `o`: at least
two of the three turns between them are counterclockwise, where the turns from `a` to `b` and from
`b` to `c` may also be empty. -/
def sweepsInOrder (a b c o : Point) : Except Fault Bool := do
  let ab := (← of b o a) != .negative
  let bc := (← of c o b) != .negative
  let ca := (← of a o c) == .positive
  return (ab && bc) || (bc && ca) || (ab && ca)

end ExactSphere.Orientation
