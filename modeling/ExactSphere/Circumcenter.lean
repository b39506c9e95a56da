import ExactSphere.Orientation
import ExactSphere.Radical

/-!
The side of an edge's great circle on which the circumcenter of three sites lies. Of the two
antipodal circumcenters, the one meant is that which the sites wind around counterclockwise, so
their order does not matter.
-/

namespace ExactSphere.Circumcenter

/-- The budget of a component of the edge's normal. -/
def normalBudget : Nat := 2

/-- The depths of the three terms: a squared length, and a scalar product of vector products. -/
def termDepths : RootTerm Nat := ⟨3, 7⟩

/-- The sign of `(x0 × x1) · (|c| (a × b) + |a| (b × c) + |b| (c × a))`, times the orientation of
the sites. It is zero for good if `x0` and `x1` are linearly dependent. -/
def formula (α : Type) [Scalar α] (x0 x1 a b c : Point) (orientation : Sign) :
    Certify (Finding Sign) := do
  let normal := (x0.lift α).cross (x1.lift α)
  let (a, b, c) := (a.lift α, b.lift α, c.lift α)
  let xSign ← (sign? normal.x normalBudget).attempt
  let ySign ← (sign? normal.y normalBudget).attempt
  let zSign ← (sign? normal.z normalBudget).attempt
  if xSign = some .zero ∧ ySign = some .zero ∧ zSign = some .zero then return .decided .zero
  else
    let side ← RootTerm.sumSign
      ⟨c.normSq, normal.dot (a.cross b)⟩
      ⟨a.normSq, normal.dot (b.cross c)⟩
      ⟨b.normSq, normal.dot (c.cross a)⟩ termDepths
    return .nonzero (side * orientation)

/-- The first of three points in the list whose orientation with the edge is not zero. -/
def firstSide? (x0 x1 : Point) : List Point → Except Fault (Option Sign)
  | [] => .ok none
  | site :: rest => do
    let s ← Orientation.of x0 x1 site
    if s.isZero then firstSide? x0 x1 rest else return some s

/-- The side of a circumcenter on the circle itself. Each site stands on an infinitesimal pedestal,
higher for sites that sort first. Raising the site `i` moves the circumcenter along the product of
the other two, signed by the determinant of the sorted sites, so the first such product off the
circle decides. Sites on one great circle have no such determinant; then the first sorted site off
the edge's circle decides, or at last its perturbed orientation. -/
def displaced (x0 x1 a b c : Point) : Except Fault Sign := do
  let ((p0, p1, p2), _) := Point.sort3 a b c
  let (s0, s1, s2) := (p0.lift BigFloat, p1.lift BigFloat, p2.lift BigFloat)
  let normal := (x0.lift BigFloat).cross (x1.lift BigFloat)
  let determinant := (s0.dot (s1.cross s2)).sign
  let moved :=
    if determinant.isZero then none
    else (Sign.firstNonzero? [(normal.dot (s1.cross s2)).sign, (normal.dot (s2.cross s0)).sign,
      (normal.dot (s0.cross s1)).sign]).map (· * determinant)
  let siteSide := Sign.firstNonzero? [(normal.dot s0).sign, (normal.dot s1).sign,
    (normal.dot s2).sign]
  match moved <|> siteSide with
  | some side => return side
  | none =>
    match ← firstSide? x0 x1 [p0, p1, p2] with
    | some side => return side
    | none => throw .unbrokenTie

/-- The side of a circumcenter as a predicate, given the orientation of the sites. -/
def predicate (x0 x1 a b c : Point) (orientation : Sign) : Predicate Sign where
  name := "edge_circumcenter_sign"
  formula α := formula α x0 x1 a b c orientation
  tieBreak := displaced x0 x1 a b c

/-- The side of the great circle through `x0` and `x1` on which the circumcenter of three sites
lies; zero for linearly dependent `x0` and `x1` or repeated sites. -/
def side (x0 x1 a b c : Point) : Except Fault Sign := do
  if x0.same x1 || a.same b || b.same c || c.same a then return .zero
  else (predicate x0 x1 a b c (← Orientation.of a b c)).outcome

end ExactSphere.Circumcenter
