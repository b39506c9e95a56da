import ExactSphere.Distance
import ExactSphere.Radical

/-!
Exclusion of a site along an edge. Within a radius, each site covers an interval of the edge's
great circle, centred on its projection. A site whose interval lies inside that of another is
never the nearest one to a covered point of the edge.

Let `N` be the normal of the edge. With `cos r` and `sin r` of the radius, the interval of `a` lies
inside that of `b` exactly if `|D| ≤ cos r (√P - √Q)`, where `D = (a × b) · N`,
`P = |a|² (|N|² sin² r |b|² - (b · N)²)` and `Q = |b|² (|N|² sin² r |a|² - (a · N)²)`. Squaring
leaves the sign of `cos² r (P + Q) - D² - 2 cos² r √(P Q)`.
-/

namespace ExactSphere.Voronoi

/-- The budget of the cosine between two projections, `(a · b) |N|² - (a · N) (b · N)`. -/
def projectionBudget : Nat := 12

/-- The budget of the comparison of two interval lengths, `|b|² (a · N)² - |a|² (b · N)²`. -/
def lengthBudget : Nat := 16

/-- The budget of the sine between two projections, `(a × b) · N`. -/
def turnBudget : Nat := 7

/-- The depths of the final root difference. -/
def containmentDepths : RootDifference Nat := ⟨28, 6, 41⟩

/-- The root difference that says whether one interval contains the other. -/
def containmentGap {α : Type} [Scalar α] (a b n : Vec3 α) (r2 : Float) : RootDifference α :=
  let an := a.dot n
  let bn := b.dot n
  let aSq := a.normSq
  let bSq := b.normSq
  let nSq := n.normSq
  let d := (a.cross b).dot n
  let r2 : α := Scalar.ofFloat r2
  let sinSq := r2 * (Scalar.ofFloat 1 - Scalar.ofFloat 0.25 * r2)
  let cosine := Scalar.ofFloat 1 - Scalar.ofFloat 0.5 * r2
  let cosSq := cosine * cosine
  let p := aSq * (nSq * sinSq * bSq - bn * bn)
  let q := bSq * (nSq * sinSq * aSq - an * an)
  ⟨cosSq * (p + q) - d * d, Scalar.ofFloat 2 * cosSq, p * q⟩

/-- How the intervals of two sites lie to each other. Projections 90 degrees apart or more exclude
nothing. The site farther from the circle has the shorter interval; intervals of one length contain
each other only if they coincide. -/
def containment (α : Type) [Scalar α] (a b x0 x1 : Point) (r2 : Float) : Certify Containment := do
  let n := (x0.lift α).cross (x1.lift α)
  let (u, v) := (a.lift α, b.lift α)
  let un := u.dot n
  let vn := v.dot n
  let projectionSign ← sign? (u.dot v * n.normSq - un * vn) projectionBudget
  if projectionSign ≠ .positive then return .settled .neither
  else
    let lengthSign ← sign? (v.normSq * (un * un) - u.normSq * (vn * vn)) lengthBudget
    match lengthSign with
    | .zero =>
      if (← sign? ((u.cross v).dot n) turnBudget) ≠ .zero then return .settled .neither
      else if a.lexOrder b = .gt then return .touching .second
      else return .touching .first
    | .positive => conclude .first (← (containmentGap u v n r2).sign containmentDepths)
    | .negative => conclude .second (← (containmentGap u v n r2).sign containmentDepths)
where
  /-- The result for the site with the shorter interval, given the sign of the gap. -/
  conclude (candidate : Exclusion) : Sign → Certify Containment
    | .positive => pure (.settled candidate)
    | .negative => pure (.settled .neither)
    | .zero => pure (.touching candidate)

/-- The exclusion test in a scalar; touching intervals are degenerate. -/
def formula (α : Type) [Scalar α] (a b x0 x1 : Point) (r2 : Float) :
    Certify (Finding Exclusion) := do
  match ← containment α a b x0 x1 r2 with
  | .settled excluded => return .decided excluded
  | .touching _ => return .degenerate

/-- The exclusion for touching intervals. The smaller site in lexicographic order is farther after
perturbation, so its interval shrinks: a candidate is excluded exactly if it sorts first. -/
def displaced (a b x0 x1 : Point) (r2 : Float) : Except Fault Exclusion := do
  match ← (containment BigFloat a b x0 x1 r2).run with
  | some (.touching .first) => return if a.lexOrder b = .lt then .first else .neither
  | some (.touching .second) => return if b.lexOrder a = .lt then .second else .neither
  | some (.touching .neither) => return .neither
  | found => throw (.noTie found)

/-- The exclusion test as a predicate. -/
def predicate (a b x0 x1 : Point) (r2 : Float) : Predicate Exclusion where
  name := "voronoi_site_exclusion"
  formula α := formula α a b x0 x1 r2
  tieBreak := displaced a b x0 x1 r2

/-- Which of the sites `a` and `b` is never the nearest one to a point of the edge `x0 x1` within a
radius below 90 degrees. The site `a` must be the nearer one to `x0`. -/
def exclusion (a b x0 x1 : Point) (r2 : Float) : Except Fault Exclusion := do
  if ¬r2 < 2 then throw .radiusTooLarge
  else if (← Distance.nearerPerturbed x0 a b) ≠ .lt then throw .sitesOutOfOrder
  else if (← Distance.nearerPerturbed x1 a b) = .lt then return .second
  else (predicate a b x0 x1 r2).outcome

end ExactSphere.Voronoi
