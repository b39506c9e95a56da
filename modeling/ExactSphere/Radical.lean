import ExactSphere.Tracked

/-!
Signs of expressions with square roots, found without taking a root: once both sides of a
comparison have one sign, their squares are compared. Budgets for the intermediate values follow
from the depths of the inputs; they are 32-bit words.
-/

namespace ExactSphere

/-- The term `coefficient * √radicand`, or the depths of its parts. -/
structure RootTerm (α : Type) where
  radicand : α
  coefficient : α

/-- The difference `rational - coefficient * √radicand`, or the depths of its parts. -/
structure RootDifference (α : Type) where
  rational : α
  coefficient : α
  radicand : α

/-- The sum of two depths, if it fits a word. -/
def depthAdd (a b : Nat) : Except Fault Nat :=
  if a + b < depthLimit then .ok (a + b) else .error .depthSum

/-- The double of a depth, if it fits a word. -/
def depthDouble (a : Nat) : Except Fault Nat :=
  if 2 * a < depthLimit then .ok (2 * a) else .error .depthProduct

/-- The depth of `rational ^ 2 - coefficient ^ 2 * radicand`. -/
def RootDifference.squaredDepth (depths : RootDifference Nat) : Except Fault Nat := do
  let rationalSq ← depthAdd (← depthDouble depths.rational) 1
  let coefficientSq ← depthAdd (← depthDouble depths.coefficient) 1
  let rootSq ← depthAdd (← depthAdd coefficientSq depths.radicand) 1
  depthAdd (if rootSq < rationalSq then rationalSq else rootSq) 1

/-- The depth of the difference of two squared terms. -/
def RootTerm.pairDepth (depths : RootTerm Nat) : Except Fault Nat := do
  depthAdd (← depthAdd (← depthDouble depths.coefficient) depths.radicand) 3

/-- The depths of the difference of squares that settles a sum of three terms. -/
def RootTerm.differenceDepths (depths : RootTerm Nat) : Except Fault (RootDifference Nat) := do
  let rational ← depthAdd (← depthAdd (← depthDouble depths.coefficient) depths.radicand) 4
  let coefficient ← depthAdd (← depthDouble depths.coefficient) 2
  let radicand ← depthAdd (← depthDouble depths.radicand) 1
  return ⟨rational, coefficient, radicand⟩

variable {α : Type} [Scalar α]

/-- The sign of `coefficient * √radicand`, for a radicand that is not negative. -/
def RootTerm.sign (term : RootTerm α) (depths : RootTerm Nat) : Certify Sign := do
  if (← sign? term.radicand depths.radicand) = .zero then return .zero
  else sign? term.coefficient depths.coefficient

/-- The square of a term. -/
def RootTerm.square (term : RootTerm α) : α :=
  term.radicand * (term.coefficient * term.coefficient)

/-- The sign of `rational - coefficient * √radicand`, for a radicand that is not negative. -/
def RootDifference.sign (d : RootDifference α) (depths : RootDifference Nat) : Certify Sign := do
  let rationalSign ← sign? d.rational depths.rational
  let rootSign ← RootTerm.sign ⟨d.radicand, d.coefficient⟩ ⟨depths.radicand, depths.coefficient⟩
  if rootSign = .zero then return rationalSign
  else if rationalSign = .zero then return -rootSign
  else if rationalSign = -rootSign then return rationalSign
  else
    let squares := d.rational * d.rational - d.coefficient * d.coefficient * d.radicand
    let squaresSign ← sign? squares (← depths.squaredDepth)
    return rationalSign * squaresSign

/-- The sign of the sum of two terms of the given signs. -/
def RootTerm.pairSign (s t : RootTerm α) (sSign tSign : Sign) (depths : RootTerm Nat) :
    Certify Sign := do
  if sSign = .zero ∨ sSign = tSign then return tSign
  else if tSign = .zero then return sSign
  else
    let squaresSign ← sign? (s.square - t.square) (← depths.pairDepth)
    return sSign * squaresSign

/-- The sign of the sum of three terms whose radicands are not negative: the first term is
compared with the negated sum of the other two. -/
def RootTerm.sumSign (r s t : RootTerm α) (depths : RootTerm Nat) : Certify Sign := do
  let left ← r.sign depths
  let sSign ← s.sign depths
  let tSign ← t.sign depths
  let right := -(← s.pairSign t sSign tSign depths)
  if left ≠ right then return .ofOrdering (left.order right)
  else if left = .zero then return .zero
  else
    let difference : RootDifference α :=
      ⟨r.square - s.square - t.square,
        Scalar.ofFloat 2 * s.coefficient * t.coefficient,
        s.radicand * t.radicand⟩
    let differenceSign ← difference.sign (← depths.differenceDepths)
    return left * differenceSign

end ExactSphere
