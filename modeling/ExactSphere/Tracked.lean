import ExactSphere.DoubleWord
import ExactSphere.Scalar

/-!
Rounded numbers that track their own error. A tracked value consists of the computed value, a
bound on the magnitude of everything that went into it, and the depth `k` of its longest chain of
rounded operations. With the unit roundoff `u` of the arithmetic it stays within
`errorFactor k u * magnitude` of the exact value.

The magnitude is itself rounded. A sign is therefore tested against the factor of two more
operations than declared (`errorCoefficient`).
-/

namespace ExactSphere

/-- `n u / (1 - n u)`: the relative error of `n` chained operations of unit roundoff `u`. -/
def errorFactor (n : Nat) (u : Float) : Float :=
  let nu := Float.ofNat n * u
  nu / (1 - nu)

/-- The number of depths that a 32-bit word can hold. -/
def depthLimit : Nat := 4294967296

/-- The error factor of a budget, with two operations to spare. -/
def errorCoefficient (budget : Nat) (u : Float) : Except Fault Float :=
  if budget + 2 < depthLimit then .ok (errorFactor (budget + 2) u) else .error .depthSum

/-- Rounded arithmetic of a known unit roundoff. -/
class WorkingFloat (α : Type) extends Add α, Sub α, Mul α, Neg α where
  ofFloat : Float → α
  abs : α → α
  isZero : α → Bool
  less : α → α → Bool
  /-- The relative error of one operation. -/
  unitRoundoff : Float
  /-- Times the unit roundoff, at least the absolute error of a product that underflows. -/
  underflowMargin : α

instance : WorkingFloat Float where
  ofFloat x := x
  abs := Float.abs
  isZero x := x == 0
  less x y := x < y
  unitRoundoff := Binary64.unitRoundoff
  underflowMargin := Binary64.minNormal

/-- The unit roundoff is `2 ^ -100`, and the margin is `2 ^ -960`: a product whose high word lies
below `2 ^ -969` loses bits of its low word. -/
instance : WorkingFloat DoubleWord where
  ofFloat := DoubleWord.ofFloat
  abs := DoubleWord.abs
  isZero x := x.hi == 0 && x.lo == 0
  less := DoubleWord.less
  unitRoundoff := .ofBits 0x39B0000000000000
  underflowMargin := .ofFloat (.ofBits 0x03F0000000000000)

/-- A rounded value with the data of its error bound. -/
structure Tracked (α : Type) where
  value : α
  magnitude : α
  depth : Nat

namespace Tracked

variable [WorkingFloat α]

/-- An exact input. -/
def leaf (x : Float) : Tracked α :=
  let value := WorkingFloat.ofFloat x
  ⟨value, WorkingFloat.abs value, 0⟩

/-- Sums add the magnitudes, so that cancellation does not hide an error. -/
def add (x y : Tracked α) : Tracked α :=
  ⟨x.value + y.value, x.magnitude + y.magnitude, Nat.max x.depth y.depth + 1⟩

/-- Differences add the magnitudes, as sums do. -/
def sub (x y : Tracked α) : Tracked α :=
  ⟨x.value - y.value, x.magnitude + y.magnitude, Nat.max x.depth y.depth + 1⟩

/-- Products multiply the magnitudes and allow for underflow. A zero magnitude is that of an exact
zero, and so is the product's. -/
def mul (x y : Tracked α) : Tracked α where
  value := x.value * y.value
  magnitude :=
    if WorkingFloat.isZero x.magnitude || WorkingFloat.isZero y.magnitude then
      WorkingFloat.ofFloat 0
    else x.magnitude * y.magnitude + WorkingFloat.underflowMargin
  depth := x.depth + y.depth + 1

/-- Negation is exact. -/
def neg (x : Tracked α) : Tracked α := { x with value := -x.value }

/-- The absolute value is exact. -/
def abs (x : Tracked α) : Tracked α := { x with value := WorkingFloat.abs x.value }

/-- The sign of the exact value, if the value lies farther from zero than its error bound. The
budget must cover the depth. -/
def sign? (x : Tracked α) (budget : Nat) : Certify Sign := do
  if budget < x.depth then Certify.fault (.depthExceeded x.depth budget)
  else if WorkingFloat.isZero x.magnitude then return .zero
  else
    let coefficient ← (errorCoefficient budget (WorkingFloat.unitRoundoff α) : Except Fault Float)
    let error := WorkingFloat.ofFloat coefficient * x.magnitude
    if WorkingFloat.less error x.value then return .positive
    else if WorkingFloat.less x.value (-error) then return .negative
    else Certify.undecided

/-- The value, unless its depth has left the 32-bit range. -/
def checked (x : Tracked α) : Except Fault (Tracked α) :=
  if x.depth < depthLimit then .ok x else .error .depthSum

instance : Scalar (Tracked α) where
  add := add
  sub := sub
  mul := mul
  neg := neg
  ofFloat := leaf
  abs := abs
  sign? := sign?
  checked := checked

end Tracked
end ExactSphere
