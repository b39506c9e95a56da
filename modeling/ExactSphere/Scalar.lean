import ExactSphere.Certify
import ExactSphere.BigFloat.Order
import ExactSphere.BigFloat.Double

/-!
The numbers that a formula can be evaluated in. A formula is written once for any `Scalar`; what
differs is how much a scalar knows about its own sign.
-/

namespace ExactSphere

/-- Numbers with exact conversion from doubles and a sign test that answers only when certain. -/
class Scalar (α : Type) extends Add α, Sub α, Mul α, Neg α where
  /-- An input coordinate or a small constant, exactly. -/
  ofFloat : Float → α
  abs : α → α
  /-- The sign of the exact value that the scalar stands for, if the rounding errors of at most
  `budget` chained operations cannot hide it. -/
  sign? : α → (budget : Nat) → Certify Sign
  /-- The scalar, unless its bookkeeping has run out of room. -/
  checked : α → Except Fault α := .ok

export Scalar (sign?)

namespace BigFloat

/-- The sign of an exact value is always certain; NaN is a fault. -/
def sign? (x : BigFloat) : Certify Sign :=
  if x.isNaN then Certify.fault .notANumber else pure x.sign

instance : Scalar BigFloat where
  ofFloat := ofFloat
  abs := abs
  sign? x _ := x.sign?

end BigFloat
end ExactSphere
