import ExactSphere.Fault
import ExactSphere.BigFloat.Basic

/-!
Binary exponents: multiplication by a power of two, the split into a fraction and an exponent,
and the exponent itself as an integer or a value.
-/

namespace ExactSphere.BigFloat

/-- `x * 2 ^ n`; special values are unchanged. -/
def scale (x : BigFloat) (n : Int) : BigFloat :=
  match x.magnitude with
  | .finite mantissa exponent => ofParts x.negative mantissa (exponent + n)
  | _ => x

/-- A fraction in `[1/2, 1)` and the power of two that gives the value back; a special value is
its own fraction. -/
def split (x : BigFloat) : BigFloat × Int :=
  match x.exponent? with
  | some e => (x.scale (-e), e)
  | none => (x, 0)

/-- The exponent `e` of a nonzero finite value in `[2 ^ (e - 1), 2 ^ e)`. -/
def exponent (x : BigFloat) : Except Fault Int :=
  match x.exponent? with
  | some e => .ok e
  | none => .error .noExponent

/-- The exponent of the leading bit, with the ends of the 32-bit range for special values. -/
def leadingExponent (x : BigFloat) : Int :=
  match x.magnitude with
  | .zero | .nan => -2147483648
  | .infinity => 2147483647
  | .finite mantissa exponent => exponent + bitLength mantissa - 1

/-- The exponent of the leading bit as a value: zero gives negative infinity, both infinities give
positive infinity, and NaN itself. -/
def leadingExponentValue (x : BigFloat) : BigFloat :=
  match x.magnitude with
  | .zero => infinity true
  | .infinity => infinity false
  | .nan => x
  | .finite mantissa exponent => ofInt (exponent + bitLength mantissa - 1)

/-- The magnitude of `x` with the sign of `y`. -/
def copySign (x y : BigFloat) : BigFloat := x.withSign y.negative

end ExactSphere.BigFloat
