import ExactSphere.Sign
import ExactSphere.Bits

/-!
Binary floating point numbers with unbounded mantissas. A finite value is
`± mantissa * 2 ^ exponent` with an odd mantissa; beside them stand the signed zeros, the
infinities and NaN. Sums, differences and products are exact as long as the result stays within
the exponent range and the precision limit (`BigFloat.ofParts`).
-/

namespace ExactSphere

/-- The size of a `BigFloat`, without its sign. -/
inductive Magnitude where
  | zero
  /-- The nonzero value `mantissa * 2 ^ exponent`. -/
  | finite (mantissa : Nat) (exponent : Int)
  | infinity
  | nan
  deriving DecidableEq, Inhabited

/-- A binary floating point number of unbounded precision. -/
structure BigFloat where
  /-- The sign bit, kept by zeros, infinities and NaN too. -/
  negative : Bool
  magnitude : Magnitude
  deriving DecidableEq, Inhabited

namespace BigFloat

/-- A finite value lies below `2 ^ maxExponent`; larger ones are infinite. -/
def maxExponent : Int := 200000000

/-- A finite value is at least `2 ^ (minExponent - 1)`; smaller ones are zero. -/
def minExponent : Int := -200000000

/-- The largest number of mantissa bits; wider results are NaN. -/
def maxPrecision : Nat := 67108864

/-- A zero of the given sign. -/
def zero (negative : Bool) : BigFloat := ⟨negative, .zero⟩

/-- An infinity of the given sign. -/
def infinity (negative : Bool) : BigFloat := ⟨negative, .infinity⟩

/-- The value that is not a number. -/
def nan : BigFloat := ⟨false, .nan⟩

/-- The value `± mantissa * 2 ^ exponent`: with an odd mantissa, a zero or an infinity of the
same sign outside the exponent range, and NaN beyond the precision limit. -/
def ofParts (negative : Bool) (mantissa : Nat) (exponent : Int) : BigFloat :=
  if mantissa = 0 then zero negative
  else if exponent + bitLength mantissa < minExponent then zero negative
  else if maxExponent < exponent + bitLength mantissa then infinity negative
  else
    let shift := trailingZeros mantissa
    let odd := mantissa >>> shift
    if maxPrecision < bitLength odd then nan
    else ⟨negative, .finite odd (exponent + shift)⟩

/-- The value `n * 2 ^ exponent`; zero is positive. -/
def ofScaled (n : Int) (exponent : Int) : BigFloat :=
  ofParts (n < 0) n.natAbs exponent

/-- The value of an integer. -/
def ofInt (n : Int) : BigFloat := ofScaled n 0

/-- Whether the value is a zero. -/
def isZero (x : BigFloat) : Bool := x.magnitude matches .zero

/-- Whether the value is an infinity. -/
def isInfinite (x : BigFloat) : Bool := x.magnitude matches .infinity

/-- Whether the value is not a number. -/
def isNaN (x : BigFloat) : Bool := x.magnitude matches .nan

/-- Whether the value is finite and not zero. -/
def isNormal (x : BigFloat) : Bool := x.magnitude matches .finite ..

/-- Whether the value is a zero or a nonzero finite number. -/
def isFinite (x : BigFloat) : Bool := x.isNormal || x.isZero

/-- The sign of the value; zeros and NaN have none. -/
def sign (x : BigFloat) : Sign :=
  match x.magnitude with
  | .zero | .nan => .zero
  | _ => if x.negative then .negative else .positive

/-- The number of mantissa bits; none for a special value. -/
def precision (x : BigFloat) : Nat :=
  match x.magnitude with
  | .finite mantissa _ => bitLength mantissa
  | _ => 0

/-- The exponent `e` of a nonzero finite value in `[2 ^ (e - 1), 2 ^ e)`. -/
def exponent? (x : BigFloat) : Option Int :=
  match x.magnitude with
  | .finite mantissa exponent => some (exponent + bitLength mantissa)
  | _ => none

/-- The value with its sign replaced. -/
def withSign (x : BigFloat) (negative : Bool) : BigFloat := ⟨negative, x.magnitude⟩

/-- The value with the opposite sign. -/
def neg (x : BigFloat) : BigFloat := x.withSign !x.negative

instance : Neg BigFloat := ⟨neg⟩

/-- The value with a positive sign. -/
def abs (x : BigFloat) : BigFloat := x.withSign false

@[simp] theorem withSign_magnitude (x : BigFloat) (negative : Bool) :
    (x.withSign negative).magnitude = x.magnitude := rfl

@[simp] theorem neg_negative (x : BigFloat) : (-x).negative = !x.negative := rfl

@[simp] theorem neg_magnitude (x : BigFloat) : (-x).magnitude = x.magnitude := rfl

@[simp] theorem neg_neg (x : BigFloat) : - -x = x := by
  obtain ⟨negative, magnitude⟩ := x
  simp only [Neg.neg, neg, withSign, Bool.not_not]

/-- The canonical values: those whose mantissa is odd and within the limits. -/
def Canonical (x : BigFloat) : Prop :=
  match x.magnitude with
  | .finite mantissa exponent =>
    mantissa % 2 = 1 ∧ minExponent ≤ exponent + bitLength mantissa ∧
      exponent + bitLength mantissa ≤ maxExponent ∧ bitLength mantissa ≤ maxPrecision
  | _ => True

end BigFloat
end ExactSphere
