import ExactSphere.Fault
import ExactSphere.Rounding
import ExactSphere.BigFloat.Basic

/-!
Rounding a value to a multiple of a power of two, to a number of mantissa bits, and to an integer
of a bounded range.
-/

namespace ExactSphere.BigFloat

/-- `x` rounded to a multiple of `2 ^ unit`. Special values are unchanged, and a value that rounds
to zero keeps its sign. -/
def roundTo (x : BigFloat) (unit : Int) (mode : RoundingMode) : BigFloat :=
  match x.magnitude with
  | .finite mantissa exponent =>
    if unit ≤ exponent then x
    else ofParts x.negative
      (mode.shiftRight x.negative mantissa (unit - exponent).toNat) unit
  | _ => x

/-- `x` rounded to a multiple of `2 ^ unit`, for a unit that values can have. -/
def roundToUnit (x : BigFloat) (unit : Int) (mode : RoundingMode) : Except Fault BigFloat :=
  if unit < minExponent - maxPrecision then .error .unitTooSmall
  else if maxExponent < unit then .error .unitTooLarge
  else .ok (x.roundTo unit mode)

/-- `x` rounded to at most `bits` mantissa bits. A carry into a new leading bit leaves a zero
behind, so that the result fits. -/
def roundToPrecision (x : BigFloat) (bits : Int) (mode : RoundingMode) : Except Fault BigFloat :=
  if bits < 2 then .error .precisionTooSmall
  else if maxPrecision < bits then .error .precisionTooLarge
  else
    match x.magnitude with
    | .finite mantissa exponent =>
      if bitLength mantissa ≤ bits then .ok x
      else x.roundToUnit (exponent + (bitLength mantissa - bits)) mode
    | _ => .ok x

/-- `x` rounded to an integer. -/
def roundToInteger (x : BigFloat) (mode : RoundingMode) : BigFloat := x.roundTo 0 mode

/-- The smallest integer that is not below `x`. -/
def ceil (x : BigFloat) : BigFloat := x.roundToInteger .towardPositive

/-- The largest integer that is not above `x`. -/
def floor (x : BigFloat) : BigFloat := x.roundToInteger .towardNegative

/-- `x` rounded to an integer and clamped to `[lo, hi]`; NaN gives `hi`. -/
def toIntClamped (x : BigFloat) (mode : RoundingMode) (lo hi : Int) : Int :=
  let rounded := x.roundToInteger mode
  match rounded.magnitude with
  | .nan => hi
  | .zero => max lo (min hi 0)
  | .infinity => if x.negative then lo else hi
  | .finite mantissa exponent =>
    if max (bitLength lo.natAbs) (bitLength hi.natAbs) < exponent + bitLength mantissa then
      if x.negative then lo else hi
    else max lo (min hi (signedInt x.negative (mantissa <<< exponent.toNat)))

/-- `x` rounded to an integer and clamped to 64 bits. -/
def toInt64 (x : BigFloat) (mode : RoundingMode) : Int64 :=
  .ofInt (x.toIntClamped mode (-9223372036854775808) 9223372036854775807)

/-- `x` rounded to an integer and clamped to 32 bits. -/
def toInt32 (x : BigFloat) (mode : RoundingMode) : Int32 :=
  .ofInt (x.toIntClamped mode (-2147483648) 2147483647)

end ExactSphere.BigFloat
