import ExactSphere.Binary64
import ExactSphere.BigFloat.Rounding

/-!
Doubles as values, which is exact, and values as doubles, rounded once to nearest with ties to
even: the mantissa is rounded to one that a double can have, and then scaled by powers of two.
-/

namespace ExactSphere.BigFloat

/-- The value of a double. A subnormal double counts units of `2 ^ -1074`; a normal one has a
hidden leading bit. -/
def ofFloat (x : Float) : BigFloat :=
  let negative := Binary64.isNegative x
  let bits := Binary64.magnitudeBits x
  let fraction := bits &&& 0xFFFFFFFFFFFFF
  let biased := bits >>> 52
  if bits = Binary64.infinityBits then infinity negative
  else if Binary64.infinityBits < bits then ⟨negative, .nan⟩
  else if biased = 0 then ofParts negative fraction Binary64.minExponent
  else ofParts negative (fraction ||| 0x10000000000000) (biased - 1075)

/-- The value whose mantissa the conversion to a double scales: below the normal range a multiple of
the smallest double, otherwise of at most 53 bits. -/
def roundToDouble (x : BigFloat) : Except Fault BigFloat :=
  match x.exponent? with
  | some e =>
    if e ≤ Binary64.minExponent + Binary64.precision then
      x.roundToUnit Binary64.minExponent .tiesEven
    else x.roundToPrecision Binary64.precision .tiesEven
  | none => .ok x

/-- A value as a double, for a mantissa that needs no rounding. -/
def toFloatUnrounded (x : BigFloat) : Float :=
  let magnitude :=
    match x.magnitude with
    | .zero => 0
    | .finite mantissa exponent => Binary64.scale (.ofNat mantissa) exponent
    | .infinity => .ofBits (.ofNat Binary64.infinityBits)
    | .nan => Binary64.nan
  if x.negative then -magnitude else magnitude

/-- The double nearest to a value. Values beyond the range of doubles become infinities and zeros;
the rounding of a canonical value has no fault. -/
def toFloat (x : BigFloat) : Float :=
  match x.roundToDouble with
  | .ok rounded => rounded.toFloatUnrounded
  | .error _ => Binary64.nan

end ExactSphere.BigFloat
