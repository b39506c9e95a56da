/-!
Facts about binary64 doubles that the library reads off their bits: the parts of a finite double,
the comparison with its unordered case, and the constants of the error analysis.
-/

namespace ExactSphere.Binary64

/-- The number of significant bits of a double. -/
def precision : Nat := 53

/-- The exponent of the last bit of the smallest positive double. -/
def minExponent : Int := -1074

/-- The bits of positive infinity, above those of all finite magnitudes. -/
def infinityBits : Nat := 0x7FF0000000000000

/-- The sign bit. -/
def signBit : Nat := 0x8000000000000000

/-- Half the distance from one to the next double: the error of one rounding, `2^-53`. -/
def unitRoundoff : Float := .ofBits 0x3CA0000000000000

/-- The smallest positive double with full precision, `2^-1022`. -/
def minNormal : Float := .ofBits 0x0010000000000000

/-- The double nearest to the square root of two. -/
def sqrtTwo : Float := .ofBits 0x3FF6A09E667F3BCD

/-- The double nearest to the decimal logarithm of two. -/
def log10Two : Float := .ofBits 0x3FD34413509F79FF

/-- The double that is not a number. -/
def nan : Float := .ofBits 0x7FF8000000000000

/-- The power of two with the exponent of a normal double. -/
def powerOfTwo (exponent : Int) : Float := .ofBits (.ofNat ((1023 + exponent).toNat <<< 52))

/-- `x * 2 ^ n`, by at most three products. The steps downwards keep the exponent of the last
product below -53, so that a subnormal result is rounded by that one only. -/
def scale (x : Float) (n : Int) : Float :=
  if 1023 < n then
    let y := x * powerOfTwo 1023
    if n - 1023 ≤ 1023 then y * powerOfTwo (n - 1023)
    else y * powerOfTwo 1023 * powerOfTwo (min (n - 2046) 1023)
  else if n < -1022 then
    let step := powerOfTwo (-1022) * powerOfTwo 53
    let y := x * step
    if -1022 ≤ n + 969 then y * powerOfTwo (n + 969)
    else y * step * powerOfTwo (max (n + 1938) (-1022))
  else x * powerOfTwo n

/-- Compares two doubles; a NaN is ordered with nothing, and the two zeros are equal. -/
def compare? (a b : Float) : Option Ordering :=
  if a < b then some .lt
  else if b < a then some .gt
  else if a == b then some .eq
  else none

/-- The sign bit of a double, also of zeros and of NaN. -/
def isNegative (x : Float) : Bool :=
  signBit ≤ x.toBits.toNat

/-- The bits of a double below its sign. -/
def magnitudeBits (x : Float) : Nat :=
  x.toBits.toNat % signBit

end ExactSphere.Binary64
