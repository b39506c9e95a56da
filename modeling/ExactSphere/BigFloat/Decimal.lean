import ExactSphere.Fault
import ExactSphere.Rounding
import ExactSphere.BigFloat.Double
import ExactSphere.BigFloat.Rounding

/-!
Decimal texts of values. A finite value is an exact decimal; it is rounded, half to even, to the
number of digits asked for, and laid out positionally or with an exponent.
-/

namespace ExactSphere

/-- The number `coefficient * 10 ^ exponent`. -/
structure Decimal where
  coefficient : Nat
  exponent : Int
  deriving DecidableEq

namespace Decimal

/-- The exact decimal of `mantissa * 2 ^ exponent`; a negative power of two is a power of five
over a power of ten. -/
def ofBinary (mantissa : Nat) (exponent : Int) : Decimal :=
  if 0 ≤ exponent then ⟨mantissa <<< exponent.toNat, 0⟩
  else ⟨mantissa * Nat.pow 5 exponent.natAbs, exponent⟩

/-- Counts up from `digits` to the number of digits of `n`. -/
def digitCountFrom (n : Nat) : (fuel digits : Nat) → Nat
  | 0, digits => digits
  | fuel + 1, digits =>
    if Nat.pow 10 digits ≤ n then digitCountFrom n fuel (digits + 1) else digits

/-- The number of decimal digits of `n`, counted up from the binary logarithm times `0.301029995`,
which is just below the decimal one. -/
def digitCount (n : Nat) : Nat :=
  digitCountFrom n (n.log2 + 1) (n.log2 * 301029995 / 1000000000)

/-- Rounded, half to even, to at most `digits` significant digits. -/
def round (d : Decimal) (digits : Nat) : Decimal :=
  let excess := digitCount d.coefficient - digits
  if excess = 0 then d
  else ⟨RoundingMode.tiesEven.divide false d.coefficient (Nat.pow 10 excess), d.exponent + excess⟩

/-- The digits without trailing zeros, and the exponent `p` that places the value at
`0.digits * 10 ^ p`. -/
def significand (d : Decimal) : List Char × Int :=
  let digits := Nat.toDigits 10 d.coefficient
  ((digits.reverse.dropWhile (· == '0')).reverse, d.exponent + digits.length)

/-- The exponent field: a sign and at least two digits. -/
def exponentText (e : Int) : List Char :=
  let digits := Nat.toDigits 10 e.natAbs
  (if e < 0 then '-' else '+') :: (List.replicate (2 - digits.length) '0' ++ digits)

/-- The digits laid out for the value `0.digits * 10 ^ point`: with an exponent below `10 ^ -4`
and above `limit` places, else positionally. -/
def layOut (digits : List Char) (point limit : Int) : List Char :=
  if point ≤ -4 ∨ limit < point then
    let rest := digits.drop 1
    digits.take 1 ++ (if rest.isEmpty then [] else '.' :: rest) ++
      'e' :: exponentText (point - 1)
  else if 0 < point then
    let (whole, rest) := digits.splitAt point.toNat
    whole ++ List.replicate (point.toNat - digits.length) '0' ++
      (if rest.isEmpty then [] else '.' :: rest)
  else '0' :: '.' :: (List.replicate (-point).toNat '0' ++ digits)

end Decimal

namespace BigFloat

/-- The name of a special value, or the exact decimal of a finite one. -/
def decimalText (x : BigFloat) (digits : UInt64) : List Char :=
  let body :=
    match x.magnitude with
    | .zero => ['0']
    | .infinity => ['i', 'n', 'f']
    | .nan => ['n', 'a', 'n']
    | .finite mantissa exponent =>
      let (kept, point) := ((Decimal.ofBinary mantissa exponent).round digits.toNat).significand
      Decimal.layOut kept point digits.toInt64.toInt
  if x.negative && !x.isNaN then '-' :: body else body

/-- The text of a value with at most `digits` significant digits. -/
def toDecimal (x : BigFloat) (digits : UInt64) : Except Fault String :=
  if digits = 0 then .error .noDigits else .ok (String.ofList (x.decimalText digits))

/-- The number of decimal digits that tell all values of `bits` mantissa bits apart. -/
def significantDigits (bits : Int32) : Int :=
  let digits := ofFloat ((ofInt bits.toInt).toFloat * Binary64.log10Two)
  1 + digits.toIntClamped .towardPositive 0 18446744073709551615

/-- Enough digits for the precision of the value, and never fewer than ten. -/
def displayDigits (x : BigFloat) : UInt64 :=
  .ofNat (max 10 (significantDigits (.ofNat x.precision)).toNat)

/-- The text of a value with enough digits for its precision. -/
def display (x : BigFloat) : String := String.ofList (x.decimalText x.displayDigits)

/-- The text of a value followed by its precision, which differs for different values. -/
def uniqueText (x : BigFloat) : String :=
  x.display ++ "<" ++ toString x.precision ++ ">"

/-- The text that shows the parts of a value. -/
def partsText (x : BigFloat) : String :=
  let body :=
    match x.magnitude with
    | .finite mantissa exponent =>
      (if x.negative then "-" else "") ++ toString mantissa ++ " * 2^" ++ toString exponent
    | _ => x.display
  "ExactFloat(" ++ body ++ ")"

end BigFloat
end ExactSphere
