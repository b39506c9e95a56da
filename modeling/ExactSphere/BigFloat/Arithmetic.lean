import ExactSphere.BigFloat.Basic

/-!
Exact sums, differences and products. Special values follow the rules of binary floating point:
NaN is passed on, opposite infinities and the product of zero and infinity are NaN, and an exact
cancellation is positive zero.
-/

namespace ExactSphere.BigFloat

/-- The sum of two finite values of the given signs, where `f ≤ e`. If the second one lies so far
below the first that no mantissa within the limit holds both, the sum is NaN. -/
def addAligned (s : Bool) (m : Nat) (e : Int) (t : Bool) (n : Nat) (f : Int) : BigFloat :=
  if maxPrecision < e - (f + bitLength n) then nan
  else ofScaled (signedInt s (m <<< (e - f).toNat) + signedInt t n) f

/-- The sum of two values. -/
def add (x y : BigFloat) : BigFloat :=
  match x.magnitude, y.magnitude with
  | .nan, _ => x
  | _, .nan => y
  | .infinity, .infinity => if x.negative = y.negative then x else nan
  | .infinity, _ => x
  | _, .infinity => y
  | .zero, .zero => zero (x.negative && y.negative)
  | .zero, .finite .. => y
  | .finite .., .zero => x
  | .finite m e, .finite n f =>
    if e < f then addAligned y.negative n f x.negative m e
    else addAligned x.negative m e y.negative n f

instance : Add BigFloat := ⟨add⟩

/-- The difference of two values; a NaN keeps its sign. -/
def sub (x y : BigFloat) : BigFloat :=
  if y.isNaN then x + y else x + -y

instance : Sub BigFloat := ⟨sub⟩

/-- The product of two values. The product of odd mantissas keeps every bit. -/
def mul (x y : BigFloat) : BigFloat :=
  let negative := x.negative != y.negative
  match x.magnitude, y.magnitude with
  | .nan, _ => x
  | _, .nan => y
  | .zero, .infinity | .infinity, .zero => nan
  | .infinity, _ | _, .infinity => infinity negative
  | .zero, _ | _, .zero => zero negative
  | .finite m e, .finite n f =>
    if maxPrecision < bitLength m + bitLength n - 1 then nan
    else ofParts negative (m * n) (e + f)

instance : Mul BigFloat := ⟨mul⟩

end ExactSphere.BigFloat
