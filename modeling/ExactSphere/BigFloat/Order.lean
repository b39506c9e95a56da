import ExactSphere.BigFloat.Arithmetic

/-!
The order of the values, with NaN apart, and the operations that follow from it: the larger and
the smaller of two values, the positive difference.
-/

namespace ExactSphere.BigFloat

/-- Compares `m * 2 ^ e` with `n * 2 ^ f`: first the leading bits, then the aligned mantissas. -/
def compareFinite (m : Nat) (e : Int) (n : Nat) (f : Int) : Ordering :=
  match compare (e + bitLength m) (f + bitLength n) with
  | .eq =>
    if e ≤ f then compare m (n <<< (f - e).toNat) else compare (m <<< (e - f).toNat) n
  | order => order

/-- Compares two magnitudes, neither of them NaN. -/
def compareMagnitude : Magnitude → Magnitude → Ordering
  | .infinity, .infinity => .eq
  | .infinity, _ => .gt
  | _, .infinity => .lt
  | .zero, .zero => .eq
  | .zero, _ => .lt
  | _, .zero => .gt
  | .finite m e, .finite n f => compareFinite m e n f
  | .nan, _ | _, .nan => .eq

/-- Compares two values; NaN is ordered with nothing, and the two zeros are equal. -/
def compare? (x y : BigFloat) : Option Ordering :=
  if x.isNaN || y.isNaN then none
  else if x.isZero && y.isZero then some .eq
  else
    match x.negative, y.negative with
    | false, true => some .gt
    | true, false => some .lt
    | false, false => some (compareMagnitude x.magnitude y.magnitude)
    | true, true => some (compareMagnitude y.magnitude x.magnitude)

/-- Equality of values: NaN differs from everything, and the two zeros are equal. -/
def beq (x y : BigFloat) : Bool :=
  !x.isNaN && !y.isNaN && ((x.isZero && y.isZero) || decide (x = y))

instance : BEq BigFloat := ⟨beq⟩

/-- Whether `x` is certainly below `y`. -/
def less (x y : BigFloat) : Bool := x.compare? y == some .lt

/-- The larger value; NaN loses against a number, and `-0` against `+0`. -/
def maximum (x y : BigFloat) : BigFloat :=
  if x.isNaN then y
  else if y.isNaN then x
  else if x.negative != y.negative then (if x.negative then y else x)
  else if x.less y then y
  else x

/-- The smaller value; NaN loses against a number, and `+0` against `-0`. -/
def minimum (x y : BigFloat) : BigFloat :=
  if x.isNaN then y
  else if y.isNaN then x
  else if x.negative != y.negative then (if x.negative then x else y)
  else if y.less x then y
  else x

/-- How far `x` lies above `y`, at least zero. -/
def positiveDifference (x y : BigFloat) : BigFloat :=
  match x.compare? y with
  | none => nan
  | some .gt => x - y
  | some _ => zero false

end ExactSphere.BigFloat
