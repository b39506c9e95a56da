import ExactSphere.Binary64
import ExactSphere.ErrorFree

/-!
Double-word numbers: unevaluated sums of two doubles, the low word at most half a unit in the last
place of the high one. Sums and products have a relative error below `2 ^ -100`.
-/

namespace ExactSphere

/-- The number `hi + lo`. -/
structure DoubleWord where
  hi : Float
  lo : Float

namespace DoubleWord

/-- A double, exactly. -/
def ofFloat (x : Float) : DoubleWord := ⟨x, 0⟩

/-- The double nearest to the number. -/
def toFloat (a : DoubleWord) : Float := a.hi + a.lo

/-- The negated number. -/
def neg (a : DoubleWord) : DoubleWord := ⟨-a.hi, -a.lo⟩

instance : Neg DoubleWord := ⟨neg⟩

/-- The sum, with the errors of both words carried into the low word of the result. -/
def add (a b : DoubleWord) : DoubleWord :=
  let (highSum, highError) := ErrorFree.twoSum a.hi b.hi
  let (lowSum, lowError) := ErrorFree.twoSum a.lo b.lo
  let (sum, error) := ErrorFree.twoSum highSum (highError + lowSum)
  let (hi, lo) := ErrorFree.twoSum sum (lowError + error)
  ⟨hi, lo⟩

instance : Add DoubleWord := ⟨add⟩

/-- The difference. -/
def sub (a b : DoubleWord) : DoubleWord := a + -b

instance : Sub DoubleWord := ⟨sub⟩

/-- The product; that of the two low words is below the error bound. -/
def mul (a b : DoubleWord) : DoubleWord :=
  let (product, error) := ErrorFree.twoProduct a.hi b.hi
  let crossed := a.hi * b.lo + a.lo * b.hi
  let (hi, lo) := ErrorFree.twoSum product (error + crossed)
  ⟨hi, lo⟩

instance : Mul DoubleWord := ⟨mul⟩

/-- The absolute value; the low word decides the sign of a number with a zero high word. -/
def abs (a : DoubleWord) : DoubleWord :=
  if a.hi < 0 || (a.hi == 0 && a.lo < 0) then -a else a

/-- Equality of both words: the two zeros are equal, and NaN equals nothing. -/
instance : BEq DoubleWord := ⟨fun a b => a.hi == b.hi && a.lo == b.lo⟩

/-- Compares the high words, then the low words. -/
def compare? (a b : DoubleWord) : Option Ordering :=
  match Binary64.compare? a.hi b.hi with
  | some .eq => Binary64.compare? a.lo b.lo
  | order => order

/-- Whether `a` is certainly below `b`. -/
def less (a b : DoubleWord) : Bool := a.compare? b == some .lt

end DoubleWord
end ExactSphere
