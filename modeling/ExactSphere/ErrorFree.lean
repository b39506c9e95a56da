/-!
Error-free transformations of doubles: a sum or a product together with its rounding error, so
that the two words of the result stand for the exact value.
-/

namespace ExactSphere.ErrorFree

/-- The rounded sum of two doubles of any magnitude, and its error. -/
def twoSum (a b : Float) : Float × Float :=
  let sum := a + b
  let bPart := sum - a
  let aPart := sum - bPart
  let bError := b - bPart
  let aError := a - aPart
  (sum, aError + bError)

/-- The factor `2 ^ 27 + 1` that cuts a double in two. -/
def splitter : Float := 134217729

/-- Two words of at most 26 significant bits whose sum is `a`. -/
def split (a : Float) : Float × Float :=
  let c := splitter * a
  let big := c - a
  let hi := c - big
  (hi, a - hi)

/-- The rounded product of two doubles, and its error. It is exact unless the product underflows
or a split overflows. -/
def twoProduct (a b : Float) : Float × Float :=
  let product := a * b
  let (aHi, aLo) := split a
  let (bHi, bLo) := split b
  let error₁ := product - aHi * bHi
  let error₂ := error₁ - aLo * bHi
  let error₃ := error₂ - aHi * bLo
  (product, aLo * bLo - error₃)

end ExactSphere.ErrorFree
