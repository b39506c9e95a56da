import ExactSphere.Bits

/-!
Rounding a natural number that loses its low part. What is discarded is first compared with half
of a unit of what is kept; a rounding mode then looks at that comparison, the sign and the parity
of the kept part only. Binary, integer and decimal rounding share this rule.
-/

namespace ExactSphere

/-- Which of the two neighbours of a value is chosen. -/
inductive RoundingMode where
  | towardZero
  | awayFromZero
  | towardPositive
  | towardNegative
  /-- The nearest, a half away from zero. -/
  | tiesAway
  /-- The nearest, a half to the even neighbour. -/
  | tiesEven
  deriving DecidableEq

/-- The discarded part of a value, against half of a unit of the kept part. -/
inductive Discarded where
  | nothing
  | belowHalf
  | half
  | aboveHalf
  deriving DecidableEq

namespace Discarded

/-- Classifies the low `k` bits of `m`. -/
def ofLowBits (m k : Nat) : Discarded :=
  let low := m - ((m >>> k) <<< k)
  if low = 0 then nothing
  else if bitLength low < k then belowHalf
  else if low = 1 <<< (k - 1) then half
  else aboveHalf

/-- Classifies the remainder `r` of a division by `d`. -/
def ofRemainder (r d : Nat) : Discarded :=
  if r = 0 then nothing
  else if 2 * r < d then belowHalf
  else if 2 * r = d then half
  else aboveHalf

end Discarded

/-- Whether the magnitude grows to its upper neighbour. -/
def RoundingMode.roundsUp (mode : RoundingMode) (negative odd : Bool) : Discarded → Bool
  | .nothing => false
  | discarded =>
    match mode with
    | towardZero => false
    | awayFromZero => true
    | towardPositive => !negative
    | towardNegative => negative
    | tiesAway => discarded != .belowHalf
    | tiesEven => discarded == .aboveHalf || (discarded == .half && odd)

/-- `m / 2^k` rounded to an integer, for the magnitude `m` of a value of the given sign. -/
def RoundingMode.shiftRight (mode : RoundingMode) (negative : Bool) (m k : Nat) : Nat :=
  let kept := m >>> k
  if mode.roundsUp negative (kept % 2 == 1) (.ofLowBits m k) then kept + 1 else kept

/-- `n / d` rounded to an integer, for the magnitude `n` of a value of the given sign. -/
def RoundingMode.divide (mode : RoundingMode) (negative : Bool) (n d : Nat) : Nat :=
  let kept := n / d
  if mode.roundsUp negative (kept % 2 == 1) (.ofRemainder (n % d) d) then kept + 1 else kept

end ExactSphere
