import ExactSphere.Exclusion

/-!
The faults of the library: every way in which an operation refuses its input, as a cause, with
one wording for each.
-/

namespace ExactSphere

/-- Why an operation gave no answer. -/
inductive Fault where
  /-- The exact value of a formula is not a number. -/
  | notANumber
  /-- A tracked value is deeper than the budget it is tested against. -/
  | depthExceeded (depth budget : Nat)
  /-- A depth does not fit its word after an addition. -/
  | depthSum
  /-- A depth does not fit its word after a multiplication. -/
  | depthProduct
  /-- Only a nonzero finite value has a binary exponent. -/
  | noExponent
  /-- Rounding to fewer than two bits has no even neighbour to prefer. -/
  | precisionTooSmall
  /-- A precision above the limit. -/
  | precisionTooLarge
  /-- A rounding unit below the smallest one. -/
  | unitTooSmall
  /-- A rounding unit above the largest one. -/
  | unitTooLarge
  /-- A decimal text needs at least one digit. -/
  | noDigits
  /-- A vector has three components. -/
  | noComponent (index : Nat)
  /-- The formula of a predicate has no certain value even in exact arithmetic. -/
  | indeterminate (predicate : String)
  /-- A predicate without a perturbation rule met a degenerate input. -/
  | noPerturbation (predicate : String)
  /-- An edge with antipodal ends has no direction. -/
  | antipodalEdge
  /-- A coverage radius of 90 degrees or more. -/
  | radiusTooLarge
  /-- The first site is not the closer one at the start of the edge. -/
  | sitesOutOfOrder
  /-- A perturbation was asked for without a tie. -/
  | noTie (found : Option Containment)
  /-- The perturbation rules of a circumcenter are exhausted. -/
  | unbrokenTie
  deriving DecidableEq

/-- The wording of a fault. -/
def Fault.message : Fault → String
  | notANumber => "exact evaluation produced NaN (non-finite input or precision exhausted)"
  | depthExceeded depth budget =>
    "expression depth " ++ toString depth ++ " exceeds its declared error bound " ++
      toString budget
  | depthSum => "attempt to add with overflow"
  | depthProduct => "attempt to multiply with overflow"
  | noExponent => "exp() of a non-normal ExactFloat"
  | precisionTooSmall => "max_prec must be at least 2"
  | precisionTooLarge => "assertion failed: max_prec <= MAX_PREC"
  | unitTooSmall => "assertion failed: bit_exp >= MIN_EXP - MAX_PREC"
  | unitTooLarge => "assertion failed: bit_exp <= MAX_EXP"
  | noDigits => "max_digits must be positive"
  | noComponent index => "Vector3 index out of range: " ++ toString index
  | indeterminate predicate => predicate ++ ": exact evaluation was indeterminate"
  | noPerturbation predicate =>
    "internal error: entered unreachable code: " ++ predicate ++
      " never reports a degenerate verdict"
  | antipodalEdge => "assertion `left != right` failed: edge endpoints are antipodal"
  | radiusTooLarge => "coverage radius must be below 90 degrees"
  | sitesOutOfOrder => "assertion `left == right` failed"
  | noTie none => "voronoi_site_exclusion: no tie to perturb, got None"
  | noTie (some found) =>
    "voronoi_site_exclusion: no tie to perturb, got Some(" ++ found.label ++ ")"
  | unbrokenTie => "edge_circumcenter_sign: symbolic perturbation left a zero"

end ExactSphere
