/-!
Bit counts of natural numbers: the number of binary digits and the number of trailing zeros.
-/

namespace ExactSphere

/-- The number of binary digits of `n`; none for zero. -/
def bitLength (n : Nat) : Nat :=
  if n = 0 then 0 else n.log2 + 1

/-- The number of zeros below the lowest one bit of `n`, which `n &&& (n - 1)` clears. -/
def trailingZeros (n : Nat) : Nat :=
  (n - (n &&& (n - 1))).log2

/-- The integer of the given sign and magnitude. -/
def signedInt (negative : Bool) (magnitude : Nat) : Int :=
  if negative then -(magnitude : Int) else magnitude

@[simp] theorem bitLength_zero : bitLength 0 = 0 := rfl

@[simp] theorem signedInt_natAbs (negative : Bool) (n : Nat) :
    (signedInt negative n).natAbs = n := by
  cases negative <;> simp [signedInt]

end ExactSphere
