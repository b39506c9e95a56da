import ExactSphere.BigFloat.Layout
import ExactSphere.Proofs.BigFloat.Checked
import Mathlib.Data.Fin.Tuple.Basic

/-!
# Programs over exact values

A program builds values one after another, each from constants, doubles and integers or from values
before it. Its instructions are all operations of `BigFloat` that give a value. A word that is too
small for an exponent or a bit count stops a program, and so does a fault of an operation; by
`Program.canonical_run` neither happens, and all values of a program are canonical.
-/

namespace ExactSphere.BigFloat

/-- What a value is made from. A 32-bit integer is made from the 64-bit one. -/
inductive Constant where
  | zero (negative : Bool)
  | infinity (negative : Bool)
  | nan
  | double (x : Float)
  | integer (n : Int64)

/-- An operation on one value. Rounding has an argument within the limits. -/
inductive Unary where
  | neg
  | abs
  | withSign (negative : Bool)
  | scale (n : Int32)
  | fraction
  | leadingExponent
  | roundToPrecision (bits : ℤ) (mode : RoundingMode) (hmin : 2 ≤ bits)
    (hmax : bits ≤ maxPrecision)
  | roundToUnit (unit : ℤ) (mode : RoundingMode) (hmin : minExponent - maxPrecision ≤ unit)
    (hmax : unit ≤ maxExponent)
  | roundToInteger (mode : RoundingMode)

/-- An operation on two values. -/
inductive Binary where
  | add
  | sub
  | mul
  | copySign
  | maximum
  | minimum
  | positiveDifference

/-- A step of a program over `n` values. -/
inductive Instruction (n : ℕ) where
  | constant (c : Constant)
  | unary (operation : Unary) (x : Fin n)
  | binary (operation : Binary) (x y : Fin n)

/-- A program that builds `n` values. -/
inductive Program : ℕ → Type where
  | empty : Program 0
  | step {n : ℕ} (earlier : Program n) (instruction : Instruction n) : Program (n + 1)

/-! ## Execution -/

/-- A result whose words have to fit. -/
def guarded {A : Type} (fits : Bool) (result : Except Fault A) : Except Fault A :=
  if fits then result else .error .depthSum

/-- The value of a constant, if its words fit. -/
def Constant.run : Constant → Except Fault BigFloat
  | zero negative => .ok (.zero negative)
  | infinity negative => .ok (.infinity negative)
  | nan => .ok .nan
  | double x => guarded (conversionFits x) (.ok (ofFloat x))
  | integer n => guarded (partsFit n.toInt.natAbs 0) (.ok (ofInt n.toInt))

/-- The result of an operation on one value, if its words fit. -/
def Unary.run (x : BigFloat) : Unary → Except Fault BigFloat
  | neg => .ok (-x)
  | abs => .ok x.abs
  | withSign negative => .ok (x.withSign negative)
  | scale n => guarded (scaleFits x n.toInt) (.ok (x.scale n.toInt))
  | fraction => guarded (splitFits x) (.ok x.split.1)
  | leadingExponent => guarded (leadingExponentFits x) (.ok x.leadingExponentValue)
  | roundToPrecision bits mode _ _ =>
    guarded (precisionFits x bits mode) (x.roundToPrecision bits mode)
  | roundToUnit unit mode _ _ => guarded (unitFits x unit mode) (x.roundToUnit unit mode)
  | roundToInteger mode => guarded (unitFits x 0 mode) (.ok (x.roundToInteger mode))

/-- The result of an operation on two values, if its words fit. -/
def Binary.run (x y : BigFloat) : Binary → Except Fault BigFloat
  | add => guarded (sumFits x y) (.ok (x + y))
  | sub => guarded (sumFits x (-y)) (.ok (x - y))
  | mul => guarded (productFits x y) (.ok (x * y))
  | copySign => .ok (x.copySign y)
  | maximum => guarded (comparisonFits x y) (.ok (x.maximum y))
  | minimum => guarded (comparisonFits x y) (.ok (x.minimum y))
  | positiveDifference =>
    guarded (comparisonFits x y && sumFits x (-y)) (.ok (x.positiveDifference y))

/-- The value that an instruction adds to those before it. -/
def Instruction.run {n : ℕ} (values : Fin n → BigFloat) : Instruction n → Except Fault BigFloat
  | constant c => c.run
  | unary operation x => operation.run (values x)
  | binary operation x y => operation.run (values x) (values y)

/-- All values of a program. -/
def Program.run {n : ℕ} : Program n → Except Fault (Fin n → BigFloat)
  | empty => .ok Fin.elim0
  | step earlier instruction => do
    let values ← earlier.run
    let value ← instruction.run values
    return Fin.snoc values value

/-! ## One step -/

variable {x y : BigFloat}

/-- The operation returns a canonical value. -/
def ReturnsCanonical (result : Except Fault BigFloat) : Prop :=
  ∃ z, result = .ok z ∧ z.Canonical

theorem returnsCanonical_guarded {fits : Bool} {result : Except Fault BigFloat}
    (hfits : fits = true) (h : ReturnsCanonical result) :
    ReturnsCanonical (guarded fits result) := by
  rw [guarded, if_pos hfits]
  exact h

theorem partsFit_toInt (n : Int64) : partsFit n.toInt.natAbs 0 = true := by
  have hmin := n.le_toInt
  have hmax := n.toInt_lt
  have hbits : bitLength n.toInt.natAbs ≤ 64 := bitLength_le_iff.2 (by omega)
  exact partsFit_of_le (by decide) (by decide) (by omega)

theorem Constant.returnsCanonical_run (c : Constant) : ReturnsCanonical c.run := by
  cases c with
  | zero negative | infinity negative | nan => exact ⟨_, rfl, trivial⟩
  | double x =>
    exact returnsCanonical_guarded (conversionFits_eq x) ⟨_, rfl, canonical_ofFloat x⟩
  | integer n => exact returnsCanonical_guarded (partsFit_toInt n) ⟨_, rfl, canonical_ofParts _ _ _⟩

theorem Unary.returnsCanonical_run (hx : x.Canonical) (operation : Unary) :
    ReturnsCanonical (operation.run x) := by
  cases operation with
  | neg | abs | withSign negative => exact ⟨_, rfl, hx⟩
  | scale n =>
    exact returnsCanonical_guarded (scaleFits_of_canonical hx _) ⟨_, rfl, canonical_scale hx _⟩
  | fraction =>
    exact returnsCanonical_guarded (splitFits_of_canonical hx) ⟨_, rfl, canonical_split hx⟩
  | leadingExponent =>
    exact returnsCanonical_guarded (leadingExponentFits_of_canonical hx)
      ⟨_, rfl, canonical_leadingExponentValue hx⟩
  | roundToPrecision bits mode hmin hmax =>
    exact returnsCanonical_guarded (precisionFits_of_canonical hx hmin hmax mode)
      (exists_roundToPrecision hx hmin hmax mode)
  | roundToUnit unit mode hmin hmax =>
    exact returnsCanonical_guarded (unitFits_of_canonical hx hmin hmax mode)
      ⟨_, roundToUnit_eq hmin hmax x mode, canonical_roundTo hx unit mode⟩
  | roundToInteger mode =>
    exact returnsCanonical_guarded (unitFits_of_canonical hx (by decide) (by decide) mode)
      ⟨_, rfl, canonical_roundToInteger hx mode⟩

theorem Binary.returnsCanonical_run (hx : x.Canonical) (hy : y.Canonical) (operation : Binary) :
    ReturnsCanonical (operation.run x y) := by
  have hcomparison := comparisonFits_of_canonical hx hy
  have hdifference := sumFits_of_canonical hx (canonical_neg hy)
  cases operation with
  | add =>
    exact returnsCanonical_guarded (sumFits_of_canonical hx hy) ⟨_, rfl, canonical_add hx hy⟩
  | sub => exact returnsCanonical_guarded hdifference ⟨_, rfl, canonical_sub hx hy⟩
  | mul =>
    exact returnsCanonical_guarded (productFits_of_canonical hx hy) ⟨_, rfl, canonical_mul hx hy⟩
  | copySign => exact ⟨_, rfl, hx⟩
  | maximum => exact returnsCanonical_guarded hcomparison ⟨_, rfl, canonical_maximum hx hy⟩
  | minimum => exact returnsCanonical_guarded hcomparison ⟨_, rfl, canonical_minimum hx hy⟩
  | positiveDifference =>
    exact returnsCanonical_guarded (by rw [hcomparison, hdifference]; rfl)
      ⟨_, rfl, canonical_positiveDifference hx hy⟩

theorem Instruction.returnsCanonical_run {n : ℕ} {values : Fin n → BigFloat}
    (h : ∀ i, (values i).Canonical) (instruction : Instruction n) :
    ReturnsCanonical (instruction.run values) := by
  cases instruction with
  | constant c => exact c.returnsCanonical_run
  | unary operation x => exact operation.returnsCanonical_run (h x)
  | binary operation x y => exact operation.returnsCanonical_run (h x) (h y)

/-! ## A whole run -/

theorem Program.exists_run {n : ℕ} (p : Program n) :
    ∃ values, p.run = .ok values ∧ ∀ i, (values i).Canonical := by
  induction p with
  | empty => exact ⟨Fin.elim0, rfl, fun i => i.elim0⟩
  | step earlier instruction ih =>
    obtain ⟨values, hvalues, hcanonical⟩ := ih
    obtain ⟨z, hz, hzcanonical⟩ := instruction.returnsCanonical_run hcanonical
    refine ⟨Fin.snoc values z, ?_, ?_⟩
    · rw [run, hvalues]
      change (instruction.run values).bind _ = _
      rw [hz]
      rfl
    · intro i
      cases i using Fin.lastCases with
      | last => simpa using hzcanonical
      | cast i => simpa using hcanonical i

/-- Every program runs to its end: no operation has a fault and no word overflows. All its values
pass the check of the canonical form, and convert to doubles and integers within their words. -/
theorem Program.canonical_run {n : ℕ} (p : Program n) :
    ∃ values, p.run = .ok values ∧ ∀ i,
      (values i).layout.check = .ok () ∧
        doubleRoundingFits (values i) = true ∧
        (∃ z, (values i).roundToDouble = .ok z ∧ doubleScalingFits z = true) ∧
        ∀ mode, integerFits (values i) mode = true := by
  obtain ⟨values, hvalues, hcanonical⟩ := p.exists_run
  refine ⟨values, hvalues, fun i => ⟨(check_layout_eq_ok_iff _).2 (hcanonical i), ?_, ?_, ?_⟩⟩
  · exact doubleRoundingFits_of_canonical (hcanonical i)
  · exact exists_roundToDouble (hcanonical i)
  · exact integerFits_of_canonical (hcanonical i)

end ExactSphere.BigFloat
