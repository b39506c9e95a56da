import ExactSphere.BigFloat.Basic

/-!
The stored form of a value: one flat record for all kinds, in which not every combination of
fields is a value. `Layout.check` names the first rule that a record breaks.
-/

namespace ExactSphere

/-- The kinds of values. -/
inductive Kind where
  | normal
  | zero
  | infinite
  | nan
  deriving DecidableEq

/-- The name of a kind in reports. -/
def Kind.label : Kind → String
  | .normal => "normal"
  | .zero => "zero"
  | .infinite => "infinite"
  | .nan => "NaN"

/-- The stored form of a value. -/
structure Layout where
  negative : Bool
  kind : Kind
  exponent : Int
  mantissa : Nat
  deriving DecidableEq

/-- How a stored form breaks the canonical representation. -/
inductive Defect where
  | evenMantissa
  | specialWithParts (kind : String)
  | exponentOutOfRange (exponent lo hi : Int)
  | precisionExceeded (precision : Nat) (limit : Int)
  deriving DecidableEq

/-- The wording of a defect. -/
def Defect.message : Defect → String
  | evenMantissa => "normal value has an even or zero mantissa"
  | specialWithParts kind => kind ++ " value carries a nonzero mantissa or exponent"
  | exponentOutOfRange exponent lo hi =>
    "exponent " ++ toString exponent ++ " lies outside [" ++ toString lo ++ ", " ++
      toString hi ++ "]"
  | precisionExceeded precision limit =>
    "mantissa precision " ++ toString precision ++ " exceeds the " ++ toString limit ++
      "-bit limit"

/-- The stored form of a value. -/
def BigFloat.layout (x : BigFloat) : Layout :=
  match x.magnitude with
  | .zero => ⟨x.negative, .zero, 0, 0⟩
  | .finite mantissa exponent => ⟨x.negative, .normal, exponent, mantissa⟩
  | .infinity => ⟨x.negative, .infinite, 0, 0⟩
  | .nan => ⟨x.negative, .nan, 0, 0⟩

/-- Whether a mantissa and an exponent are those of a canonical value. -/
def Layout.checkParts (mantissa : Nat) (exponent : Int) : Except Defect Unit :=
  let top := exponent + bitLength mantissa
  if mantissa % 2 = 0 then .error .evenMantissa
  else if top < BigFloat.minExponent ∨ BigFloat.maxExponent < top then
    .error (.exponentOutOfRange top BigFloat.minExponent BigFloat.maxExponent)
  else if BigFloat.maxPrecision < bitLength mantissa then
    .error (.precisionExceeded (bitLength mantissa) BigFloat.maxPrecision)
  else .ok ()

/-- Whether a stored form is canonical, or the first rule that it breaks. -/
def Layout.check (l : Layout) : Except Defect Unit :=
  match l.kind with
  | .normal => checkParts l.mantissa l.exponent
  | kind =>
    if l.mantissa = 0 ∧ l.exponent = 0 then .ok () else .error (.specialWithParts kind.label)

theorem Layout.checkParts_eq_ok_iff (mantissa : Nat) (exponent : Int) :
    checkParts mantissa exponent = .ok () ↔
      mantissa % 2 = 1 ∧ BigFloat.minExponent ≤ exponent + bitLength mantissa ∧
        exponent + bitLength mantissa ≤ BigFloat.maxExponent ∧
        bitLength mantissa ≤ BigFloat.maxPrecision := by
  unfold checkParts
  by_cases odd : mantissa % 2 = 0
  · simp [odd]
  by_cases range : exponent + bitLength mantissa < BigFloat.minExponent ∨
      BigFloat.maxExponent < exponent + bitLength mantissa
  · simp only [if_neg odd, if_pos range, reduceCtorEq, false_iff]; omega
  by_cases wide : BigFloat.maxPrecision < bitLength mantissa
  · simp only [if_neg odd, if_neg range, if_pos wide, reduceCtorEq, false_iff]; omega
  · simp only [if_neg odd, if_neg range, if_neg wide, true_iff]; omega

/-- The stored forms that pass the check are those of canonical values. -/
theorem BigFloat.check_layout_eq_ok_iff (x : BigFloat) :
    x.layout.check = .ok () ↔ x.Canonical := by
  obtain ⟨negative, _ | ⟨m, e⟩ | _ | _⟩ := x
  case finite => exact Layout.checkParts_eq_ok_iff m e
  all_goals exact ⟨fun _ => trivial, fun _ => rfl⟩

end ExactSphere
