import ExactSphere.Tracked

/-!
Predicates that are evaluated in growing precision. A formula runs in tracked doubles, in tracked
double-words and at last exactly; the first precision in which it is certain settles the predicate.
A degenerate input, whose exact value is zero, is decided by a symbolic perturbation.
-/

namespace ExactSphere

/-- What a formula finds once it is certain. -/
inductive Finding (Outcome : Type) where
  | decided (outcome : Outcome)
  /-- The exact value is zero, and a perturbation has to decide. -/
  | degenerate
  deriving DecidableEq

/-- The finding of a sign that must not be zero. -/
def Finding.nonzero : Sign → Finding Sign
  | .zero => .degenerate
  | sign => .decided sign

/-- The part of an evaluation that settled a predicate. -/
inductive Stage where
  | triage
  | extended
  | exact
  | symbolic
  deriving DecidableEq

/-- The precisions a formula can be evaluated in. -/
inductive Precision where
  | double
  | doubleWord
  | unbounded
  deriving DecidableEq

/-- The stage that evaluates in a precision. -/
def Precision.stage : Precision → Stage
  | double => .triage
  | doubleWord => .extended
  | unbounded => .exact

/-- The outcome of a predicate and the stage that settled it. -/
structure Evaluation (Outcome : Type) where
  outcome : Outcome
  stage : Stage
  deriving DecidableEq

/-- A question about given points, as one formula over all scalars. -/
structure Predicate (Outcome : Type) where
  /-- The name in fault reports. -/
  name : String
  /-- Whether double-words are worth trying before exact numbers. -/
  extended : Bool := true
  formula : (α : Type) → [Scalar α] → Certify (Finding Outcome)
  /-- The answer for a degenerate input. -/
  tieBreak : Except Fault Outcome := .error (.noPerturbation name)

namespace Predicate

/-- The finding of the formula in a precision. -/
def findingIn (p : Predicate Outcome) : Precision → Certify (Finding Outcome)
  | .double => p.formula (Tracked Float)
  | .doubleWord => p.formula (Tracked DoubleWord)
  | .unbounded => p.formula BigFloat

/-- The evaluation that a finding of the given stage settles. -/
def conclude (p : Predicate Outcome) (stage : Stage) :
    Finding Outcome → Except Fault (Evaluation Outcome)
  | .decided outcome => .ok ⟨outcome, stage⟩
  | .degenerate => p.tieBreak.map (⟨·, .symbolic⟩)

/-- Evaluates through a list of precisions; the first certain finding counts. -/
def evaluateThrough (p : Predicate Outcome) : List Precision → Except Fault (Evaluation Outcome)
  | [] => .error (.indeterminate p.name)
  | precision :: rest => do
    match ← (p.findingIn precision).run with
    | some finding => p.conclude precision.stage finding
    | none => p.evaluateThrough rest

/-- The precisions that a predicate runs through. -/
def precisions (p : Predicate Outcome) : List Precision :=
  if p.extended then [.double, .doubleWord, .unbounded] else [.double, .unbounded]

/-- Evaluates a predicate. -/
def evaluate (p : Predicate Outcome) : Except Fault (Evaluation Outcome) :=
  p.evaluateThrough p.precisions

/-- The outcome of a predicate, whatever stage settles it. -/
def outcome (p : Predicate Outcome) : Except Fault Outcome :=
  p.evaluate.map (·.outcome)

end Predicate
end ExactSphere
