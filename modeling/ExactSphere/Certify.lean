import ExactSphere.Fault

/-!
Results that are given only when they are certain. A computation in `Certify` answers, reports
that the precision at hand does not settle the question, or stops with a fault.
-/

namespace ExactSphere

/-- A result that is certain, undecided (`none`) or faulty. -/
abbrev Certify := OptionT (Except Fault)

namespace Certify

/-- The undecided answer, for a quantity whose sign the rounding errors could hide. -/
def undecided : Certify α := OptionT.mk (.ok none)

/-- Stops with a fault. -/
def fault (cause : Fault) : Certify α := OptionT.mk (.error cause)

/-- A result that may be missing for reasons of precision. -/
def ofOption (result : Option α) : Certify α := OptionT.mk (.ok result)

/-- Turns "undecided" into a value, so that a formula can go on without this result. -/
def attempt (result : Certify α) : Certify (Option α) :=
  OptionT.mk (do return some (← result.run))

@[simp] theorem run_undecided : (undecided : Certify α).run = .ok none := rfl

@[simp] theorem run_fault (cause : Fault) : (fault cause : Certify α).run = .error cause := rfl

@[simp] theorem run_pure (a : α) : (pure a : Certify α).run = .ok (some a) := rfl

theorem run_attempt_of_ok {result : Certify α} {answer : Option α} (h : result.run = .ok answer) :
    result.attempt.run = .ok (some answer) := by
  simp only [attempt, OptionT.run_mk, h]
  rfl

end Certify
end ExactSphere
