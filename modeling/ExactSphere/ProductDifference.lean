import ExactSphere.Cascade

/-!
The smallest predicate, the sign of `a b - c`. Its variants show each way in which an evaluation
can end: decided, perturbed, without a perturbation rule, or never certain.
-/

namespace ExactSphere.ProductDifference

/-- The rule by which a product difference is settled. -/
inductive Rule where
  /-- Zero is degenerate and perturbed to positive. -/
  | plain
  /-- Zero is an answer. -/
  | zeroAllowed
  /-- As plain, without the double-word stage. -/
  | unextended
  deriving DecidableEq

/-- The sign of `a b - c` under a budget. -/
def sign (α : Type) [Scalar α] (a b c : Float) (budget : Nat) : Certify Sign :=
  sign? (Scalar.ofFloat a * Scalar.ofFloat b - Scalar.ofFloat c : α) budget

/-- The predicate `a b - c`. With `giveUp` the formula is never certain. -/
def predicate (a b c : Float) (budget : Nat) (giveUp : Bool) (rule : Rule) : Predicate Sign where
  name := "product_minus"
  extended := rule != .unextended
  formula := fun α _ => do
    let s ← sign α a b c budget
    if giveUp then Certify.undecided
    else if rule = .zeroAllowed then return .decided s
    else return .nonzero s
  tieBreak := .ok .positive

/-- The predicate `a b - c` with its own budget and no perturbation rule. -/
def unperturbed (a b c : Float) : Predicate Sign where
  name := "no_symbolic"
  formula := fun α _ => do return .nonzero (← sign α a b c 2)

end ExactSphere.ProductDifference
