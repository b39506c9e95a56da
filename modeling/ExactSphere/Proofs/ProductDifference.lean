import ExactSphere.ProductDifference
import ExactSphere.Proofs.Cascade

/-!
# The ways in which an evaluation ends

A product less a number is evaluated by every rule in the same way up to the finding. If the exact
difference is not zero, its sign is the answer. If it is zero, the rule decides: zero is an answer
itself, or the perturbation answers in the symbolic stage (`evaluate_predicate`), or there is none
and the evaluation has a fault (`outcome_unperturbed`). A formula that is never certain leaves the
evaluation without an outcome (`evaluate_of_giveUp`).
-/

namespace ExactSphere.ProductDifference

open Certify (Answers)

variable {a b c : Float} {budget : ℕ}

/-- The sign of the exact difference. -/
def verdict (a b c : Float) : Sign :=
  Sign.of (Binary64.value a * Binary64.value b - Binary64.value c)

/-- Whether a rule leaves this sign to the perturbation. -/
def Rule.Perturbs (rule : Rule) (s : Sign) : Prop := rule ≠ .zeroAllowed ∧ s = .zero

instance (rule : Rule) (s : Sign) : Decidable (rule.Perturbs s) := instDecidableAnd

section Finite

variable (ha : a.isFinite = true) (hb : b.isFinite = true) (hc : c.isFinite = true)

include ha hb hc

theorem answers_sign {α : Type} [Scalar α] {rounded : Bool} [SoundScalar rounded α]
    (hmin : 2 ≤ budget) (hmax : budget ≤ 64) :
    Answers rounded (sign α a b c budget) (verdict a b c) := by
  have hfits := ((Expression.Fits.leaf ha).mul (.leaf hb)).sub (.leaf hc)
  exact answers_sign? budget (hfits.mono hmin) hmax

/-- What a rule finds: the sign of the exact difference, or that a perturbation has to decide. -/
theorem finds_predicate (rule : Rule) (hmin : 2 ≤ budget) (hmax : budget ≤ 64) :
    (predicate a b c budget false rule).Finds
      (if rule.Perturbs (verdict a b c) then .degenerate else .decided (verdict a b c)) := by
  refine Predicate.finds_of_sound fun α => (answers_sign ha hb hc hmin hmax).bind ?_
  generalize verdict a b c = s
  cases rule <;> cases s <;> exact .pure _

/-- A rule with a perturbation always comes to an outcome. The symbolic stage settles what the rule
leaves to the perturbation, and nothing else. -/
theorem evaluate_predicate (rule : Rule) (hmin : 2 ≤ budget) (hmax : budget ≤ 64) :
    ∃ stage, (predicate a b c budget false rule).evaluate =
        .ok ⟨if rule.Perturbs (verdict a b c) then .positive else verdict a b c, stage⟩ ∧
      (stage = .symbolic ↔ rule.Perturbs (verdict a b c)) := by
  obtain ⟨triage, hprecisions⟩ := (predicate a b c budget false rule).exists_precisions_eq
  rw [Predicate.evaluate, hprecisions]
  refine Predicate.evaluateThrough_of_answers
    (Q := fun result => ∃ stage, result = .ok ⟨_, stage⟩ ∧ (stage = .symbolic ↔ _))
    (fun precision => ⟨_, finds_predicate ha hb hc rule hmin hmax precision, ?_⟩) triage
  split_ifs with hperturbs
  · exact ⟨.symbolic, rfl, iff_of_true rfl hperturbs⟩
  · exact ⟨precision.stage, rfl, iff_of_false precision.stage_ne_symbolic hperturbs⟩

/-- Without a perturbation, an exact zero is a fault. -/
theorem outcome_unperturbed : (unperturbed a b c).outcome =
    if verdict a b c = .zero then .error (.noPerturbation "no_symbolic")
    else .ok (verdict a b c) := by
  have hfinds : (unperturbed a b c).Finds (.nonzero (verdict a b c)) :=
    Predicate.finds_of_sound fun α =>
      (answers_sign ha hb hc le_rfl (by norm_num)).bind (.pure _)
  rw [hfinds.outcome_eq]
  generalize verdict a b c = s
  cases s <;> rfl

/-- A formula that gives up is not certain in any precision. -/
theorem run_findingIn_of_giveUp (rule : Rule) (hmin : 2 ≤ budget) (hmax : budget ≤ 64)
    (precision : Precision) :
    ((predicate a b c budget true rule).findingIn precision).run = .ok none := by
  have hundecided : ∀ (α : Type) [Scalar α] {rounded : Bool} [SoundScalar rounded α],
      ((predicate a b c budget true rule).formula α).run = .ok none := by
    intro α _ rounded _
    obtain ⟨answer, hrun, -⟩ := (answers_sign (α := α) ha hb hc hmin hmax).exists_run
    change (sign α a b c budget >>= fun _ => Certify.undecided).run = _
    rw [OptionT.run_bind, hrun]
    cases answer <;> rfl
  cases precision with
  | double => exact hundecided (Tracked Float)
  | doubleWord => exact hundecided (Tracked DoubleWord)
  | unbounded => exact hundecided BigFloat

theorem evaluate_of_giveUp (rule : Rule) (hmin : 2 ≤ budget) (hmax : budget ≤ 64) :
    (predicate a b c budget true rule).evaluate = .error (.indeterminate "product_minus") :=
  Predicate.evaluateThrough_of_forall_none fun precision _ =>
    run_findingIn_of_giveUp ha hb hc rule hmin hmax precision

end Finite

end ExactSphere.ProductDifference
