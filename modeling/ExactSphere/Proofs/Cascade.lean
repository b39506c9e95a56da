import ExactSphere.Proofs.Verdict.Orientation
import ExactSphere.Proofs.Verdict.Edge
import ExactSphere.Proofs.Verdict.Crossing
import ExactSphere.Proofs.Verdict.Voronoi

/-!
# The cascade agrees with its exact stage

A predicate whose formula finds one verdict in all sound scalars (`Predicate.Finds`) gives the same
answer whatever precisions are tried before the exact one. This holds of every predicate over
finite points (`predicates_coherent`).
-/

namespace ExactSphere

open Certify (Answers)

/-- Whether signs can be left undecided in this precision. -/
def Precision.rounded : Precision → Bool
  | double | doubleWord => true
  | unbounded => false

theorem Precision.stage_ne_symbolic (precision : Precision) : precision.stage ≠ .symbolic := by
  cases precision <;> decide

namespace Predicate

variable {Outcome : Type} {p : Predicate Outcome} {finding : Finding Outcome}

/-- The formula finds `finding` in every precision, if it finds anything; exactly, it does. -/
def Finds (p : Predicate Outcome) (finding : Finding Outcome) : Prop :=
  ∀ precision : Precision, Answers precision.rounded (p.findingIn precision) finding

theorem finds_of_sound
    (h : ∀ (α : Type) [Scalar α] {rounded : Bool} [SoundScalar rounded α],
      Answers rounded (p.formula α) finding) : p.Finds finding := by
  intro precision
  cases precision with
  | double => exact h (Tracked Float)
  | doubleWord => exact h (Tracked DoubleWord)
  | unbounded => exact h BigFloat

/-- The outcome does not depend on the stage that finds it. -/
theorem map_outcome_conclude (s t : Stage) (finding : Finding Outcome) :
    (p.conclude s finding).map (·.outcome) = (p.conclude t finding).map (·.outcome) := by
  cases finding with
  | decided outcome => rfl
  | degenerate => rfl

/-- The perturbation decides about a degenerate input. -/
theorem conclude_degenerate {tie : Outcome} (h : p.tieBreak = .ok tie) (stage : Stage) :
    p.conclude stage .degenerate = .ok ⟨tie, .symbolic⟩ := by
  rw [conclude, h]
  rfl

/-- A certain finding concludes a run. -/
theorem evaluateThrough_of_some {precision : Precision} {rest : List Precision}
    (h : (p.findingIn precision).run = .ok (some finding)) :
    p.evaluateThrough (precision :: rest) = p.conclude precision.stage finding := by
  rw [evaluateThrough, h]
  rfl

/-- A precision that stays undecided leaves the run to the rest. -/
theorem evaluateThrough_of_none {precision : Precision} {rest : List Precision}
    (h : (p.findingIn precision).run = .ok none) :
    p.evaluateThrough (precision :: rest) = p.evaluateThrough rest := by
  rw [evaluateThrough, h]
  rfl

/-- A run in which no precision is certain has no outcome. -/
theorem evaluateThrough_of_forall_none {list : List Precision}
    (h : ∀ precision ∈ list, (p.findingIn precision).run = .ok none) :
    p.evaluateThrough list = .error (.indeterminate p.name) := by
  induction list with
  | nil => rfl
  | cons precision rest ih =>
    rw [evaluateThrough_of_none (h precision List.mem_cons_self)]
    exact ih fun other hother => h other (List.mem_cons_of_mem _ hother)

/-- What holds of the conclusion of every precision holds of a run of the cascade. -/
theorem evaluateThrough_of_answers {Q : Except Fault (Evaluation Outcome) → Prop}
    (h : ∀ precision : Precision, ∃ finding,
      Answers precision.rounded (p.findingIn precision) finding ∧
        Q (p.conclude precision.stage finding))
    (triage : List Precision) : Q (p.evaluateThrough (triage ++ [.unbounded])) := by
  -- each precision either settles the predicate or leaves it to the rest of the list
  have hstep : ∀ (precision : Precision) (rest : List Precision),
      (precision.rounded = true → Q (p.evaluateThrough rest)) →
      Q (p.evaluateThrough (precision :: rest)) := by
    intro precision rest hrest
    obtain ⟨finding, hanswers, hconclude⟩ := h precision
    rcases hanswers with hrun | ⟨hrounded, hrun⟩
    · rw [evaluateThrough_of_some hrun]
      exact hconclude
    · rw [evaluateThrough_of_none hrun]
      exact hrest hrounded
  induction triage with
  | nil => exact hstep .unbounded [] fun h => by cases h
  | cons precision triage ih => exact hstep precision _ fun _ => ih

/-- A run of the cascade comes to one outcome, from whichever precision settles it. -/
theorem Finds.map_outcome_evaluateThrough (h : p.Finds finding) (triage : List Precision) :
    (p.evaluateThrough (triage ++ [.unbounded])).map (·.outcome) =
      (p.conclude .exact finding).map (·.outcome) := by
  let Q : Except Fault (Evaluation Outcome) → Prop := fun result =>
    result.map (·.outcome) = (p.conclude .exact finding).map (·.outcome)
  have hprecision : ∀ precision : Precision, ∃ found,
      Answers precision.rounded (p.findingIn precision) found ∧
        Q (p.conclude precision.stage found) := fun precision =>
    ⟨finding, h precision, map_outcome_conclude _ _ finding⟩
  exact evaluateThrough_of_answers hprecision triage

/-- The precisions of a predicate end in the exact one. -/
theorem exists_precisions_eq (p : Predicate Outcome) :
    ∃ triage, p.precisions = triage ++ [.unbounded] := by
  unfold precisions
  split
  · exact ⟨[.double, .doubleWord], rfl⟩
  · exact ⟨[.double], rfl⟩

theorem Finds.outcome_eq (h : p.Finds finding) :
    p.outcome = (p.conclude .exact finding).map (·.outcome) := by
  obtain ⟨triage, hprecisions⟩ := p.exists_precisions_eq
  rw [outcome, evaluate, hprecisions]
  exact h.map_outcome_evaluateThrough triage

/-- The perturbation is asked only by a precision that finds the input degenerate. -/
theorem exists_degenerate_of_symbolic {list : List Precision} {outcome : Outcome}
    (h : p.evaluateThrough list = .ok ⟨outcome, .symbolic⟩) :
    ∃ precision ∈ list, (p.findingIn precision).run = .ok (some .degenerate) := by
  induction list with
  | nil => cases h
  | cons precision rest ih =>
    cases hrun : (p.findingIn precision).run with
    | error cause =>
      rw [evaluateThrough, hrun] at h
      cases h
    | ok answer =>
      cases answer with
      | none =>
        rw [evaluateThrough_of_none hrun] at h
        obtain ⟨other, hmem, hother⟩ := ih h
        exact ⟨other, List.mem_cons_of_mem _ hmem, hother⟩
      | some finding =>
        rw [evaluateThrough_of_some hrun] at h
        cases finding with
        | degenerate => exact ⟨precision, List.mem_cons_self, hrun⟩
        | decided found =>
          -- a decided finding has the stage of its precision
          cases precision <;> cases h

/-- Every precision agrees with the exact one, and no choice of precisions before the exact one
changes the outcome. -/
structure Coherent (p : Predicate Outcome) : Prop where
  certain : ∃ finding, (p.findingIn .unbounded).run = .ok (some finding)
  agrees : ∀ precision finding, (p.findingIn precision).run = .ok (some finding) →
    (p.findingIn .unbounded).run = .ok (some finding)
  evaluateThrough_eq : ∀ triage : List Precision,
    (p.evaluateThrough (triage ++ [.unbounded])).map (·.outcome) =
      (p.evaluateThrough [.unbounded]).map (·.outcome)
  outcome_eq : p.outcome = (p.evaluateThrough [.unbounded]).map (·.outcome)

/-- The outcome of the exact precision alone, with the perturbation for a degenerate input. -/
def exactOutcome (p : Predicate Outcome) : Except Fault Outcome :=
  (p.evaluateThrough [.unbounded]).map (·.outcome)

theorem Finds.exactOutcome_eq (h : p.Finds finding) :
    p.exactOutcome = (p.conclude .exact finding).map (·.outcome) :=
  h.map_outcome_evaluateThrough []

theorem Finds.coherent (h : p.Finds finding) : p.Coherent where
  certain := ⟨finding, (h .unbounded).run_eq⟩
  agrees := by
    intro precision found hrun
    rw [(h precision).eq_of_run hrun]
    exact (h .unbounded).run_eq
  evaluateThrough_eq := by
    intro triage
    exact (h.map_outcome_evaluateThrough triage).trans (h.map_outcome_evaluateThrough []).symm
  outcome_eq := h.outcome_eq.trans (h.map_outcome_evaluateThrough []).symm

end Predicate

/-- For finite points and radii, each predicate comes to the outcome of its exact evaluation alone,
whichever rounded evaluations are tried first. -/
theorem predicates_coherent {a b c d m n : Point} {r2 : Float} (ha : a.Finite) (hb : b.Finite)
    (hc : c.Finite) (hd : d.Finite) (hm : m.Finite) (hn : n.Finite) (hr2 : r2.isFinite = true) :
    (Orientation.predicate a b c).Coherent ∧
      (∀ perturbed, (Distance.sitePredicate m a b perturbed).Coherent) ∧
      (Distance.radiusPredicate a b r2).Coherent ∧
      (Distance.hemispherePredicate a b).Coherent ∧
      (Edge.distancePredicate m a b r2).Coherent ∧
      (Edge.directionPredicate a b c d).Coherent ∧
      (Crossing.sidePredicate a b n m).Coherent ∧
      (Crossing.orderPredicate a b c d m n).Coherent ∧
      (Voronoi.predicate a b c d r2).Coherent := by
  refine ⟨?_, ?_, ?_, ?_, ?_, ?_, ?_, ?_, ?_⟩
  · exact (Predicate.finds_of_sound fun _ => Orientation.answers_formula ha hb hc).coherent
  · intro perturbed
    exact (Predicate.finds_of_sound fun _ =>
      Distance.answers_siteFormula hm ha hb perturbed).coherent
  · exact (Predicate.finds_of_sound fun _ => Distance.answers_radiusFormula ha hb hr2).coherent
  · exact (Predicate.finds_of_sound fun _ => Distance.answers_hemisphere ha hb).coherent
  · exact (Predicate.finds_of_sound fun _ =>
      Edge.answers_distanceFormula hm ha hb hr2).coherent
  · exact (Predicate.finds_of_sound fun _ => Edge.answers_directionFormula ha hb hc hd).coherent
  · exact (Predicate.finds_of_sound fun _ => Crossing.answers_sideFormula ha hb hn hm).coherent
  · exact (Predicate.finds_of_sound fun _ =>
      Crossing.answers_orderFormula ha hb hc hd hm hn).coherent
  · exact (Predicate.finds_of_sound fun _ => Voronoi.answers_formula ha hb hc hd hr2).coherent

/-- Three points on one great circle: the exact stage finds them degenerate, and the outcome of the
whole cascade is that of the exact stage and its perturbation. -/
theorem predicates_coherent_equator :
    (Orientation.predicate ⟨1, 0, 0⟩ ⟨0, 1, 0⟩ ⟨1, 1, 0⟩).outcome =
        ((Orientation.predicate ⟨1, 0, 0⟩ ⟨0, 1, 0⟩ ⟨1, 1, 0⟩).evaluateThrough
          [.unbounded]).map (·.outcome) ∧
      (Orientation.predicate ⟨1, 0, 0⟩ ⟨0, 1, 0⟩ ⟨1, 1, 0⟩).outcome = .ok .negative := by
  have hradius : (0.5 : Float).isFinite = true := by decide +kernel
  have hcoherent := predicates_coherent (a := ⟨1, 0, 0⟩) (b := ⟨0, 1, 0⟩) (c := ⟨1, 1, 0⟩)
    (d := ⟨0, 0, 1⟩) (m := ⟨1, 1, 1⟩) (n := ⟨1, 2, 3⟩) (by decide +kernel) (by decide +kernel)
    (by decide +kernel) (by decide +kernel) (by decide +kernel) (by decide +kernel) hradius
  exact ⟨hcoherent.1.outcome_eq, by decide +kernel⟩

end ExactSphere
