import ExactSphere.Proofs.Cascade
import ExactSphere.Proofs.Circumcenter
import ExactSphere.Proofs.Guarded

/-!
# Predicates without faults

On finite points and radii the formulas answer in every sound scalar, and a perturbation rule is
there for every input that a formula finds degenerate (`Predicate.Answerable`). Hence no precision
exceeds a budget or leaves its words, the exact one is certain, and the cascade comes to an outcome
(`Predicate.Safe`). The functions of the library have no faults but those of their preconditions.
-/

namespace ExactSphere

open Certify (Answers)

/-- The computation ends without a fault. -/
def Returns {A : Type} (result : Except Fault A) : Prop := ∃ a, result = .ok a

namespace Predicate

variable {Outcome : Type} {p : Predicate Outcome}

/-- The finding of the formula in a precision whose words are watched. -/
def guardedFindingIn (p : Predicate Outcome) : Precision → Certify (Finding Outcome)
  | .double => p.formula (Guarded (Tracked Float))
  | .doubleWord => p.formula (Guarded (Tracked DoubleWord))
  | .unbounded => p.formula (Guarded BigFloat)

/-- Nothing goes wrong in an evaluation, whatever precisions are tried before the exact one. -/
structure Safe (p : Predicate Outcome) : Prop where
  /-- No precision has a fault: no budget is exceeded, and no exact value is NaN. -/
  total : ∀ precision, Returns (p.findingIn precision).run
  /-- No word overflows in any precision. -/
  guarded : ∀ precision, Returns (p.guardedFindingIn precision).run
  /-- The exact precision is certain. -/
  certain : ∃ finding, (p.findingIn .unbounded).run = .ok (some finding)
  /-- A finding is decided, or a perturbation decides it. -/
  settled : ∀ precision finding, (p.findingIn precision).run = .ok (some finding) →
    Returns (p.conclude precision.stage finding)
  evaluates : ∀ triage : List Precision, Returns (p.evaluateThrough (triage ++ [.unbounded]))

/-- The formula answers in every sound scalar, and a perturbation decides degenerate inputs. -/
def Answerable (p : Predicate Outcome) : Prop :=
  ∀ (α : Type) [Scalar α] {rounded : Bool} [SoundScalar rounded α], ∃ finding,
    Answers rounded (p.formula α) finding ∧ (finding = .degenerate → Returns p.tieBreak)

theorem answerable_of_decided {outcome : Outcome}
    (h : ∀ (α : Type) [Scalar α] {rounded : Bool} [SoundScalar rounded α],
      Answers rounded (p.formula α) (.decided outcome)) : p.Answerable := by
  intro α _ rounded _
  exact ⟨.decided outcome, h α, nofun⟩

theorem returns_conclude {finding : Finding Outcome} (stage : Stage)
    (h : finding = .degenerate → Returns p.tieBreak) : Returns (p.conclude stage finding) := by
  cases finding with
  | decided outcome => exact ⟨_, rfl⟩
  | degenerate =>
    obtain ⟨tie, htie⟩ := h rfl
    exact ⟨_, conclude_degenerate htie stage⟩

namespace Answerable

variable (h : p.Answerable)

include h

theorem returns_run (α : Type) [Scalar α] {rounded : Bool} [SoundScalar rounded α] :
    Returns (p.formula α).run := by
  obtain ⟨finding, hanswers, -⟩ := h α
  obtain ⟨answer, hrun, -⟩ := hanswers.exists_run
  exact ⟨answer, hrun⟩

theorem exists_answers (precision : Precision) : ∃ finding,
    Answers precision.rounded (p.findingIn precision) finding ∧
      (finding = .degenerate → Returns p.tieBreak) := by
  cases precision with
  | double => exact h (Tracked Float)
  | doubleWord => exact h (Tracked DoubleWord)
  | unbounded => exact h BigFloat

theorem safe : p.Safe where
  total precision := by
    cases precision with
    | double => exact h.returns_run (Tracked Float)
    | doubleWord => exact h.returns_run (Tracked DoubleWord)
    | unbounded => exact h.returns_run BigFloat
  guarded precision := by
    cases precision with
    | double => exact h.returns_run (Guarded (Tracked Float))
    | doubleWord => exact h.returns_run (Guarded (Tracked DoubleWord))
    | unbounded => exact h.returns_run (Guarded BigFloat)
  certain := by
    obtain ⟨finding, hanswers, -⟩ := h BigFloat
    exact ⟨finding, hanswers.run_eq⟩
  settled precision finding hrun := by
    obtain ⟨found, hanswers, htie⟩ := h.exists_answers precision
    rw [hanswers.eq_of_run hrun]
    exact returns_conclude _ htie
  evaluates := by
    refine evaluateThrough_of_answers fun precision => ?_
    obtain ⟨finding, hanswers, htie⟩ := h.exists_answers precision
    exact ⟨finding, hanswers, returns_conclude _ htie⟩

end Answerable

theorem Safe.returns_outcome (h : p.Safe) : Returns p.outcome := by
  obtain ⟨triage, hprecisions⟩ := p.exists_precisions_eq
  obtain ⟨evaluation, hevaluation⟩ := h.evaluates triage
  rw [outcome, evaluate, hprecisions, hevaluation]
  exact ⟨_, rfl⟩

end Predicate

/-! ## The predicates -/

section Predicates

variable {a b c d m n x0 x1 : Point} {r2 : Float}

theorem Orientation.answerable (ha : a.Finite) (hb : b.Finite) (hc : c.Finite) :
    (predicate a b c).Answerable := by
  intro α _ rounded _
  exact ⟨verdict a b c, answers_formula ha hb hc, fun _ => ⟨_, rfl⟩⟩

theorem Distance.answerable (hm : m.Finite) (ha : a.Finite) (hb : b.Finite) (perturbed : Bool) :
    (sitePredicate m a b perturbed).Answerable := by
  intro α _ rounded _
  exact ⟨siteVerdict m a b perturbed, answers_siteFormula hm ha hb perturbed, fun _ => ⟨_, rfl⟩⟩

/-- Touching intervals are settled by the perturbation. -/
theorem Voronoi.returns_displaced (ha : a.Finite) (hb : b.Finite) (hx0 : x0.Finite)
    (hx1 : x1.Finite) (hr2 : r2.isFinite = true) (h : verdict a b x0 x1 r2 = .degenerate) :
    Returns (displaced a b x0 x1 r2) := by
  have hrun := (answers_containment (α := BigFloat) ha hb hx0 hx1 hr2).run_eq
  unfold verdict at h
  unfold displaced
  rw [hrun]
  cases hcontainment : containmentVerdict a b x0 x1 r2 with
  | settled excluded =>
    rw [hcontainment] at h
    cases h
  | touching candidate => cases candidate <;> exact ⟨_, rfl⟩

theorem Voronoi.answerable (ha : a.Finite) (hb : b.Finite) (hx0 : x0.Finite) (hx1 : x1.Finite)
    (hr2 : r2.isFinite = true) : (predicate a b x0 x1 r2).Answerable := by
  intro α _ rounded _
  exact ⟨verdict a b x0 x1 r2, answers_formula ha hb hx0 hx1 hr2,
    returns_displaced ha hb hx0 hx1 hr2⟩

/-- Linearly dependent ends may be taken for degenerate ones, but a perturbation decides them. -/
theorem Circumcenter.answerable (hx0 : x0.Finite) (hx1 : x1.Finite) (ha : a.Finite) (hb : b.Finite)
    (hc : c.Finite) (hends : x0.same x1 = false) (hsites : Orientation.repeated a b c = false)
    (orientation : Sign) : (predicate x0 x1 a b c orientation).Answerable := by
  obtain ⟨tie, htie, -⟩ := exists_displaced hx0 hx1 ha hb hc hends hsites
  intro α _ rounded _
  by_cases h : Dependent x0 x1
  · rcases answers_formula_of_dependent (α := α) hx0 hx1 ha hb hc orientation h with
      hzero | ⟨rfl, hdegenerate⟩
    · exact ⟨_, hzero, nofun⟩
    · exact ⟨_, hdegenerate, fun _ => ⟨tie, htie⟩⟩
  · exact ⟨_, answers_formula_of_independent hx0 hx1 ha hb hc orientation h,
      fun _ => ⟨tie, htie⟩⟩

/-- The predicates of the library are safe. That of a circumcenter is asked for different ends of
the edge and different sites only. -/
structure SafePredicates (a b c d m n : Point) (r2 : Float) : Prop where
  orientation : (Orientation.predicate a b c).Safe
  site : ∀ perturbed, (Distance.sitePredicate m a b perturbed).Safe
  radius : (Distance.radiusPredicate m a r2).Safe
  hemisphere : (Distance.hemispherePredicate a b).Safe
  distance : (Edge.distancePredicate m a b r2).Safe
  direction : (Edge.directionPredicate a b c d).Safe
  side : (Crossing.sidePredicate a b n m).Safe
  order : (Crossing.orderPredicate a b c d m n).Safe
  circumcenter : m.same n = false → Orientation.repeated a b c = false →
    ∀ orientation, (Circumcenter.predicate m n a b c orientation).Safe
  exclusion : (Voronoi.predicate a b m n r2).Safe

theorem safePredicates (ha : a.Finite) (hb : b.Finite) (hc : c.Finite) (hd : d.Finite)
    (hm : m.Finite) (hn : n.Finite) (hr2 : r2.isFinite = true) :
    SafePredicates a b c d m n r2 where
  orientation := (Orientation.answerable ha hb hc).safe
  site perturbed := (Distance.answerable hm ha hb perturbed).safe
  radius := (Predicate.answerable_of_decided fun _ =>
    Distance.answers_radiusFormula hm ha hr2).safe
  hemisphere := (Predicate.answerable_of_decided fun _ => Distance.answers_hemisphere ha hb).safe
  distance := (Predicate.answerable_of_decided fun _ =>
    Edge.answers_distanceFormula hm ha hb hr2).safe
  direction := (Predicate.answerable_of_decided fun _ =>
    Edge.answers_directionFormula ha hb hc hd).safe
  side := (Predicate.answerable_of_decided fun _ => Crossing.answers_sideFormula ha hb hn hm).safe
  order := (Predicate.answerable_of_decided fun _ =>
    Crossing.answers_orderFormula ha hb hc hd hm hn).safe
  circumcenter hends hsites orientation :=
    (Circumcenter.answerable hm hn ha hb hc hends hsites orientation).safe
  exclusion := (Voronoi.answerable ha hb hm hn hr2).safe

end Predicates

/-! ## The functions -/

/-- The functions of the library return, but for the faults of two preconditions: an edge has no
antipodal ends, and an exclusion is asked within 90 degrees for the nearer site at the start. -/
structure Total (a b c d m n : Point) (r2 : Float) : Prop where
  orientation : Returns (Orientation.of a b c)
  sweepsInOrder : Returns (Orientation.sweepsInOrder a b c d)
  nearer : Returns (Distance.nearer m a b)
  nearerPerturbed : Returns (Distance.nearerPerturbed m a b)
  withinRadius : Returns (Distance.withinRadius m a r2)
  hemisphere : Returns (Distance.hemisphere a b)
  edgeWithinRadius : a.same (-b) = false → Returns (Edge.withinRadius m a b r2)
  edge_antipodal : a.same (-b) = true → Edge.withinRadius m a b r2 = .error .antipodalEdge
  alignment : Returns (Edge.alignment a b c d)
  crossingSide : Returns (Crossing.side a b n m)
  crossingNearer : Returns (Crossing.nearer a b c d m n)
  circumcenterSide : Returns (Circumcenter.side m n a b c)
  exclusion : r2 < 2 → Distance.nearerPerturbed m a b = .ok .lt →
    Returns (Voronoi.exclusion a b m n r2)
  exclusion_radius : ¬r2 < 2 → Voronoi.exclusion a b m n r2 = .error .radiusTooLarge
  exclusion_order : r2 < 2 → Distance.nearerPerturbed m a b ≠ .ok .lt →
    Voronoi.exclusion a b m n r2 = .error .sitesOutOfOrder

section Functions

variable {a b c d m n : Point} {r2 : Float}

theorem Orientation.returns_of (ha : a.Finite) (hb : b.Finite) (hc : c.Finite) :
    Returns (of a b c) :=
  (answerable ha hb hc).safe.returns_outcome

theorem Orientation.returns_sweepsInOrder (ha : a.Finite) (hb : b.Finite) (hc : c.Finite)
    (hd : d.Finite) : Returns (sweepsInOrder a b c d) := by
  obtain ⟨ab, hab⟩ := returns_of hb hd ha
  obtain ⟨bc, hbc⟩ := returns_of hc hd hb
  obtain ⟨ca, hca⟩ := returns_of ha hd hc
  rw [sweepsInOrder, hab, hbc, hca]
  exact ⟨_, rfl⟩

theorem Circumcenter.returns_side (hm : m.Finite) (hn : n.Finite) (ha : a.Finite) (hb : b.Finite)
    (hc : c.Finite) : Returns (side m n a b c) := by
  obtain ⟨s, hs, -⟩ := exists_side hm hn ha hb hc
  exact ⟨s, hs⟩

theorem Edge.withinRadius_of_antipodal (h : a.same (-b) = true) :
    withinRadius m a b r2 = .error .antipodalEdge := if_pos h

theorem Edge.returns_withinRadius (ha : a.Finite) (hb : b.Finite) (hm : m.Finite)
    (hr2 : r2.isFinite = true) (h : a.same (-b) = false) : Returns (withinRadius m a b r2) := by
  rw [withinRadius, h]
  exact (Predicate.answerable_of_decided fun _ =>
    answers_distanceFormula hm ha hb hr2).safe.returns_outcome

theorem Voronoi.exclusion_of_radius (h : ¬r2 < 2) :
    exclusion a b m n r2 = .error .radiusTooLarge := by
  unfold exclusion
  rw [if_pos h]
  rfl

/-- The exclusion once the nearer site at the start is known. -/
theorem Voronoi.exclusion_eq {first : Ordering} (hradius : r2 < 2)
    (hfirst : Distance.nearerPerturbed m a b = .ok first) :
    exclusion a b m n r2 =
      if first ≠ .lt then .error .sitesOutOfOrder
      else (Distance.nearerPerturbed n a b).bind fun second =>
        if second = .lt then .ok .second else (predicate a b m n r2).outcome := by
  unfold exclusion
  rw [if_neg (not_not.2 hradius), hfirst]
  rfl

theorem Voronoi.exclusion_of_order (ha : a.Finite) (hb : b.Finite) (hm : m.Finite)
    (hradius : r2 < 2) (h : Distance.nearerPerturbed m a b ≠ .ok .lt) :
    exclusion a b m n r2 = .error .sitesOutOfOrder := by
  obtain ⟨first, hfirst⟩ := (Distance.answerable hm ha hb true).safe.returns_outcome
  have hne : first ≠ .lt := by
    rintro rfl
    exact h hfirst
  rw [exclusion_eq hradius hfirst, if_pos hne]

theorem Voronoi.returns_exclusion (ha : a.Finite) (hb : b.Finite) (hm : m.Finite) (hn : n.Finite)
    (hr2 : r2.isFinite = true) (hradius : r2 < 2)
    (h : Distance.nearerPerturbed m a b = .ok .lt) : Returns (exclusion a b m n r2) := by
  obtain ⟨second, hsecond⟩ := (Distance.answerable hn ha hb true).safe.returns_outcome
  have hsecond : Distance.nearerPerturbed n a b = .ok second := hsecond
  rw [exclusion_eq hradius h, if_neg (not_not.2 rfl), hsecond]
  change Returns (if second = .lt then .ok .second else (predicate a b m n r2).outcome)
  split_ifs
  · exact ⟨_, rfl⟩
  · exact (answerable ha hb hm hn hr2).safe.returns_outcome

/-- For finite points and radii, no evaluation has a fault, and only the preconditions of an edge
and of an exclusion keep a function from returning. No word of exact arithmetic overflows. Within
the budgets, no depth does either, and no exact value is NaN. -/
theorem safe_of_finite (ha : a.Finite) (hb : b.Finite) (hc : c.Finite) (hd : d.Finite)
    (hm : m.Finite) (hn : n.Finite) (hr2 : r2.isFinite = true) :
    SafePredicates a b c d m n r2 ∧ Total a b c d m n r2 ∧
      (∀ e : Expression, (e.eval (Guarded BigFloat)).fits = true) ∧
      ∀ e : Expression, e.Fits 64 → (e.eval (Guarded (Tracked Float))).fits = true ∧
        (e.eval (Guarded (Tracked DoubleWord))).fits = true ∧
        (e.eval BigFloat).isNaN = false := by
  have hsafe := safePredicates ha hb hc hd hm hn hr2
  refine ⟨hsafe, ?total, BigFloat.fits_eval, ?budgets⟩
  case total =>
    exact {
      orientation := hsafe.orientation.returns_outcome
      sweepsInOrder := Orientation.returns_sweepsInOrder ha hb hc hd
      nearer := (hsafe.site false).returns_outcome
      nearerPerturbed := (hsafe.site true).returns_outcome
      withinRadius := hsafe.radius.returns_outcome
      hemisphere := hsafe.hemisphere.returns_outcome
      edgeWithinRadius := Edge.returns_withinRadius ha hb hm hr2
      edge_antipodal := Edge.withinRadius_of_antipodal
      alignment := hsafe.direction.returns_outcome
      crossingSide := hsafe.side.returns_outcome
      crossingNearer := hsafe.order.returns_outcome
      circumcenterSide := Circumcenter.returns_side hm hn ha hb hc
      exclusion := Voronoi.returns_exclusion ha hb hm hn hr2
      exclusion_radius := Voronoi.exclusion_of_radius
      exclusion_order := Voronoi.exclusion_of_order ha hb hm }
  case budgets =>
    intro e he
    exact ⟨WordSafe.fits_eval he, WordSafe.fits_eval he, he.represents.isNaN_eq_false⟩

/-- Antipodal sites are no edge. The first one is nearer to the start of an edge whose ends are
linearly dependent. -/
theorem safe_of_finite_antipodal :
    Edge.withinRadius ⟨2, 1, 0⟩ ⟨1, 0, 0⟩ ⟨-1, 0, 0⟩ 1 = .error .antipodalEdge ∧
      Returns (Circumcenter.side ⟨2, 1, 0⟩ ⟨4, 2, 0⟩ ⟨1, 0, 0⟩ ⟨-1, 0, 0⟩ ⟨0, 1, 0⟩) ∧
      Returns (Voronoi.exclusion ⟨1, 0, 0⟩ ⟨-1, 0, 0⟩ ⟨2, 1, 0⟩ ⟨4, 2, 0⟩ 1) := by
  have hradius : (1 : Float).isFinite = true := by decide +kernel
  obtain ⟨-, htotal, -, -⟩ := safe_of_finite (a := ⟨1, 0, 0⟩) (b := ⟨-1, 0, 0⟩) (c := ⟨0, 1, 0⟩)
    (d := ⟨0, 0, 1⟩) (m := ⟨2, 1, 0⟩) (n := ⟨4, 2, 0⟩) (by decide +kernel) (by decide +kernel)
    (by decide +kernel) (by decide +kernel) (by decide +kernel) (by decide +kernel) hradius
  exact ⟨htotal.edge_antipodal (by decide +kernel), htotal.circumcenterSide,
    htotal.exclusion (by decide +kernel) (by decide +kernel)⟩

end Functions

end ExactSphere
