import ExactSphere.Proofs.BigFloat.Order
import ExactSphere.Proofs.Guarded
import ExactSphere.Proofs.Verdict.Distance
import ExactSphere.Proofs.Verdict.Orientation

/-!
# Alternative formulas in exact numbers

Formulas that are more accurate in rounded arithmetic stand beside the plain ones: a determinant
from edges, and comparisons of angles by sines. In exact numbers they say the same
(`alternatives_agree`). The determinant is one number for every choice of edges, also if the
rounded lengths overflow. The comparisons by sines answer if the angles lie on one side of 90
degrees and the short chords are vectors of doubles, and then as the comparisons by cosines do.
-/

namespace ExactSphere

open Certify (Settled)

/-! ## Determinants -/

namespace BigFloat

variable {x y : BigFloat} {v : ℚ}

theorem Represents.extended_eq (h : Represents x v) : x.extended = ((v : ℝ) : EReal) := by
  cases h <;> rfl

/-- Expressions of one value evaluate to equal numbers. -/
theorem beq_eval {e f : Expression} {k : ℕ} (he : e.Fits k) (hf : f.Fits k) (hk : k ≤ 64)
    (h : e.value = f.value) : (e.eval BigFloat == f.eval BigFloat) = true := by
  have hx := he.represents hk
  have hy := hf.represents hk
  rw [beq_iff_extended_eq (canonical_eval e) (canonical_eval f) hx.isNaN_eq_false
    hy.isNaN_eq_false, hx.extended_eq, hy.extended_eq, h]

end BigFloat

namespace Orientation

variable {a b c : Point}

theorem edgeDeterminant_beq (ha : a.Finite) (hb : b.Finite) (hc : c.Finite) :
    (edgeDeterminant BigFloat a b c == determinant BigFloat a b c) = true := by
  have hdirect := (fits_determinant ha hb hc).mono (j := edgeDeterminantBudget) (by decide)
  have hbeq := BigFloat.beq_eval (fits_edgeDeterminant ha hb hc) hdirect (by decide)
    (value_edgeDeterminant a b c)
  rwa [eval_edgeDeterminant] at hbeq

theorem value_edgeDeterminant_bigFloat (ha : a.Finite) (hb : b.Finite) (hc : c.Finite) :
    (edgeDeterminant BigFloat a b c).value = (a.value.cross b.value).dot c.value := by
  have hvalue := ((fits_edgeDeterminant ha hb hc).represents (by decide)).value_eq
  rwa [eval_edgeDeterminant, value_edgeDeterminant] at hvalue

end Orientation

namespace Distance

/-! ## Short chords -/

open Binary64 (datum value)

/-- If the sum of two doubles is a double, then the rounded sum has the error zero. -/
theorem exactSum?_of_datum {a b s : Float} {x y : ℚ} (ha : datum a = .number x)
    (hb : datum b = .number y) (hs : datum s = .number (x + y)) :
    exactSum? a b = some (a + b) := by
  have hrep := Binary64.representable_of_datum hs
  have hsteps := ErrorFree.FiniteSteps.of_representable ha hb hrep (Binary64.abs_lt_of_datum hs)
  obtain ⟨-, herror⟩ := hsteps.datum_twoSum
  rw [Binary64.value_of_datum ha, Binary64.value_of_datum hb, Binary64.nearest_eq_self hrep,
    sub_self] at herror
  unfold exactSum?
  exact if_pos (Binary64.beq_zero_iff.2 herror)

theorem exactSum?_of_value {a b s : Float} (ha : a.isFinite = true) (hb : b.isFinite = true)
    (hs : s.isFinite = true) (hvalue : value s = value a + value b) :
    exactSum? a b = some (a + b) :=
  exactSum?_of_datum (Binary64.isFinite_iff.1 ha) (Binary64.isFinite_iff.1 hb)
    (hvalue ▸ Binary64.isFinite_iff.1 hs)

/-- A rounded sum passes as exact just if it is the sum. -/
theorem exactSum?_eq_some_iff {a b s : Float} (ha : a.isFinite = true) (hb : b.isFinite = true) :
    exactSum? a b = some s ↔ s = a + b ∧ s.isFinite = true ∧ value s = value a + value b := by
  constructor
  · intro h
    obtain ⟨hs, hvalue⟩ := value_of_exactSum? h
    have hsum := exactSum?_of_value ha hb hs hvalue
    exact ⟨Option.some.inj (h.symm.trans hsum), hs, hvalue⟩
  · rintro ⟨rfl, hs, hvalue⟩
    exact exactSum?_of_value ha hb hs hvalue

/-- The sum of two doubles is found just if it is one. -/
theorem exactSum?_isSome_iff {a b : Float} (ha : a.isFinite = true) (hb : b.isFinite = true) :
    (exactSum? a b).isSome = true ↔
      ∃ s : Float, s.isFinite = true ∧ value s = value a + value b := by
  rw [Option.isSome_iff_exists]
  constructor
  · rintro ⟨s, h⟩
    exact ⟨s, value_of_exactSum? h⟩
  · rintro ⟨s, hs, hvalue⟩
    exact ⟨a + b, exactSum?_of_value ha hb hs hvalue⟩

/-- The shorter of the two vectors whose product is `2 (x × y)`, as the rounded scalar product
tells it. -/
def shortChord (x y : Point) : Vec3 ℚ :=
  if 0 ≤ x.dot y then x.value - y.value else x.value + y.value

/-- The shorter vector has doubles for coordinates. -/
def ChordExact (x y : Point) : Prop := ∃ short : Point, short.Finite ∧ short.value = shortChord x y

/-- A vector sum, from which `f` goes on, is found just if its coordinates are doubles. -/
theorem exactSums?_isSome_iff {B : Type} {p q : Point} (hp : p.Finite) (hq : q.Finite)
    (f : Point → B) :
    (do return f ⟨← exactSum? p.x q.x, ← exactSum? p.y q.y, ← exactSum? p.z q.z⟩ :
      Option B).isSome = true ↔ ∃ s : Point, s.Finite ∧ s.value = p.value + q.value := by
  have hparts : (do return f ⟨← exactSum? p.x q.x, ← exactSum? p.y q.y, ← exactSum? p.z q.z⟩ :
      Option B).isSome = true ↔ (exactSum? p.x q.x).isSome = true ∧
        (exactSum? p.y q.y).isSome = true ∧ (exactSum? p.z q.z).isSome = true := by
    cases exactSum? p.x q.x <;> cases exactSum? p.y q.y <;> cases exactSum? p.z q.z <;> simp
  rw [hparts, exactSum?_isSome_iff hp.1 hq.1, exactSum?_isSome_iff hp.2.1 hq.2.1,
    exactSum?_isSome_iff hp.2.2 hq.2.2]
  constructor
  · rintro ⟨⟨sx, hfx, hx⟩, ⟨sy, hfy, hy⟩, ⟨sz, hfz, hz⟩⟩
    refine ⟨⟨sx, sy, sz⟩, ⟨hfx, hfy, hfz⟩, ?_⟩
    change Vec3.mk _ _ _ = Vec3.mk _ _ _
    rw [hx, hy, hz]
    rfl
  · rintro ⟨s, ⟨hfx, hfy, hfz⟩, hvalue⟩
    exact ⟨⟨s.x, hfx, congrArg Vec3.x hvalue⟩, ⟨s.y, hfy, congrArg Vec3.y hvalue⟩,
      ⟨s.z, hfz, congrArg Vec3.z hvalue⟩⟩

section Sines

variable {α : Type} [Scalar α] {x y a b : Point}

/-- The vector is found just if its shorter factor is exact. -/
theorem exists_sineVector?_iff (hx : x.Finite) (hy : y.Finite) :
    (∃ v, sineVector? α x y = some v) ↔ ChordExact x y := by
  rw [← Option.isSome_iff_exists]
  unfold sineVector? ChordExact shortChord
  by_cases hnear : 0 ≤ x.dot y
  · simp only [hnear, decide_true, if_true]
    have hsums := exactSums?_isSome_iff hx hy.neg
      fun short => (short.lift α).cross (x.lift α + y.lift α)
    rw [Point.value_neg, Vec3.add_neg] at hsums
    exact hsums
  · simp only [hnear, decide_false, Bool.false_eq_true, if_false]
    exact exactSums?_isSome_iff hx hy fun short => (short.lift α).cross (x.lift α - y.lift α)

/-! ## Comparisons by sines -/

/-- The comparison by sines answers if both angles are on one side of 90 degrees and the short
chords are vectors of doubles. -/
theorem settled_sineOrder_iff [SoundScalar false α] (hx : x.Finite) (ha : a.Finite)
    (hb : b.Finite) :
    Settled (sineOrder α x a b) ↔
      Sign.of (x.value.dot a.value) ≠ .zero ∧
        Sign.of (x.value.dot b.value) = Sign.of (x.value.dot a.value) ∧
        ChordExact x a ∧ ChordExact x b := by
  have haSign := answers_sign? (α := α) dotBudget (hx.fits.dot ha.fits) (by decide)
  have hbSign := answers_sign? (α := α) dotBudget (hx.fits.dot hb.fits) (by decide)
  simp only [Vec3.value_dot, Point.value_lift] at haSign hbSign
  unfold sineOrder
  refine (Certify.settled_bind_iff haSign).trans ?_
  split_ifs with hzero
  · exact iff_of_false Certify.not_settled_undecided fun h => h.1 hzero
  refine (Certify.settled_bind_iff hbSign).trans ?_
  split_ifs with hsigns
  · exact iff_of_false Certify.not_settled_undecided fun h => hsigns h.2.1
  rw [Certify.settled_ofOption_bind_iff]
  constructor
  · rintro ⟨crossA, hcrossA, hrest⟩
    obtain ⟨crossB, hcrossB, -⟩ := Certify.settled_ofOption_bind_iff.1 hrest
    exact ⟨hzero, not_not.1 hsigns, (exists_sineVector?_iff hx ha).1 ⟨crossA, hcrossA⟩,
      (exists_sineVector?_iff hx hb).1 ⟨crossB, hcrossB⟩⟩
  · rintro ⟨-, -, hchordA, hchordB⟩
    obtain ⟨crossA, hcrossA⟩ := (exists_sineVector?_iff (α := α) hx ha).2 hchordA
    obtain ⟨crossB, hcrossB⟩ := (exists_sineVector?_iff (α := α) hx hb).2 hchordB
    refine ⟨crossA, hcrossA, Certify.settled_ofOption_bind_iff.2 ⟨crossB, hcrossB, ?_⟩⟩
    obtain ⟨wA, rfl, hwA, -⟩ := exists_of_sineVector? hx ha hcrossA
    obtain ⟨wB, rfl, hwB, -⟩ := exists_of_sineVector? hx hb hcrossB
    have hsquaresSign := answers_sign? (α := α) sineBudget
      ((hwA.normSq.mul hb.fits.normSq).sub (hwB.normSq.mul ha.fits.normSq)) (by decide)
    exact (Certify.settled_bind_iff hsquaresSign).2 ⟨_, rfl⟩

/-- The comparison with a radius by sines answers if the angle is below 90 degrees and the short
chord is a vector of doubles. -/
theorem settled_sineRadiusOrder_iff [SoundScalar false α] {r2 : Float} (hx : x.Finite)
    (hy : y.Finite) (hr2 : r2.isFinite = true) :
    Settled (sineRadiusOrder α x y r2) ↔
      Sign.of (x.value.dot y.value) = .positive ∧ ChordExact x y := by
  have hradius : (Scalar.ofFloat r2 : Expression).Fits 0 := .leaf hr2
  have hangleSign := answers_sign? (α := α) dotBudget (hx.fits.dot hy.fits) (by decide)
  simp only [Vec3.value_dot, Point.value_lift] at hangleSign
  unfold sineRadiusOrder
  refine (Certify.settled_bind_iff hangleSign).trans ?_
  split_ifs with hpositive
  · exact iff_of_false Certify.not_settled_undecided fun h => hpositive h.1
  rw [Certify.settled_ofOption_bind_iff]
  constructor
  · rintro ⟨cross, hcross, -⟩
    exact ⟨not_not.1 hpositive, (exists_sineVector?_iff hx hy).1 ⟨cross, hcross⟩⟩
  · rintro ⟨-, hchord⟩
    obtain ⟨cross, hcross⟩ := (exists_sineVector?_iff (α := α) hx hy).2 hchord
    refine ⟨cross, hcross, ?_⟩
    obtain ⟨w, rfl, hw, -⟩ := exists_of_sineVector? hx hy hcross
    have hsinSq := (Expression.Fits.four.mul hradius).mul
      (Expression.Fits.one.sub (Expression.Fits.quarter.mul hradius))
    have hsquaresSign := answers_sign? (α := α) sineRadiusBudget
      (hw.normSq.sub (hsinSq.mul (hx.fits.normSq.mul hy.fits.normSq))) (by decide)
    exact (Certify.settled_bind_iff hsquaresSign).2 ⟨_, rfl⟩

end Sines

section Agreement

variable {x a b : Point} {o : Ordering}

/-- An answer by sines is the answer by cosines. -/
theorem run_cosineOrder_of_sineOrder (hx : x.Finite) (ha : a.Finite) (hb : b.Finite)
    (h : (sineOrder BigFloat x a b).run = .ok (some o)) (budgets : CosineBudgets) :
    (cosineOrder (x.lift BigFloat) (a.lift BigFloat) (b.lift BigFloat) budgets).run =
      .ok (some o) := by
  have hcosine := answers_cosineOrder (α := BigFloat) pointCosines hx.fits ha.fits hb.fits
    (by decide) (by decide) (by decide) (by decide)
  rw [(answers_sineOrder hx ha hb).eq_of_run h]
  -- exact numbers take no notice of a budget
  exact hcosine.run_eq

theorem run_cosineRadiusOrder_of_sineRadiusOrder {r2 : Float} (hx : x.Finite) (ha : a.Finite)
    (hr2 : r2.isFinite = true) (hlimit : r2 < sineRadiusLimit)
    (h : (sineRadiusOrder BigFloat x a r2).run = .ok (some o)) :
    (cosineRadiusOrder (x.lift BigFloat) (a.lift BigFloat) r2).run = .ok (some o) := by
  have hcosine := answers_cosineRadiusOrder (α := BigFloat) hx.fits ha.fits hr2
  rw [(answers_sineRadiusOrder hx ha hr2 (value_lt_two_of_lt hr2 hlimit)).eq_of_run h]
  exact hcosine.run_eq

end Agreement
end Distance

open Distance in
/-- In exact numbers the alternative formulas say what the plain ones say. The determinant from
edges is the determinant. The comparisons by sines answer just if the angles lie on one side of 90
degrees and the short chords are vectors of doubles, and their answers are those by cosines. -/
theorem alternatives_agree {x a b : Point} {r2 : Float} (hx : x.Finite) (ha : a.Finite)
    (hb : b.Finite) (hr2 : r2.isFinite = true) :
    ((Orientation.edgeDeterminant BigFloat x a b == Orientation.determinant BigFloat x a b) = true ∧
      (Orientation.edgeDeterminant BigFloat x a b).value =
        (x.value.cross a.value).dot b.value) ∧
    ((Settled (sineOrder BigFloat x a b) ↔
        Sign.of (x.value.dot a.value) ≠ .zero ∧
          Sign.of (x.value.dot b.value) = Sign.of (x.value.dot a.value) ∧
          ChordExact x a ∧ ChordExact x b) ∧
      ∀ o budgets, (sineOrder BigFloat x a b).run = .ok (some o) →
        (cosineOrder (x.lift BigFloat) (a.lift BigFloat) (b.lift BigFloat) budgets).run =
          .ok (some o)) ∧
    ((Settled (sineRadiusOrder BigFloat x a r2) ↔
        Sign.of (x.value.dot a.value) = .positive ∧ ChordExact x a) ∧
      ∀ o, r2 < sineRadiusLimit → (sineRadiusOrder BigFloat x a r2).run = .ok (some o) →
        (cosineRadiusOrder (x.lift BigFloat) (a.lift BigFloat) r2).run = .ok (some o)) ∧
    ∀ u v s : Float, u.isFinite = true → v.isFinite = true →
      (exactSum? u v = some s ↔
        s = u + v ∧ s.isFinite = true ∧
          Binary64.value s = Binary64.value u + Binary64.value v) :=
  ⟨⟨Orientation.edgeDeterminant_beq hx ha hb,
      Orientation.value_edgeDeterminant_bigFloat hx ha hb⟩,
    ⟨settled_sineOrder_iff hx ha hb,
      fun _ budgets h => run_cosineOrder_of_sineOrder hx ha hb h budgets⟩,
    ⟨settled_sineRadiusOrder_iff hx ha hr2,
      fun _ hlimit h => run_cosineRadiusOrder_of_sineRadiusOrder hx ha hr2 hlimit h⟩,
    fun _ _ _ hu hv => exactSum?_eq_some_iff hu hv⟩

/-- The lengths of the edges overflow in the first part. In the second the angles are beyond 90
degrees, where the larger sine is the smaller angle. -/
theorem alternatives_agree_far :
    ((⟨1e300, 0, 0⟩ - ⟨0, 1e300, 0⟩ : Point).normSq.isFinite = false ∧
      (Orientation.edgeDeterminant BigFloat ⟨1e300, 0, 0⟩ ⟨0, 1e300, 0⟩ ⟨0, 0, 1e300⟩ ==
        Orientation.determinant BigFloat ⟨1e300, 0, 0⟩ ⟨0, 1e300, 0⟩ ⟨0, 0, 1e300⟩) = true) ∧
    ((Distance.sineOrder BigFloat ⟨1, 0, 0⟩ ⟨-1, 0.25, 0⟩ ⟨-1, 0, 0.5⟩).run = .ok (some .gt) ∧
      (Distance.cosineOrder (Point.lift BigFloat ⟨1, 0, 0⟩) (Point.lift BigFloat ⟨-1, 0.25, 0⟩)
        (Point.lift BigFloat ⟨-1, 0, 0.5⟩) Distance.pointCosines).run = .ok (some .gt)) ∧
    ((Distance.sineRadiusOrder BigFloat ⟨1, 0, 0⟩ ⟨1, 0.25, 0⟩ 0.5).run = .ok (some .lt) ∧
      (Distance.cosineRadiusOrder (Point.lift BigFloat ⟨1, 0, 0⟩)
        (Point.lift BigFloat ⟨1, 0.25, 0⟩) 0.5).run = .ok (some .lt)) := by
  have hsine : (Distance.sineOrder BigFloat ⟨1, 0, 0⟩ ⟨-1, 0.25, 0⟩ ⟨-1, 0, 0.5⟩).run =
      .ok (some .gt) := by decide +kernel
  have hsineRadius : (Distance.sineRadiusOrder BigFloat ⟨1, 0, 0⟩ ⟨1, 0.25, 0⟩ 0.5).run =
      .ok (some .lt) := by decide +kernel
  have hzero : (0 : Float).isFinite = true := by decide +kernel
  have hhalf : (0.5 : Float).isFinite = true := by decide +kernel
  refine ⟨⟨by decide +kernel, ?_⟩, ⟨hsine, ?_⟩, ⟨hsineRadius, ?_⟩⟩
  · exact (alternatives_agree (by decide +kernel) (by decide +kernel) (by decide +kernel)
      hzero).1.1
  · exact (alternatives_agree (by decide +kernel) (by decide +kernel) (by decide +kernel)
      hzero).2.1.2 _ _ hsine
  · have hlimit : (0.5 : Float) < Distance.sineRadiusLimit := by decide +kernel
    exact (alternatives_agree (b := ⟨0, 0, 1⟩) (by decide +kernel) (by decide +kernel)
      (by decide +kernel) hhalf).2.2.1.2 _ hlimit hsineRadius

end ExactSphere
