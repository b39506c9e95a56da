import ExactSphere.Circumcenter
import ExactSphere.Proofs.Verdict.Radical
import ExactSphere.Proofs.Vector

/-!
# The exact side of a circumcenter

The radical sum is found within its budgets. What the formula finds depends on the scalar only for
linearly dependent ends of the edge: zero for good if the scalar knows that their normal is zero,
and a degenerate sum if it only knows that the three terms are.
-/

namespace ExactSphere.Circumcenter

open Certify (Answers)

/-- The ends of an edge are linearly dependent. -/
def Dependent (x0 x1 : Point) : Prop := x0.value.cross x1.value = ⟨0, 0, 0⟩

/-- The normal of the edge. -/
def normal (x0 x1 : Point) : Vec3 Expression := (x0.lift Expression).cross (x1.lift Expression)

/-- The term of one site and the other two in the sum. -/
def term (x0 x1 p q r : Point) : RootTerm Expression :=
  ⟨(p.lift Expression).normSq,
    (normal x0 x1).dot ((q.lift Expression).cross (r.lift Expression))⟩

/-- The exact sign of the sum. -/
def sumVerdict (x0 x1 a b c : Point) : Sign :=
  RootTerm.sumVerdict (term x0 x1 c a b).value (term x0 x1 a b c).value (term x0 x1 b c a).value

variable {α : Type} [Scalar α] {rounded : Bool} {x0 x1 a b c p q r : Point}

theorem fits_normal (hx0 : x0.Finite) (hx1 : x1.Finite) : (normal x0 x1).Fits normalBudget :=
  hx0.fits.cross hx1.fits

theorem fits_term (hx0 : x0.Finite) (hx1 : x1.Finite) (hp : p.Finite) (hq : q.Finite)
    (hr : r.Finite) : (term x0 x1 p q r).Fits termDepths where
  radicand := hp.fits.normSq
  coefficient := (fits_normal hx0 hx1).dot (hq.fits.cross hr.fits)

theorem answers_sum [SoundScalar rounded α] (hx0 : x0.Finite) (hx1 : x1.Finite) (ha : a.Finite)
    (hb : b.Finite) (hc : c.Finite) :
    Answers rounded (RootTerm.sumSign ((term x0 x1 c a b).eval α) ((term x0 x1 a b c).eval α)
      ((term x0 x1 b c a).eval α) termDepths) (sumVerdict x0 x1 a b c) :=
  RootTerm.answers_sumSign (fits_term hx0 hx1 hc ha hb) (fits_term hx0 hx1 ha hb hc)
    (fits_term hx0 hx1 hb hc ha) (by decide)

/-- The formula once it is known what the tests of the normal answer. -/
theorem run_formula {orientation : Sign} {xSign ySign zSign : Option Sign}
    (hx : (sign? ((normal x0 x1).x.eval α) normalBudget).run = .ok xSign)
    (hy : (sign? ((normal x0 x1).y.eval α) normalBudget).run = .ok ySign)
    (hz : (sign? ((normal x0 x1).z.eval α) normalBudget).run = .ok zSign) :
    (formula α x0 x1 a b c orientation).run =
      if xSign = some .zero ∧ ySign = some .zero ∧ zSign = some .zero then
        .ok (some (.decided .zero))
      else
        ((fun side => Finding.nonzero (side * orientation)) <$>
          RootTerm.sumSign ((term x0 x1 c a b).eval α) ((term x0 x1 a b c).eval α)
            ((term x0 x1 b c a).eval α) termDepths).run := by
  refine (Certify.run_attempt_bind hx).trans ((Certify.run_attempt_bind hy).trans
    ((Certify.run_attempt_bind hz).trans ?_))
  split_ifs with hzero
  · rfl
  · exact congrArg OptionT.run (map_eq_pure_bind _ _).symm

/-- The normal vanishes with its components. -/
theorem dependent_iff : Dependent x0 x1 ↔
    (normal x0 x1).x.value = 0 ∧ (normal x0 x1).y.value = 0 ∧ (normal x0 x1).z.value = 0 :=
  iff_of_eq (Vec3.mk.injEq ..)

/-- Without a normal, the terms vanish, and so does their sum. -/
theorem Dependent.verdict_eq_zero (h : Dependent x0 x1) (p q r : Point) :
    (term x0 x1 p q r).value.verdict = .zero := by
  have hcoefficient : (term x0 x1 p q r).coefficient.value = 0 := by
    change (x0.value.cross x1.value).dot (q.value.cross r.value) = 0
    rw [h, Vec3.dot]
    ring
  unfold RootTerm.verdict
  split_ifs
  · rfl
  · exact Sign.of_eq_zero_iff.2 hcoefficient

theorem Dependent.sumVerdict_eq_zero (h : Dependent x0 x1) (a b c : Point) :
    sumVerdict x0 x1 a b c = .zero :=
  RootTerm.sumVerdict_of_zero (h.verdict_eq_zero c a b) (h.verdict_eq_zero a b c)
    (h.verdict_eq_zero b c a)

section Answers

variable [SoundScalar rounded α] (hx0 : x0.Finite) (hx1 : x1.Finite) (ha : a.Finite)
  (hb : b.Finite) (hc : c.Finite) (orientation : Sign)

include hx0 hx1 ha hb hc

/-- Whatever the tests of a normal that is not zero answer, the sum decides. -/
theorem answers_formula_of_independent (h : ¬Dependent x0 x1) :
    Answers rounded (formula α x0 x1 a b c orientation)
      (.nonzero (sumVerdict x0 x1 a b c * orientation)) := by
  have hnormal := fits_normal hx0 hx1
  obtain ⟨xSign, hx, hxs⟩ := (answers_sign? (α := α) _ hnormal.x (by decide)).exists_run
  obtain ⟨ySign, hy, hys⟩ := (answers_sign? (α := α) _ hnormal.y (by decide)).exists_run
  obtain ⟨zSign, hz, hzs⟩ := (answers_sign? (α := α) _ hnormal.z (by decide)).exists_run
  have hzero : ∀ {v : ℚ} {s : Option Sign}, (s = some (Sign.of v) ∨ rounded = true ∧ s = none) →
      s = some .zero → v = 0 := by
    rintro v s (rfl | ⟨-, rfl⟩) hs
    · exact Sign.of_eq_zero_iff.1 (Option.some.inj hs)
    · cases hs
  have hsome : ¬(xSign = some .zero ∧ ySign = some .zero ∧ zSign = some .zero) := by
    rintro ⟨hx0, hy0, hz0⟩
    exact h (dependent_iff.2 ⟨hzero hxs hx0, hzero hys hy0, hzero hzs hz0⟩)
  have hsum := (answers_sum (α := α) hx0 hx1 ha hb hc).map
    (fun side => Finding.nonzero (side * orientation))
  unfold Answers
  rw [run_formula hx hy hz, if_neg hsome]
  exact hsum

/-- A scalar that is sure of the zero normal answers zero. A rounded one that is not may still be
sure of the zero sum, and takes the input for a degenerate one. -/
theorem answers_formula_of_dependent (h : Dependent x0 x1) :
    Answers rounded (formula α x0 x1 a b c orientation) (.decided .zero) ∨
      rounded = true ∧ Answers true (formula α x0 x1 a b c orientation) .degenerate := by
  have hnormal := fits_normal hx0 hx1
  obtain ⟨hx0', hy0', hz0'⟩ := dependent_iff.1 h
  have hxs := answers_sign? (α := α) _ hnormal.x (by decide)
  have hys := answers_sign? (α := α) _ hnormal.y (by decide)
  have hzs := answers_sign? (α := α) _ hnormal.z (by decide)
  rw [hx0', Sign.of_zero] at hxs
  rw [hy0', Sign.of_zero] at hys
  rw [hz0', Sign.of_zero] at hzs
  obtain ⟨xSign, hx, hxs⟩ := hxs.exists_run
  obtain ⟨ySign, hy, hys⟩ := hys.exists_run
  obtain ⟨zSign, hz, hzs⟩ := hzs.exists_run
  have hsum := (answers_sum (α := α) hx0 hx1 ha hb hc).map
    (fun side => Finding.nonzero (side * orientation))
  rw [h.sumVerdict_eq_zero] at hsum
  unfold Answers
  rw [run_formula hx hy hz]
  split_ifs with hzero
  · exact .inl (.inl rfl)
  · have hrounded : rounded = true := by
      rcases hxs with rfl | ⟨hrounded, -⟩
      · rcases hys with rfl | ⟨hrounded, -⟩
        · rcases hzs with rfl | ⟨hrounded, -⟩
          · exact absurd ⟨rfl, rfl, rfl⟩ hzero
          · exact hrounded
        · exact hrounded
      · exact hrounded
    exact .inr ⟨hrounded, hsum.weaken⟩

end Answers

end ExactSphere.Circumcenter
