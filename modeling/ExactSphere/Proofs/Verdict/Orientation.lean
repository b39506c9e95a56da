import ExactSphere.Orientation
import ExactSphere.Proofs.SoundScalar
import ExactSphere.Proofs.Vector

/-!
# The exact orientation

Both forms of the determinant have the value of the exact determinant, whichever edges the rounded
lengths single out. Hence the formula finds its sign in every sound scalar.
-/

namespace ExactSphere.Orientation

open Certify (Answers)

/-- What the exact coordinates say about the orientation. -/
def verdict (a b c : Point) : Finding Sign :=
  if repeated a b c then .decided .zero
  else .nonzero (Sign.of ((a.value.cross b.value).dot c.value))

variable {α : Type} [Scalar α] {a b c : Point}

theorem fits_determinant (ha : a.Finite) (hb : b.Finite) (hc : c.Finite) :
    (determinant Expression a b c).Fits determinantBudget :=
  (ha.fits.cross hb.fits).dot hc.fits

theorem eval_edgeDeterminant (a b c : Point) :
    (edgeDeterminant Expression a b c).eval α = edgeDeterminant α a b c := by
  unfold edgeDeterminant
  dsimp only
  split_ifs <;> rfl

theorem fits_edgeDeterminant (ha : a.Finite) (hb : b.Finite) (hc : c.Finite) :
    (edgeDeterminant Expression a b c).Fits edgeDeterminantBudget := by
  have hab := hb.fits.sub ha.fits
  have hbc := hc.fits.sub hb.fits
  have hca := ha.fits.sub hc.fits
  unfold edgeDeterminant
  dsimp only
  split_ifs
  · exact ((hca.cross hbc).dot hc.fits).neg
  · exact ((hab.cross hca).dot ha.fits).neg
  · exact ((hbc.cross hab).dot hb.fits).neg

/-- The determinant from edges is the determinant, whichever edges it is from. -/
theorem value_edgeDeterminant (a b c : Point) :
    (edgeDeterminant Expression a b c).value = (a.value.cross b.value).dot c.value := by
  unfold edgeDeterminant
  dsimp only
  split_ifs
  · exact Vec3.det_edges a.value b.value c.value
  · rw [Vec3.det_rotate]
    exact Vec3.det_edges b.value c.value a.value
  · rw [← Vec3.det_rotate]
    exact Vec3.det_edges c.value a.value b.value

/-- In every sound scalar, the formula finds the orientation of the exact coordinates. -/
theorem answers_formula {rounded : Bool} [SoundScalar rounded α] (ha : a.Finite) (hb : b.Finite)
    (hc : c.Finite) : Answers rounded (formula α a b c) (verdict a b c) := by
  have hdirect := answers_sign? (α := α) _ (fits_determinant ha hb hc) (by decide)
  have hedges := answers_sign? (α := α) _ (fits_edgeDeterminant ha hb hc) (by decide)
  rw [value_edgeDeterminant, eval_edgeDeterminant] at hedges
  unfold formula verdict
  split
  · exact .pure _
  · refine (Answers.orElse hdirect fun hrounded => ?_).map _
    exact hrounded ▸ hedges

end ExactSphere.Orientation
