import ExactSphere.Crossing
import ExactSphere.Proofs.Verdict.Distance

/-!
# Exact comparisons of crossing points

The crossing points are vectors like others, only deeper, and the budgets allow for that.
-/

namespace ExactSphere.Crossing

open Certify (Answers)

/-- The exact crossing point of `ab` with the circle of normal `n`, up to a positive factor. -/
def exactPoint (a b n : Vec3 ℚ) : Vec3 ℚ := a.scale |b.dot n| + b.scale |a.dot n|

/-- The side on which a crossing point lies. -/
def sideVerdict (a b n x : Vec3 ℚ) : Sign := Sign.of (|b.dot n| * a.dot x + |a.dot n| * b.dot x)

/-- Which crossing point the exact coordinates say is nearer to `m`. -/
def orderVerdict (a b c d m n : Point) : Ordering :=
  if sameEdge a b c d then .eq
  else Distance.cosineVerdict m.value (exactPoint a.value b.value n.value)
    (exactPoint c.value d.value n.value)

variable {α : Type} [Scalar α] {rounded : Bool} {a b c d m n x : Point}

theorem fits_point {a b n : Vec3 Expression} (ha : a.Fits 0) (hb : b.Fits 0) (hn : n.Fits 0) :
    (point a b n).Fits 5 :=
  (ha.scale (hb.dot hn).abs).add (hb.scale (ha.dot hn).abs)

theorem answers_sideFormula [SoundScalar rounded α] (ha : a.Finite) (hb : b.Finite)
    (hn : n.Finite) (hx : x.Finite) :
    Answers rounded (sideFormula α a b n x)
      (.decided (sideVerdict a.value b.value n.value x.value)) := by
  have hfits := ((hb.fits.dot hn.fits).abs.mul (ha.fits.dot hx.fits)).add
    ((ha.fits.dot hn.fits).abs.mul (hb.fits.dot hx.fits))
  exact (answers_sign? _ hfits (by decide)).map _

theorem answers_orderFormula [SoundScalar rounded α] (ha : a.Finite) (hb : b.Finite)
    (hc : c.Finite) (hd : d.Finite) (hm : m.Finite) (hn : n.Finite) :
    Answers rounded (orderFormula α a b c d m n) (.decided (orderVerdict a b c d m n)) := by
  have horder := Distance.answers_cosineOrder (α := α) cosines hm.fits
    (fits_point ha.fits hb.fits hn.fits) (fits_point hc.fits hd.fits hn.fits)
    (by decide) (by decide) (by decide) (by decide)
  unfold orderFormula orderVerdict
  split_ifs
  · exact .pure _
  · exact horder.map _

end ExactSphere.Crossing
