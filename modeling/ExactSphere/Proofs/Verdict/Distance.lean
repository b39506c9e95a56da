import ExactSphere.Distance
import ExactSphere.Proofs.SoundScalar
import ExactSphere.Proofs.Vector

/-!
# Exact comparisons of angles

The comparison of two angles by cosines gives one verdict in all sound scalars. The comparison by
sines, which only rounded scalars come to, cannot contradict it: the squares of the scalar and the
vector product of two vectors add up to the product of their squared lengths, so both compare the
same squares.
-/

namespace ExactSphere.Distance

open Certify (Answers)
open Binary64 (datum)

/-- Compares two angles at `x` by the signs of their cosines and the squares of these. -/
def cosineVerdict (x a b : Vec3 ℚ) : Ordering :=
  if Sign.of (x.dot a) ≠ Sign.of (x.dot b) then
    (Sign.of (x.dot b)).order (Sign.of (x.dot a))
  else
    (Sign.of (x.dot a) *
      Sign.of (x.dot b * x.dot b * a.normSq - x.dot a * x.dot a * b.normSq)).toOrdering

/-- Compares an angle with a radius by the signs of their cosines and the squares of these. -/
def cosineRadiusVerdict (x y : Vec3 ℚ) (r2 : ℚ) : Ordering :=
  if Sign.of (x.dot y) ≠ Sign.of (1 - 1 / 2 * r2) then
    (Sign.of (1 - 1 / 2 * r2)).order (Sign.of (x.dot y))
  else
    (Sign.of (x.dot y) * Sign.of ((1 - 1 / 2 * r2) * (1 - 1 / 2 * r2) * x.normSq * y.normSq -
      x.dot y * x.dot y)).toOrdering

/-- Which site the exact coordinates say is nearer. -/
def siteVerdict (x a b : Point) (perturbed : Bool) : Finding Ordering :=
  if a.same b then .decided .eq
  else if cosineVerdict x.value a.value b.value = .eq ∧ perturbed then .degenerate
  else .decided (cosineVerdict x.value a.value b.value)

variable {α : Type} [Scalar α] {rounded : Bool}

/-! ## Comparisons by cosines -/

section Cosine

variable {x a b : Vec3 Expression} {i j : ℕ}

theorem answers_cosineOrder [SoundScalar rounded α] (budgets : CosineBudgets) (hx : x.Fits i)
    (ha : a.Fits j) (hb : b.Fits j)
    (hcosine : i + j + 3 ≤ budgets.cosine) (hcosine64 : budgets.cosine ≤ 64)
    (hsquares : 2 * (i + j + 3) + 1 + (2 * j + 3) + 2 ≤ budgets.squares)
    (hsquares64 : budgets.squares ≤ 64) :
    Answers rounded (cosineOrder (x.eval α) (a.eval α) (b.eval α) budgets)
      (cosineVerdict x.value a.value b.value) := by
  have hxa := hx.dot ha
  have hxb := hx.dot hb
  have haSign := answers_sign? (α := α) _ (hxa.mono hcosine) hcosine64
  have hbSign := answers_sign? (α := α) _ (hxb.mono hcosine) hcosine64
  have hfits : (x.dot b * x.dot b * a.normSq - x.dot a * x.dot a * b.normSq).Fits
      budgets.squares :=
    (((hxb.mul hxb).mul ha.normSq).sub ((hxa.mul hxa).mul hb.normSq)).mono (by omega)
  have hsquaresSign := answers_sign? (α := α) _ hfits hsquares64
  simp only [Expression.value_sub, Expression.value_mul, Vec3.value_dot, Vec3.value_normSq]
    at haSign hbSign hsquaresSign
  unfold cosineOrder cosineVerdict
  refine haSign.bind (hbSign.bind ?_)
  dsimp only
  split_ifs with hsigns hzero
  · exact .pure _
  · rw [hzero]
    exact .pure _
  · exact hsquaresSign.bind (.pure _)

end Cosine

theorem answers_cosineRadiusOrder [SoundScalar rounded α] {x y : Vec3 Expression} {r2 : Float}
    (hx : x.Fits 0) (hy : y.Fits 0) (hr2 : r2.isFinite = true) :
    Answers rounded (cosineRadiusOrder (x.eval α) (y.eval α) r2)
      (cosineRadiusVerdict x.value y.value (Binary64.value r2)) := by
  have hxy := hx.dot hy
  have hradius := Expression.Fits.one.sub (Expression.Fits.half.mul (.leaf hr2))
  have hfits := (((hradius.mul hradius).mul hx.normSq).mul hy.normSq).sub (hxy.mul hxy)
  have hangleSign := answers_sign? (α := α) dotBudget hxy (by decide)
  have hradiusSign := answers_sign? (α := α) radiusCosineBudget hradius (by decide)
  have hsquaresSign := answers_sign? (α := α) cosineRadiusBudget hfits (by decide)
  simp only [Expression.value_sub, Expression.value_mul, Expression.value_ofFloat, Vec3.value_dot,
    Vec3.value_normSq, Binary64.value_one, Binary64.value_half]
    at hangleSign hradiusSign hsquaresSign
  unfold cosineRadiusOrder cosineRadiusVerdict
  refine hangleSign.bind (hradiusSign.bind ?_)
  dsimp only
  split_ifs with hsigns
  · exact .pure _
  · exact hsquaresSign.bind (.pure _)

/-! ## Comparisons by sines -/

/-- A sum of doubles that passes as exact is exact. -/
theorem value_of_exactSum? {a b s : Float} (h : exactSum? a b = some s) :
    s.isFinite = true ∧ Binary64.value s = Binary64.value a + Binary64.value b := by
  unfold exactSum? at h
  dsimp only at h
  split_ifs at h with herror
  obtain ⟨x, y, hx, hy, hsum, hexact⟩ :=
    ErrorFree.number_of_twoSum (Binary64.beq_zero_iff.1 herror)
  obtain rfl := Option.some.inj h
  refine ⟨Binary64.isFinite_of_datum hsum, ?_⟩
  rw [Binary64.value_of_datum hsum, Binary64.value_of_datum hx, Binary64.value_of_datum hy]
  linarith

theorem value_of_exactSums? {p q : Point} {sx sy sz : Float} (hx : exactSum? p.x q.x = some sx)
    (hy : exactSum? p.y q.y = some sy) (hz : exactSum? p.z q.z = some sz) :
    Point.Finite ⟨sx, sy, sz⟩ ∧ Point.value ⟨sx, sy, sz⟩ = p.value + q.value := by
  obtain ⟨hfx, hvx⟩ := value_of_exactSum? hx
  obtain ⟨hfy, hvy⟩ := value_of_exactSum? hy
  obtain ⟨hfz, hvz⟩ := value_of_exactSum? hz
  refine ⟨⟨hfx, hfy, hfz⟩, ?_⟩
  change Vec3.mk _ _ _ = Vec3.mk _ _ _
  rw [hvx, hvy, hvz]
  rfl

/-- The product of the short and the long vector is twice the product of the points, up to sign. -/
theorem exists_of_sineVector? {x y : Point} {v : Vec3 α} (hx : x.Finite) (hy : y.Finite)
    (h : sineVector? α x y = some v) :
    ∃ w : Vec3 Expression, v = w.eval α ∧ w.Fits 3 ∧
      w.value.normSq = 4 * (x.value.cross y.value).normSq := by
  unfold sineVector? at h
  by_cases hnear : 0 ≤ x.dot y
  · simp only [hnear, decide_true, if_true, Option.bind_eq_bind, Option.bind_eq_some_iff,
      Option.pure_def, Option.some.injEq] at h
    obtain ⟨sx, hsx, sy, hsy, sz, hsz, rfl⟩ := h
    obtain ⟨hfinite, hvalue⟩ := value_of_exactSums? hsx hsy hsz
    refine ⟨(Point.lift Expression ⟨sx, sy, sz⟩).cross (x.lift Expression + y.lift Expression),
      rfl, hfinite.fits.cross (hx.fits.add hy.fits), ?_⟩
    rw [Vec3.value_cross, Vec3.value_add, Point.value_lift, Point.value_lift, Point.value_lift,
      hvalue, Point.value_neg, Vec3.normSq_add_neg_cross_add]
  · simp only [hnear, decide_false, Bool.false_eq_true, if_false, Option.bind_eq_bind,
      Option.bind_eq_some_iff, Option.pure_def, Option.some.injEq] at h
    obtain ⟨sx, hsx, sy, hsy, sz, hsz, rfl⟩ := h
    obtain ⟨hfinite, hvalue⟩ := value_of_exactSums? hsx hsy hsz
    refine ⟨(Point.lift Expression ⟨sx, sy, sz⟩).cross (x.lift Expression - y.lift Expression),
      rfl, hfinite.fits.cross (hx.fits.sub hy.fits), ?_⟩
    rw [Vec3.value_cross, Vec3.value_sub, Point.value_lift, Point.value_lift, Point.value_lift,
      hvalue, Vec3.normSq_add_cross_sub]

/-- The sines of two angles at `x` differ as the cosines do, the other way round. -/
theorem sineSquares_eq (x a b : Vec3 ℚ) :
    4 * (x.cross a).normSq * b.normSq - 4 * (x.cross b).normSq * a.normSq =
      4 * (x.dot b * x.dot b * a.normSq - x.dot a * x.dot a * b.normSq) := by
  rw [Vec3.normSq_cross, Vec3.normSq_cross]
  ring

theorem answers_sineOrder [SoundScalar rounded α] {x a b : Point} (hx : x.Finite) (ha : a.Finite)
    (hb : b.Finite) :
    Answers true (sineOrder α x a b) (cosineVerdict x.value a.value b.value) := by
  have haSign := (answers_sign? (α := α) dotBudget (hx.fits.dot ha.fits) (by decide)).weaken
  have hbSign := (answers_sign? (α := α) dotBudget (hx.fits.dot hb.fits) (by decide)).weaken
  simp only [Vec3.value_dot, Point.value_lift] at haSign hbSign
  unfold sineOrder cosineVerdict
  refine haSign.bind ?_
  dsimp only
  split_ifs with hzero hsigns hsigns
  · exact .undecided _
  · exact .undecided _
  · refine hbSign.bind ?_
    rw [if_pos (Ne.symm hsigns)]
    exact .undecided _
  · refine hbSign.bind ?_
    rw [if_neg (not_not.2 (not_not.1 hsigns).symm)]
    refine Answers.ofOption_bind fun crossA hcrossA => ?_
    refine Answers.ofOption_bind fun crossB hcrossB => ?_
    obtain ⟨wA, rfl, hwA, hA⟩ := exists_of_sineVector? hx ha hcrossA
    obtain ⟨wB, rfl, hwB, hB⟩ := exists_of_sineVector? hx hb hcrossB
    have hsquaresSign := (answers_sign? (α := α) sineBudget
      ((hwA.normSq.mul hb.fits.normSq).sub (hwB.normSq.mul ha.fits.normSq)) (by decide)).weaken
    simp only [Expression.value_sub, Expression.value_mul, Vec3.value_normSq, Point.value_lift, hA,
      hB, sineSquares_eq, Sign.of_mul_of_pos (four_pos : (0 : ℚ) < 4)] at hsquaresSign
    exact hsquaresSign.bind (.pure _)

theorem sineRadiusSquares_eq (x y : Vec3 ℚ) (r2 : ℚ) :
    4 * (x.cross y).normSq - 4 * r2 * (1 - 1 / 4 * r2) * (x.normSq * y.normSq) =
      4 * ((1 - 1 / 2 * r2) * (1 - 1 / 2 * r2) * x.normSq * y.normSq - x.dot y * x.dot y) := by
  rw [Vec3.normSq_cross]
  ring

theorem answers_sineRadiusOrder [SoundScalar rounded α] {x y : Point} {r2 : Float} (hx : x.Finite)
    (hy : y.Finite) (hr2 : r2.isFinite = true) (hlt : Binary64.value r2 < 2) :
    Answers true (sineRadiusOrder α x y r2)
      (cosineRadiusVerdict x.value y.value (Binary64.value r2)) := by
  have hradius : (Scalar.ofFloat r2 : Expression).Fits 0 := .leaf hr2
  have hangleSign := (answers_sign? (α := α) dotBudget (hx.fits.dot hy.fits) (by decide)).weaken
  simp only [Vec3.value_dot, Point.value_lift] at hangleSign
  unfold sineRadiusOrder
  refine hangleSign.bind ?_
  dsimp only
  split_ifs with hpositive
  · exact .undecided _
  · refine Answers.ofOption_bind fun cross hcross => ?_
    obtain ⟨w, rfl, hw, hnormSq⟩ := exists_of_sineVector? hx hy hcross
    have hsinSq := (Expression.Fits.four.mul hradius).mul
      (Expression.Fits.one.sub (Expression.Fits.quarter.mul hradius))
    have hsquaresSign := (answers_sign? (α := α) sineRadiusBudget
      (hw.normSq.sub (hsinSq.mul (hx.fits.normSq.mul hy.fits.normSq))) (by decide)).weaken
    simp only [Expression.value_sub, Expression.value_mul, Expression.value_ofFloat,
      Vec3.value_normSq, Point.value_lift, Binary64.value_one, Binary64.value_four,
      Binary64.value_quarter, hnormSq, sineRadiusSquares_eq,
      Sign.of_mul_of_pos (four_pos : (0 : ℚ) < 4)] at hsquaresSign
    have hradiusSign : Sign.of (1 - 1 / 2 * Binary64.value r2) = .positive :=
      Sign.of_pos (by linarith)
    have hverdict : cosineRadiusVerdict x.value y.value (Binary64.value r2) =
        (Sign.of ((1 - 1 / 2 * Binary64.value r2) * (1 - 1 / 2 * Binary64.value r2) *
          x.value.normSq * y.value.normSq -
            x.value.dot y.value * x.value.dot y.value)).toOrdering := by
      rw [cosineRadiusVerdict, hradiusSign, if_neg hpositive, not_not.1 hpositive]
      rfl
    rw [hverdict]
    exact hsquaresSign.bind (.pure _)

/-- The limit of the comparison by sines lies below 90 degrees. -/
theorem value_lt_two_of_lt {r2 : Float} (hr2 : r2.isFinite = true) (h : r2 < sineRadiusLimit) :
    Binary64.value r2 < 2 := by
  have htwo : datum 2 = .number 2 := Binary64.datum_ofNat (n := 2) (by norm_num)
  have hsqrt : |2 - 6369051672525773 * 2 ^ (-52 : ℤ)| ≤ (2 : ℚ) := by norm_num
  have hle : |Binary64.nearest (2 - 6369051672525773 * 2 ^ (-52 : ℤ))| ≤ 2 :=
    (Binary64.abs_nearest_mono hsqrt).trans_eq (Binary64.nearest_eq_self
      (by simpa using Binary64.Representable.zpow (e := 1) (by norm_num)))
  have hmax : (2 : ℚ) < 2 ^ (1024 : ℤ) :=
    (zpow_one (2 : ℚ)).symm.trans_lt (zpow_lt_zpow_right₀ one_lt_two (by norm_num))
  have hlimit := Binary64.datum_sub_of_lt htwo Binary64.datum_sqrtTwo (hle.trans_lt hmax)
  rw [Binary64.lt_iff, Binary64.isFinite_iff.1 hr2, sineRadiusLimit, hlimit,
    Binary64.Datum.number_compare?_number, Option.some.injEq, compare_lt_iff_lt] at h
  exact h.trans_le ((le_abs_self _).trans hle)

/-! ## The predicates -/

variable {x y a b : Point} {r2 : Float}

theorem answers_siteFormula [SoundScalar rounded α] (hx : x.Finite) (ha : a.Finite)
    (hb : b.Finite) (perturbed : Bool) :
    Answers rounded (siteFormula α x a b perturbed) (siteVerdict x a b perturbed) := by
  have hcosine := answers_cosineOrder (α := α) pointCosines hx.fits ha.fits hb.fits
    (by decide) (by decide) (by decide) (by decide)
  have horder : Answers rounded
      (cosineOrder (x.lift α) (a.lift α) (b.lift α) pointCosines <|>
        if favoursSine x a then sineOrder α x a b else Certify.undecided)
      (cosineVerdict x.value a.value b.value) := by
    refine hcosine.orElse ?_
    intro _
    split_ifs
    · exact answers_sineOrder hx ha hb
    · exact .undecided _
  unfold siteFormula siteVerdict
  by_cases hsame : a.same b = true
  · rw [if_pos hsame, if_pos hsame]
    exact .pure _
  · rw [if_neg hsame, if_neg hsame]
    refine horder.bind ?_
    split_ifs
    · exact .pure _
    · exact .pure _

theorem answers_radiusFormula [SoundScalar rounded α] (hx : x.Finite) (hy : y.Finite)
    (hr2 : r2.isFinite = true) :
    Answers rounded (radiusFormula α x y r2)
      (.decided (cosineRadiusVerdict x.value y.value (Binary64.value r2))) := by
  refine ((answers_cosineRadiusOrder hx.fits hy.fits hr2).orElse fun _ => ?_).map _
  split_ifs with hlt
  · exact answers_sineRadiusOrder hx hy hr2 (value_lt_two_of_lt hr2 hlt)
  · exact .undecided _

theorem answers_hemisphere [SoundScalar rounded α] (ha : a.Finite) (hb : b.Finite) :
    Answers rounded ((hemispherePredicate a b).formula α)
      (.decided (Sign.of (a.value.dot b.value))) :=
  (answers_sign? _ (ha.fits.dot hb.fits) (by decide)).map _

end ExactSphere.Distance
