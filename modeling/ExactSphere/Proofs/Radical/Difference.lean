import ExactSphere.Proofs.Radical.Reading

/-!
# Signs of root differences in any scalar

The sign of a difference `rational - coefficient * √radicand` is found from the signs of its parts
and of its squares. It is found in exact numbers whatever finite doubles the parts are, and it is
not wrong in any scalar whose sign test is not (`differenceSign_right`). Scalars are read as exact
numbers as they are for sums of root terms.
-/

namespace ExactSphere

namespace RootDifference

/-- The parts of the difference are finite doubles. -/
def Finite (d : RootDifference Float) : Prop :=
  d.rational.isFinite = true ∧ d.coefficient.isFinite = true ∧ d.radicand.isFinite = true

instance (d : RootDifference Float) : Decidable d.Finite :=
  inferInstanceAs (Decidable (_ ∧ _ ∧ _))

/-- The difference with its parts as scalars, exactly. -/
def lift (α : Type) [Scalar α] (d : RootDifference Float) : RootDifference α :=
  ⟨Scalar.ofFloat d.rational, Scalar.ofFloat d.coefficient, Scalar.ofFloat d.radicand⟩

/-- The difference with its exact parts. -/
def exact (d : RootDifference Float) : RootDifference ℚ :=
  ⟨Binary64.value d.rational, Binary64.value d.coefficient, Binary64.value d.radicand⟩

/-- The real number that a difference stands for. -/
noncomputable def toReal (d : RootDifference ℚ) : ℝ := d.rational - d.coefficient * √d.radicand

theorem verdict_eq_toReal {d : RootDifference ℚ} (h : 0 ≤ d.radicand) :
    d.verdict = Sign.of d.toReal := verdict_eq h

theorem Finite.readsDifference {α : Type} [Scalar α] {d : RootDifference Float} (h : d.Finite) :
    (Reading.expressions α).ReadsDifference ⟨0, 0, 0⟩ (d.lift α) d.exact :=
  ⟨⟨_, .leaf h.1, rfl, rfl⟩, ⟨_, .leaf h.2.1, rfl, rfl⟩, ⟨_, .leaf h.2.2, rfl, rfl⟩⟩

/-- In exact numbers the sign of a root difference is always found. -/
theorem run_sign {d : RootDifference Float} {depths : RootDifference ℕ} (hd : d.Finite)
    (hdepths : max (2 * depths.rational + 1)
      (2 * depths.coefficient + 1 + depths.radicand + 1) + 1 < depthLimit) :
    ((d.lift BigFloat).sign depths).run = .ok (some d.exact.verdict) := by
  have hanswers := answers_sign (α := BigFloat) ⟨4, 2, 1⟩
    (Expression.Fits.mono (.leaf hd.1) (Nat.zero_le 4))
    (Expression.Fits.mono (.leaf hd.2.1) (Nat.zero_le 2))
    (Expression.Fits.mono (.leaf hd.2.2) (Nat.zero_le 1)) (by decide)
  rw [sign_bigFloat hdepths]
  exact hanswers.run_eq

end RootDifference

/-- In exact numbers the sign of a root difference of finite doubles is found. In every scalar, a
sign test that is never wrong about the numbers that are read from the scalar makes for signs of
such differences that are never wrong. The radicand must not be negative. -/
theorem differenceSign_right :
    (∀ (d : RootDifference Float) (depths : RootDifference ℕ), d.Finite → 0 ≤ d.exact.radicand →
      max (2 * depths.rational + 1) (2 * depths.coefficient + 1 + depths.radicand + 1) + 1 <
        depthLimit →
      ((d.lift BigFloat).sign depths).run = .ok (some (Sign.of d.exact.toReal))) ∧
    (∀ (α : Type) [Scalar α] (R : Reading α) (limit : ℕ), R.NeverWrong limit →
      ∀ (d : RootDifference α) (v : RootDifference ℚ) (depths : RootDifference ℕ),
        R.ReadsDifference depths d v → 0 ≤ v.radicand →
        max (2 * depths.rational + 1) (2 * depths.coefficient + 1 + depths.radicand + 1) + 1 ≤
          limit →
        ∀ sign, (d.sign depths).run = .ok (some sign) → sign = Sign.of v.toReal) := by
  refine ⟨?exact, ?reading⟩
  case exact =>
    intro d depths hd hradicand hdepths
    rw [RootDifference.run_sign hd hdepths, RootDifference.verdict_eq_toReal hradicand]
  case reading =>
    intro α _ R limit hR d v depths hd hradicand hlimit sign hrun
    rw [← RootDifference.verdict_eq_toReal hradicand]
    exact hd.truthful_sign hR hlimit sign hrun

/-- The square root of 9 is 3, as exact numbers find, and `-3` is more than the negated square root
of 10, of which tracked doubles are certain. -/
theorem differenceSign_right_nine :
    Sign.of (RootDifference.exact ⟨3, 1, 9⟩).toReal = .zero ∧
      Sign.of (RootDifference.exact ⟨-3, -1, 10⟩).toReal = .positive := by
  have hnine : RootDifference.Finite ⟨3, 1, 9⟩ ∧ 0 ≤ (RootDifference.exact ⟨3, 1, 9⟩).radicand := by
    decide +kernel
  have hten : RootDifference.Finite ⟨-3, -1, 10⟩ ∧
      0 ≤ (RootDifference.exact ⟨-3, -1, 10⟩).radicand := by
    decide +kernel
  obtain ⟨hexact, hreading⟩ := differenceSign_right
  constructor
  · have hsign := hexact _ ⟨0, 0, 0⟩ hnine.1 hnine.2 (by decide)
    have hrun : ((RootDifference.lift BigFloat ⟨3, 1, 9⟩).sign ⟨0, 0, 0⟩).run =
        .ok (some .zero) := by
      decide +kernel
    rw [hrun, Except.ok.injEq, Option.some.injEq] at hsign
    exact hsign.symm
  · have hrun : ((RootDifference.lift (Tracked Float) ⟨-3, -1, 10⟩).sign ⟨0, 0, 0⟩).run =
        .ok (some .positive) := by
      decide +kernel
    have hright : (Reading.expressions (Tracked Float)).NeverWrong 64 :=
      Reading.neverWrong_expressions
    exact (hreading _ _ 64 hright _ _ ⟨0, 0, 0⟩ hten.1.readsDifference hten.2 (by decide) _
      hrun).symm

end ExactSphere
