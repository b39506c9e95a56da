import ExactSphere.Radical
import ExactSphere.Proofs.SoundScalar

/-!
# Exact signs of expressions with square roots

The signs of root differences and of sums of root terms are found from exact signs by the same
case distinctions, whatever the scalar, and the budgets they work out cover the depths that occur.
-/

namespace ExactSphere

open Certify (Answers)

/-! ## Terms and differences -/

/-- The sign of `coefficient * √radicand`, for a radicand that is not negative. -/
def RootTerm.verdict (t : RootTerm ℚ) : Sign :=
  if Sign.of t.radicand = .zero then .zero else Sign.of t.coefficient

/-- The sign of `rational - coefficient * √radicand`, found by squaring. -/
def RootDifference.verdict (d : RootDifference ℚ) : Sign :=
  if RootTerm.verdict ⟨d.radicand, d.coefficient⟩ = .zero then Sign.of d.rational
  else if Sign.of d.rational = .zero then -RootTerm.verdict ⟨d.radicand, d.coefficient⟩
  else if Sign.of d.rational = -RootTerm.verdict ⟨d.radicand, d.coefficient⟩ then
    Sign.of d.rational
  else
    Sign.of d.rational *
      Sign.of (d.rational * d.rational - d.coefficient * d.coefficient * d.radicand)

theorem depthAdd_of_lt {a b : ℕ} (h : a + b < depthLimit) : depthAdd a b = .ok (a + b) := if_pos h

theorem depthDouble_of_lt {a : ℕ} (h : 2 * a < depthLimit) : depthDouble a = .ok (2 * a) := if_pos h

/-- The depth of the squares, if it fits a word. -/
theorem RootDifference.squaredDepth_of_lt (depths : RootDifference ℕ)
    (h : max (2 * depths.rational + 1) (2 * depths.coefficient + 1 + depths.radicand + 1) + 1 <
      depthLimit) :
    depths.squaredDepth = .ok
      (max (2 * depths.rational + 1) (2 * depths.coefficient + 1 + depths.radicand + 1) + 1) := by
  have hmax : (if 2 * depths.coefficient + 1 + depths.radicand + 1 < 2 * depths.rational + 1 then
      2 * depths.rational + 1 else 2 * depths.coefficient + 1 + depths.radicand + 1) =
        max (2 * depths.rational + 1) (2 * depths.coefficient + 1 + depths.radicand + 1) := by
    split <;> omega
  simp only [squaredDepth, depthDouble_of_lt (a := depths.rational) (by omega),
    depthDouble_of_lt (a := depths.coefficient) (by omega),
    depthAdd_of_lt (a := 2 * depths.rational) (b := 1) (by omega),
    depthAdd_of_lt (a := 2 * depths.coefficient) (b := 1) (by omega),
    depthAdd_of_lt (a := 2 * depths.coefficient + 1) (b := depths.radicand) (by omega),
    depthAdd_of_lt (a := 2 * depths.coefficient + 1 + depths.radicand) (b := 1) (by omega),
    bind, Except.bind, hmax]
  exact depthAdd_of_lt h

variable {α : Type} [Scalar α] {rounded : Bool}

theorem RootTerm.answers_sign [SoundScalar rounded α] {z w : Expression} (depths : RootTerm ℕ)
    (hz : z.Fits depths.radicand) (hw : w.Fits depths.coefficient)
    (hradicand : depths.radicand ≤ 64) (hcoefficient : depths.coefficient ≤ 64) :
    Answers rounded (RootTerm.sign ⟨z.eval α, w.eval α⟩ depths)
      (RootTerm.verdict ⟨z.value, w.value⟩) := by
  unfold RootTerm.sign RootTerm.verdict
  refine (answers_sign? _ hz hradicand).bind ?_
  dsimp only
  split_ifs
  · exact .pure _
  · exact answers_sign? _ hw hcoefficient

theorem RootDifference.answers_sign [SoundScalar rounded α] {x w z : Expression}
    (depths : RootDifference ℕ) (hx : x.Fits depths.rational) (hw : w.Fits depths.coefficient)
    (hz : z.Fits depths.radicand)
    (hdepth : max (2 * depths.rational + 1)
      (2 * depths.coefficient + 1 + depths.radicand + 1) + 1 ≤ 64) :
    Answers rounded (RootDifference.sign ⟨x.eval α, w.eval α, z.eval α⟩ depths)
      (RootDifference.verdict ⟨x.value, w.value, z.value⟩) := by
  have hrational := answers_sign? (α := α) _ hx (by omega)
  have hroot := RootTerm.answers_sign (α := α)
    ⟨depths.radicand, depths.coefficient⟩ hz hw (by dsimp only; omega)
    (by dsimp only; omega)
  have hfits := ((hx.mul hx).sub ((hw.mul hw).mul hz)).mono (j := max (2 * depths.rational + 1)
      (2 * depths.coefficient + 1 + depths.radicand + 1) + 1) (by omega)
  have hsquares := answers_sign? (α := α) _ hfits hdepth
  simp only [Expression.value_sub, Expression.value_mul] at hsquares
  unfold RootDifference.sign RootDifference.verdict
  refine hrational.bind (hroot.bind ?_)
  dsimp only
  split_ifs
  · exact .pure _
  · exact .pure _
  · exact .pure _
  · exact Answers.lift_bind (depths.squaredDepth_of_lt (by unfold depthLimit; omega))
      (hsquares.bind (.pure _))

/-! ## Sums of terms -/

namespace RootTerm

/-- The square of a term with exact parts. -/
def exactSquare (t : RootTerm ℚ) : ℚ := t.radicand * (t.coefficient * t.coefficient)

/-- The sign of the sum of two terms. -/
def pairVerdict (s t : RootTerm ℚ) : Sign :=
  if s.verdict = .zero ∨ s.verdict = t.verdict then t.verdict
  else if t.verdict = .zero then s.verdict
  else s.verdict * Sign.of (s.exactSquare - t.exactSquare)

/-- The sign of the sum of three terms, found by squaring twice. -/
def sumVerdict (r s t : RootTerm ℚ) : Sign :=
  if r.verdict ≠ -pairVerdict s t then .ofOrdering (r.verdict.order (-pairVerdict s t))
  else if r.verdict = .zero then .zero
  else r.verdict * RootDifference.verdict ⟨r.exactSquare - s.exactSquare - t.exactSquare,
    2 * s.coefficient * t.coefficient, s.radicand * t.radicand⟩

/-- The sum of terms that vanish is zero. -/
theorem sumVerdict_of_zero {r s t : RootTerm ℚ} (hr : r.verdict = .zero) (hs : s.verdict = .zero)
    (ht : t.verdict = .zero) : sumVerdict r s t = .zero := by
  have hpair : pairVerdict s t = .zero := by rw [pairVerdict, if_pos (.inl hs), ht]
  rw [sumVerdict, hr, hpair, if_neg (by decide), if_pos rfl]

/-- The term evaluated in a scalar. -/
def eval (α : Type) [Scalar α] (t : RootTerm Expression) : RootTerm α :=
  ⟨t.radicand.eval α, t.coefficient.eval α⟩

/-- The term with its exact parts. -/
def value (t : RootTerm Expression) : RootTerm ℚ := ⟨t.radicand.value, t.coefficient.value⟩

/-- The parts of the term are within the given depths. -/
structure Fits (t : RootTerm Expression) (depths : RootTerm ℕ) : Prop where
  radicand : t.radicand.Fits depths.radicand
  coefficient : t.coefficient.Fits depths.coefficient

theorem Fits.square {depths : RootTerm ℕ} {t : RootTerm Expression} (h : t.Fits depths) :
    t.square.Fits (2 * depths.coefficient + depths.radicand + 2) :=
  (h.radicand.mul (h.coefficient.mul h.coefficient)).mono (by omega)

theorem pairDepth_of_lt (depths : RootTerm ℕ)
    (h : 2 * depths.coefficient + depths.radicand + 3 < depthLimit) :
    depths.pairDepth = .ok (2 * depths.coefficient + depths.radicand + 3) := by
  simp only [pairDepth, depthDouble_of_lt (a := depths.coefficient) (by omega),
    depthAdd_of_lt (a := 2 * depths.coefficient) (b := depths.radicand) (by omega), bind,
    Except.bind]
  exact depthAdd_of_lt h

theorem differenceDepths_of_lt (depths : RootTerm ℕ)
    (h : 2 * depths.coefficient + depths.radicand + 4 < depthLimit)
    (h' : 2 * depths.radicand + 1 < depthLimit) :
    depths.differenceDepths = .ok ⟨2 * depths.coefficient + depths.radicand + 4,
      2 * depths.coefficient + 2, 2 * depths.radicand + 1⟩ := by
  simp only [differenceDepths, depthDouble_of_lt (a := depths.coefficient) (by omega),
    depthDouble_of_lt (a := depths.radicand) (by omega),
    depthAdd_of_lt (a := 2 * depths.coefficient) (b := depths.radicand) (by omega),
    depthAdd_of_lt (a := 2 * depths.coefficient + depths.radicand) (b := 4) h,
    depthAdd_of_lt (a := 2 * depths.coefficient) (b := 2) (by omega),
    depthAdd_of_lt (a := 2 * depths.radicand) (b := 1) h', bind, Except.bind, pure, Except.pure]

variable {r s t : RootTerm Expression} {depths : RootTerm ℕ}

theorem answers_sign_eval [SoundScalar rounded α] (ht : t.Fits depths)
    (hradicand : depths.radicand ≤ 64) (hcoefficient : depths.coefficient ≤ 64) :
    Answers rounded ((t.eval α).sign depths) t.value.verdict :=
  answers_sign depths ht.radicand ht.coefficient hradicand hcoefficient

theorem answers_pairSign [SoundScalar rounded α] (hs : s.Fits depths) (ht : t.Fits depths)
    (hdepth : 2 * depths.coefficient + depths.radicand + 3 ≤ 64) :
    Answers rounded
      ((s.eval α).pairSign (t.eval α) s.value.verdict t.value.verdict depths)
      (pairVerdict s.value t.value) := by
  have hfits := (hs.square.sub ht.square).mono
    (j := 2 * depths.coefficient + depths.radicand + 3) (by omega)
  have hsquares := answers_sign? (α := α) _ hfits hdepth
  unfold pairSign pairVerdict
  split_ifs
  · exact .pure _
  · exact .pure _
  · refine Answers.lift_bind (depths.pairDepth_of_lt (by unfold depthLimit; omega)) ?_
    exact hsquares.bind (.pure _)

/-- A sum has a certain sign only if all its terms have. -/
theorem exists_of_run_sumSign {r s t : RootTerm α} {side : Sign}
    (h : (sumSign r s t depths).run = .ok (some side)) :
    (∃ x, (r.sign depths).run = .ok (some x)) ∧ (∃ y, (s.sign depths).run = .ok (some y)) ∧
      ∃ z, (t.sign depths).run = .ok (some z) := by
  obtain ⟨x, hr, h⟩ := Certify.exists_of_run_bind h
  obtain ⟨y, hs, h⟩ := Certify.exists_of_run_bind h
  obtain ⟨z, ht, -⟩ := Certify.exists_of_run_bind h
  exact ⟨⟨x, hr⟩, ⟨y, hs⟩, z, ht⟩

/-- Terms that are certainly zero have a sum that is. -/
theorem run_sumSign_of_zero {r s t : RootTerm α} (hr : (r.sign depths).run = .ok (some .zero))
    (hs : (s.sign depths).run = .ok (some .zero)) (ht : (t.sign depths).run = .ok (some .zero)) :
    (sumSign r s t depths).run = .ok (some .zero) := by
  unfold sumSign
  rw [Certify.run_bind_of_some hr, Certify.run_bind_of_some hs, Certify.run_bind_of_some ht]
  rfl

/-- In every sound scalar, the sign of a sum is the one found from the exact parts. -/
theorem answers_sumSign [SoundScalar rounded α] (hr : r.Fits depths) (hs : s.Fits depths)
    (ht : t.Fits depths)
    (hdepth : max (2 * (2 * depths.coefficient + depths.radicand + 4) + 1)
      (2 * (2 * depths.coefficient + 2) + 1 + (2 * depths.radicand + 1) + 1) + 1 ≤ 64) :
    Answers rounded (sumSign (r.eval α) (s.eval α) (t.eval α) depths)
      (sumVerdict r.value s.value t.value) := by
  have hradicand : depths.radicand ≤ 64 := by omega
  have hcoefficient : depths.coefficient ≤ 64 := by omega
  have hdifference := RootDifference.answers_sign (α := α)
    (x := r.square - s.square - t.square)
    (w := Scalar.ofFloat 2 * s.coefficient * t.coefficient)
    (z := s.radicand * t.radicand)
    ⟨2 * depths.coefficient + depths.radicand + 4, 2 * depths.coefficient + 2,
      2 * depths.radicand + 1⟩
    (((hr.square.sub hs.square).sub ht.square).mono (by dsimp only; omega))
    (((Expression.Fits.two.mul hs.coefficient).mul ht.coefficient).mono (by dsimp only; omega))
    ((hs.radicand.mul ht.radicand).mono (by dsimp only; omega)) hdepth
  simp only [Expression.value_sub, Expression.value_mul, Expression.value_ofFloat,
    Binary64.value_two] at hdifference
  unfold sumSign sumVerdict
  refine (answers_sign_eval hr hradicand hcoefficient).bind
    ((answers_sign_eval hs hradicand hcoefficient).bind
      ((answers_sign_eval ht hradicand hcoefficient).bind
        ((answers_pairSign hs ht (by omega)).bind ?_)))
  dsimp only
  split_ifs
  · exact .pure _
  · exact .pure _
  · refine Answers.lift_bind
      (depths.differenceDepths_of_lt (by unfold depthLimit; omega) (by unfold depthLimit; omega)) ?_
    exact hdifference.bind (.pure _)

end RootTerm
end ExactSphere
