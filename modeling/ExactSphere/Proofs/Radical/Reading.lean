import ExactSphere.Proofs.Verdict.Squares

/-!
# Signs of root sums in any scalar

Scalars are read as exact numbers with depths that add up as in tracked numbers (`Reading`). If the
sign test of a scalar is never wrong about what it stands for, then neither is the sign of a sum of
three root terms, whatever the scalar leaves undecided or refuses. In exact numbers the sign of such
a sum is always found (`sumSign_right`).
-/

namespace ExactSphere

/-! ## Computations without wrong answers -/

namespace Certify

variable {A B : Type} {a : A} {b : B}

/-- The only answer that the computation can give is `a`. It may also stay undecided or stop with a
fault. -/
def Truthful (m : Certify A) (a : A) : Prop := ∀ c, m.run = .ok (some c) → c = a

namespace Truthful

theorem pure (a : A) : Truthful (pure a) a := fun _ h => by
  cases h
  rfl

theorem bind {m : Certify A} {f : A → Certify B} (hm : Truthful m a) (hf : Truthful (f a) b) :
    Truthful (m >>= f) b := by
  intro c h
  obtain ⟨a', ha', hc⟩ := exists_of_run_bind h
  rw [hm a' ha'] at hc
  exact hf c hc

/-- A bookkeeping step has to be right only if it succeeds. -/
theorem lift_bind {x : Except Fault A} {f : A → Certify B}
    (hf : ∀ c, x = .ok c → Truthful (f c) b) :
    Truthful ((liftM x : Certify A) >>= f) b := by
  cases x with
  | error cause => exact fun c h => by cases h
  | ok c => exact bind (pure c) (hf c rfl)

end Truthful

theorem Answers.truthful {rounded : Bool} {m : Certify A} (h : Answers rounded m a) :
    Truthful m a := fun _ => h.eq_of_run

end Certify

open Certify (Answers Truthful)

/-! ## Depths that fit a word -/

section Depths

variable {a b k : ℕ}

theorem eq_of_depthAdd (h : depthAdd a b = .ok k) : k = a + b := by
  unfold depthAdd at h
  split_ifs at h
  exact (Except.ok.inj h).symm

theorem eq_of_depthDouble (h : depthDouble a = .ok k) : k = 2 * a := by
  unfold depthDouble at h
  split_ifs at h
  exact (Except.ok.inj h).symm

theorem exists_of_bind_eq_ok {A B : Type} {x : Except Fault A} {f : A → Except Fault B} {b : B}
    (h : x >>= f = .ok b) : ∃ a, x = .ok a ∧ f a = .ok b := by
  cases x with
  | error cause => cases h
  | ok a => exact ⟨a, rfl, h⟩

theorem RootDifference.eq_of_squaredDepth {depths : RootDifference ℕ}
    (h : depths.squaredDepth = .ok k) :
    k = max (2 * depths.rational + 1) (2 * depths.coefficient + 1 + depths.radicand + 1) + 1 := by
  obtain ⟨_, h₁, h⟩ := exists_of_bind_eq_ok h
  obtain ⟨_, h₂, h⟩ := exists_of_bind_eq_ok h
  obtain ⟨_, h₃, h⟩ := exists_of_bind_eq_ok h
  obtain ⟨_, h₄, h⟩ := exists_of_bind_eq_ok h
  obtain ⟨_, h₅, h⟩ := exists_of_bind_eq_ok h
  obtain ⟨_, h₆, h⟩ := exists_of_bind_eq_ok h
  have := eq_of_depthDouble h₁
  have := eq_of_depthAdd h₂
  have := eq_of_depthDouble h₃
  have := eq_of_depthAdd h₄
  have := eq_of_depthAdd h₅
  have := eq_of_depthAdd h₆
  have := eq_of_depthAdd h
  split_ifs at this <;> omega

theorem RootTerm.eq_of_pairDepth {depths : RootTerm ℕ} (h : depths.pairDepth = .ok k) :
    k = 2 * depths.coefficient + depths.radicand + 3 := by
  obtain ⟨_, h₁, h⟩ := exists_of_bind_eq_ok h
  obtain ⟨_, h₂, h⟩ := exists_of_bind_eq_ok h
  rw [eq_of_depthAdd h, eq_of_depthAdd h₂, eq_of_depthDouble h₁]

theorem RootTerm.eq_of_differenceDepths {depths : RootTerm ℕ} {d : RootDifference ℕ}
    (h : depths.differenceDepths = .ok d) :
    d = ⟨2 * depths.coefficient + depths.radicand + 4, 2 * depths.coefficient + 2,
      2 * depths.radicand + 1⟩ := by
  obtain ⟨_, h₁, h⟩ := exists_of_bind_eq_ok h
  obtain ⟨_, h₂, h⟩ := exists_of_bind_eq_ok h
  obtain ⟨_, h₃, h⟩ := exists_of_bind_eq_ok h
  obtain ⟨_, h₄, h⟩ := exists_of_bind_eq_ok h
  obtain ⟨_, h₅, h⟩ := exists_of_bind_eq_ok h
  obtain ⟨_, h₆, h⟩ := exists_of_bind_eq_ok h
  obtain ⟨_, h₇, h⟩ := exists_of_bind_eq_ok h
  rw [← Except.ok.inj h, eq_of_depthAdd h₃, eq_of_depthAdd h₂, eq_of_depthDouble h₁,
    eq_of_depthAdd h₅, eq_of_depthDouble h₄, eq_of_depthAdd h₇, eq_of_depthDouble h₆]

end Depths

/-! ## Readings -/

/-- A way to read scalars as exact numbers. In `Reads k x v` the scalar `x` stands for `v` and is at
most `k` deep. -/
structure Reading (α : Type) [Scalar α] where
  Reads : ℕ → α → ℚ → Prop
  two : Reads 0 (Scalar.ofFloat 2) 2
  mono : ∀ {i j x a}, Reads i x a → i ≤ j → Reads j x a
  sub : ∀ {i j x y a b}, Reads i x a → Reads j y b → Reads (max i j + 1) (x - y) (a - b)
  mul : ∀ {i j x y a b}, Reads i x a → Reads j y b → Reads (i + j + 1) (x * y) (a * b)

namespace Reading

variable {α : Type} [Scalar α]

/-- The sign test is never wrong about the number that a scalar stands for, if the scalar is within
the budget and the budget within the limit. -/
def NeverWrong (R : Reading α) (limit : ℕ) : Prop :=
  ∀ {k budget x v}, R.Reads k x v → k ≤ budget → budget ≤ limit →
    Truthful (sign? x budget) (Sign.of v)

/-- Scalars read as the expressions over finite doubles that they are values of. -/
def expressions (α : Type) [Scalar α] : Reading α where
  Reads k x v := ∃ e : Expression, e.Fits k ∧ e.eval α = x ∧ e.value = v
  two := ⟨Scalar.ofFloat 2, .two, rfl, Binary64.value_two⟩
  mono := fun ⟨e, he, hx, hv⟩ hij => ⟨e, he.mono hij, hx, hv⟩
  sub := by
    rintro i j _ _ _ _ ⟨e, he, rfl, rfl⟩ ⟨f, hf, rfl, rfl⟩
    exact ⟨e - f, he.sub hf, rfl, rfl⟩
  mul := by
    rintro i j _ _ _ _ ⟨e, he, rfl, rfl⟩ ⟨f, hf, rfl, rfl⟩
    exact ⟨e * f, he.mul hf, rfl, rfl⟩

theorem neverWrong_expressions {rounded : Bool} [SoundScalar rounded α] :
    (expressions α).NeverWrong 64 := by
  rintro k budget _ _ ⟨e, he, rfl, rfl⟩ hk hbudget
  exact (answers_sign? budget (he.mono hk) hbudget).truthful

variable {R : Reading α} {limit : ℕ}

/-- The parts of a term stand for those of an exact one, within the given depths. -/
structure ReadsTerm (R : Reading α) (depths : RootTerm ℕ) (t : RootTerm α) (v : RootTerm ℚ) :
    Prop where
  radicand : R.Reads depths.radicand t.radicand v.radicand
  coefficient : R.Reads depths.coefficient t.coefficient v.coefficient

/-- The parts of a difference stand for those of an exact one, within the given depths. -/
structure ReadsDifference (R : Reading α) (depths : RootDifference ℕ) (d : RootDifference α)
    (v : RootDifference ℚ) : Prop where
  rational : R.Reads depths.rational d.rational v.rational
  coefficient : R.Reads depths.coefficient d.coefficient v.coefficient
  radicand : R.Reads depths.radicand d.radicand v.radicand

theorem ReadsTerm.square {depths : RootTerm ℕ} {t : RootTerm α} {v : RootTerm ℚ}
    (h : R.ReadsTerm depths t v) :
    R.Reads (2 * depths.coefficient + depths.radicand + 2) t.square v.exactSquare :=
  R.mono (R.mul h.radicand (R.mul h.coefficient h.coefficient)) (by omega)

/-! ### Terms and differences -/

theorem ReadsTerm.truthful_sign (hR : R.NeverWrong limit) {depths : RootTerm ℕ} {t : RootTerm α}
    {v : RootTerm ℚ} (h : R.ReadsTerm depths t v) (hradicand : depths.radicand ≤ limit)
    (hcoefficient : depths.coefficient ≤ limit) : Truthful (t.sign depths) v.verdict := by
  unfold RootTerm.sign RootTerm.verdict
  refine (hR h.radicand le_rfl hradicand).bind ?_
  split_ifs
  · exact .pure _
  · exact hR h.coefficient le_rfl hcoefficient

theorem ReadsDifference.truthful_sign (hR : R.NeverWrong limit) {depths : RootDifference ℕ}
    {d : RootDifference α} {v : RootDifference ℚ} (h : R.ReadsDifference depths d v)
    (hlimit : max (2 * depths.rational + 1)
      (2 * depths.coefficient + 1 + depths.radicand + 1) + 1 ≤ limit) :
    Truthful (d.sign depths) v.verdict := by
  have hroot : R.ReadsTerm ⟨depths.radicand, depths.coefficient⟩ ⟨d.radicand, d.coefficient⟩
      ⟨v.radicand, v.coefficient⟩ := ⟨h.radicand, h.coefficient⟩
  have hsquares := R.sub (R.mul h.rational h.rational)
    (R.mul (R.mul h.coefficient h.coefficient) h.radicand)
  unfold RootDifference.sign RootDifference.verdict
  refine (hR h.rational le_rfl (by omega)).bind
    ((hroot.truthful_sign hR (by dsimp only; omega) (by dsimp only; omega)).bind ?_)
  split_ifs
  · exact .pure _
  · exact .pure _
  · exact .pure _
  · refine .lift_bind fun k hk => ?_
    have hdepth := RootDifference.eq_of_squaredDepth hk
    exact (hR hsquares (by omega) (by omega)).bind (.pure _)

/-! ### Sums -/

variable {depths : RootTerm ℕ} {r s t : RootTerm α} {u v w : RootTerm ℚ}

theorem truthful_pairSign (hR : R.NeverWrong limit) (hs : R.ReadsTerm depths s v)
    (ht : R.ReadsTerm depths t w) (hlimit : 2 * depths.coefficient + depths.radicand + 3 ≤ limit) :
    Truthful (s.pairSign t v.verdict w.verdict depths) (RootTerm.pairVerdict v w) := by
  unfold RootTerm.pairSign RootTerm.pairVerdict
  split_ifs
  · exact .pure _
  · exact .pure _
  · refine .lift_bind fun k hk => ?_
    have hdepth := RootTerm.eq_of_pairDepth hk
    exact (hR (R.sub hs.square ht.square) (by omega) (by omega)).bind (.pure _)

/-- The difference of squares that settles a sum of three terms stands for the exact one. -/
theorem readsDifference_squares (hr : R.ReadsTerm depths r u) (hs : R.ReadsTerm depths s v)
    (ht : R.ReadsTerm depths t w) :
    R.ReadsDifference
      ⟨2 * depths.coefficient + depths.radicand + 4, 2 * depths.coefficient + 2,
        2 * depths.radicand + 1⟩
      ⟨r.square - s.square - t.square, Scalar.ofFloat 2 * s.coefficient * t.coefficient,
        s.radicand * t.radicand⟩
      ⟨u.exactSquare - v.exactSquare - w.exactSquare, 2 * v.coefficient * w.coefficient,
        v.radicand * w.radicand⟩ where
  rational := R.mono (R.sub (R.sub hr.square hs.square) ht.square) (by dsimp only; omega)
  coefficient := R.mono (R.mul (R.mul R.two hs.coefficient) ht.coefficient) (by dsimp only; omega)
  radicand := R.mono (R.mul hs.radicand ht.radicand) (by dsimp only; omega)

/-- A sign test that is never wrong gives a sign of root sums that is never wrong. -/
theorem truthful_sumSign (hR : R.NeverWrong limit) (hr : R.ReadsTerm depths r u)
    (hs : R.ReadsTerm depths s v) (ht : R.ReadsTerm depths t w)
    (hlimit : 4 * depths.coefficient + 2 * depths.radicand + 10 ≤ limit) :
    Truthful (RootTerm.sumSign r s t depths) (RootTerm.sumVerdict u v w) := by
  have hradicand : depths.radicand ≤ limit := by omega
  have hcoefficient : depths.coefficient ≤ limit := by omega
  unfold RootTerm.sumSign RootTerm.sumVerdict
  refine (hr.truthful_sign hR hradicand hcoefficient).bind
    ((hs.truthful_sign hR hradicand hcoefficient).bind
      ((ht.truthful_sign hR hradicand hcoefficient).bind
        ((truthful_pairSign hR hs ht (by omega)).bind ?_)))
  dsimp only
  split_ifs
  · exact .pure _
  · exact .pure _
  · refine .lift_bind fun d hd => ?_
    rw [RootTerm.eq_of_differenceDepths hd]
    exact ((readsDifference_squares hr hs ht).truthful_sign hR (by dsimp only; omega)).bind
      (.pure _)

end Reading

/-! ## Root sums of doubles in exact numbers -/

namespace RootTerm

/-- The parts of the term are finite doubles. -/
def Finite (t : RootTerm Float) : Prop := t.radicand.isFinite = true ∧ t.coefficient.isFinite = true

instance (t : RootTerm Float) : Decidable t.Finite := inferInstanceAs (Decidable (_ ∧ _))

/-- The term with its parts as scalars, exactly. -/
def lift (α : Type) [Scalar α] (t : RootTerm Float) : RootTerm α :=
  ⟨Scalar.ofFloat t.radicand, Scalar.ofFloat t.coefficient⟩

/-- The term with its exact parts. -/
def exact (t : RootTerm Float) : RootTerm ℚ :=
  ⟨Binary64.value t.radicand, Binary64.value t.coefficient⟩

theorem Finite.fits {t : RootTerm Float} (h : t.Finite) : (t.lift Expression).Fits ⟨0, 0⟩ :=
  ⟨.leaf h.1, .leaf h.2⟩

theorem Finite.readsTerm {α : Type} [Scalar α] {t : RootTerm Float} (h : t.Finite) :
    (Reading.expressions α).ReadsTerm ⟨0, 0⟩ (t.lift α) t.exact :=
  ⟨⟨_, h.fits.radicand, rfl, rfl⟩, ⟨_, h.fits.coefficient, rfl, rfl⟩⟩

end RootTerm

/-! An exact number knows its sign whatever the budget is, so the depths do not matter. -/

theorem Certify.lift_ok_bind {A B : Type} (c : A) (f : A → Certify B) :
    ((liftM (Except.ok c : Except Fault A) : Certify A) >>= f) = f c := rfl

theorem RootDifference.sign_bigFloat {d : RootDifference BigFloat} {depths : RootDifference ℕ}
    (h : max (2 * depths.rational + 1) (2 * depths.coefficient + 1 + depths.radicand + 1) + 1 <
      depthLimit) : d.sign depths = d.sign ⟨4, 2, 1⟩ := by
  unfold RootDifference.sign
  rw [depths.squaredDepth_of_lt h]
  rfl

namespace RootTerm

theorem pairSign_bigFloat {s t : RootTerm BigFloat} {sSign tSign : Sign} {depths : RootTerm ℕ}
    (h : 2 * depths.coefficient + depths.radicand + 3 < depthLimit) :
    pairSign s t sSign tSign depths = pairSign s t sSign tSign ⟨0, 0⟩ := by
  unfold pairSign
  rw [pairDepth_of_lt depths h]
  rfl

theorem sumSign_bigFloat {r s t : RootTerm BigFloat} {depths : RootTerm ℕ}
    (h : 4 * depths.coefficient + 2 * depths.radicand + 10 < depthLimit) :
    sumSign r s t depths = sumSign r s t ⟨0, 0⟩ := by
  unfold sumSign
  have hpair : 2 * depths.coefficient + depths.radicand + 3 < depthLimit := by omega
  rw [depths.differenceDepths_of_lt (by omega) (by omega)]
  simp only [pairSign_bigFloat hpair, Certify.lift_ok_bind]
  rw [RootDifference.sign_bigFloat]
  · rfl
  · dsimp only
    omega

/-- In exact numbers the sign of a sum of three root terms is always found. -/
theorem run_sumSign {r s t : RootTerm Float} {depths : RootTerm ℕ} (hr : r.Finite) (hs : s.Finite)
    (ht : t.Finite) (hdepths : 4 * depths.coefficient + 2 * depths.radicand + 10 < depthLimit) :
    (sumSign (r.lift BigFloat) (s.lift BigFloat) (t.lift BigFloat) depths).run =
      .ok (some (sumVerdict r.exact s.exact t.exact)) := by
  rw [sumSign_bigFloat hdepths]
  exact (answers_sumSign (α := BigFloat) hr.fits hs.fits ht.fits (by decide)).run_eq

end RootTerm

/-- In exact numbers the sign of a sum of three root terms over finite doubles is found. In every
scalar, a sign test that is never wrong about the numbers that are read from the scalar makes for
signs of such sums that are never wrong. The radicands must not be negative. -/
theorem sumSign_right :
    (∀ (r s t : RootTerm Float) (depths : RootTerm ℕ), r.Finite → s.Finite → t.Finite →
      0 ≤ r.exact.radicand → 0 ≤ s.exact.radicand → 0 ≤ t.exact.radicand →
      4 * depths.coefficient + 2 * depths.radicand + 10 < depthLimit →
      (RootTerm.sumSign (r.lift BigFloat) (s.lift BigFloat) (t.lift BigFloat) depths).run =
        .ok (some (Sign.of (r.exact.toReal + s.exact.toReal + t.exact.toReal)))) ∧
    (∀ (α : Type) [Scalar α] (R : Reading α) (limit : ℕ), R.NeverWrong limit →
      ∀ (r s t : RootTerm α) (u v w : RootTerm ℚ) (depths : RootTerm ℕ),
        R.ReadsTerm depths r u → R.ReadsTerm depths s v → R.ReadsTerm depths t w →
        0 ≤ u.radicand → 0 ≤ v.radicand → 0 ≤ w.radicand →
        4 * depths.coefficient + 2 * depths.radicand + 10 ≤ limit →
        ∀ sign, (RootTerm.sumSign r s t depths).run = .ok (some sign) →
          sign = Sign.of (u.toReal + v.toReal + w.toReal)) := by
  refine ⟨?_, ?_⟩
  · intro r s t depths hr hs ht hp₁ hp₂ hp₃ hdepths
    rw [RootTerm.run_sumSign hr hs ht hdepths, RootTerm.sumVerdict_eq hp₁ hp₂ hp₃]
  · intro α _ R limit hR r s t u v w depths hr hs ht hp₁ hp₂ hp₃ hlimit sign hrun
    rw [← RootTerm.sumVerdict_eq hp₁ hp₂ hp₃]
    exact Reading.truthful_sumSign hR hr hs ht hlimit sign hrun

/-- The roots of 4 and 9 sum up to that of 25, as exact numbers find, and to more than that of 16,
of which tracked doubles are certain. -/
theorem sumSign_right_squares :
    Sign.of ((RootTerm.exact ⟨4, 1⟩).toReal + (RootTerm.exact ⟨9, 1⟩).toReal +
        (RootTerm.exact ⟨25, -1⟩).toReal) = .zero ∧
      Sign.of ((RootTerm.exact ⟨4, 1⟩).toReal + (RootTerm.exact ⟨9, 1⟩).toReal +
        (RootTerm.exact ⟨16, -1⟩).toReal) = .positive := by
  have hfour : RootTerm.Finite ⟨4, 1⟩ ∧ 0 ≤ (RootTerm.exact ⟨4, 1⟩).radicand := by decide +kernel
  have hnine : RootTerm.Finite ⟨9, 1⟩ ∧ 0 ≤ (RootTerm.exact ⟨9, 1⟩).radicand := by decide +kernel
  have hsixteen : RootTerm.Finite ⟨16, -1⟩ ∧ 0 ≤ (RootTerm.exact ⟨16, -1⟩).radicand := by
    decide +kernel
  have htwentyfive : RootTerm.Finite ⟨25, -1⟩ ∧ 0 ≤ (RootTerm.exact ⟨25, -1⟩).radicand := by
    decide +kernel
  obtain ⟨hexact, hreading⟩ := sumSign_right
  constructor
  · have hsign := hexact _ _ _ ⟨0, 0⟩ hfour.1 hnine.1 htwentyfive.1 hfour.2 hnine.2 htwentyfive.2
      (by decide)
    have hrun : (RootTerm.sumSign (RootTerm.lift BigFloat ⟨4, 1⟩) (RootTerm.lift _ ⟨9, 1⟩)
      (RootTerm.lift _ ⟨25, -1⟩) ⟨0, 0⟩).run = .ok (some .zero) := by decide +kernel
    rw [hrun, Except.ok.injEq, Option.some.injEq] at hsign
    exact hsign.symm
  · have hrun : (RootTerm.sumSign (RootTerm.lift (Tracked Float) ⟨4, 1⟩) (RootTerm.lift _ ⟨9, 1⟩)
      (RootTerm.lift _ ⟨16, -1⟩) ⟨0, 0⟩).run = .ok (some .positive) := by decide +kernel
    have hright : (Reading.expressions (Tracked Float)).NeverWrong 64 :=
      Reading.neverWrong_expressions
    exact (hreading _ _ 64 hright _ _ _ _ _ _ ⟨0, 0⟩ hfour.1.readsTerm hnine.1.readsTerm
      hsixteen.1.readsTerm hfour.2 hnine.2 hsixteen.2 (by decide) _ hrun).symm

end ExactSphere
