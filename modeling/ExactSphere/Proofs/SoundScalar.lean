import ExactSphere.Proofs.Certify
import ExactSphere.Proofs.Point
import ExactSphere.Proofs.BigFloat.Expression
import ExactSphere.Proofs.Tracked.Double
import ExactSphere.Proofs.Tracked.DoubleWord

/-!
# Scalars that are right about signs

Expressions are scalars themselves. A formula over a scalar `α` is therefore the value in `α` of
the same formula over expressions, and a sign test of `α` is right if it gives the sign of the
exact value of the expression (`SoundScalar`). All scalars of the library are sound, and
`BigFloat` is never undecided.
-/

namespace ExactSphere

open Certify (Answers)

/-- An expression knows the sign of its exact value. -/
instance : Scalar Expression where
  add := .add
  sub := .sub
  mul := .mul
  neg := .neg
  ofFloat := .leaf
  abs := .abs
  sign? e _ := pure (Sign.of e.value)

/-! ## Values -/

namespace Expression

@[simp] theorem value_ofFloat (x : Float) :
    (Scalar.ofFloat x : Expression).value = Binary64.value x := rfl

@[simp] theorem value_add (e f : Expression) : (e + f).value = e.value + f.value := rfl

@[simp] theorem value_sub (e f : Expression) : (e - f).value = e.value - f.value := rfl

@[simp] theorem value_mul (e f : Expression) : (e * f).value = e.value * f.value := rfl

end Expression

namespace Vec3

/-- The vector evaluated in a scalar. -/
def eval (α : Type) [Scalar α] (v : Vec3 Expression) : Vec3 α := v.map (Expression.eval α)

/-- The exact vector. -/
def value (v : Vec3 Expression) : Vec3 ℚ := v.map Expression.value

variable (v w : Vec3 Expression)

@[simp] theorem value_dot : (v.dot w).value = v.value.dot w.value := rfl

@[simp] theorem value_normSq : v.normSq.value = v.value.normSq := rfl

@[simp] theorem value_cross : (v.cross w).value = v.value.cross w.value := rfl

@[simp] theorem value_add : (v + w).value = v.value + w.value := rfl

@[simp] theorem value_sub : (v - w).value = v.value - w.value := rfl

end Vec3

/-! ## Bounds on the depth -/

namespace Expression

/-- The expression is over finite doubles and at most `k` deep. -/
structure Fits (k : ℕ) (e : Expression) : Prop where
  finite : e.Finite
  depth_le : e.depth ≤ k

namespace Fits

variable {i j k : ℕ} {e f : Expression}

theorem leaf {x : Float} (h : x.isFinite = true) : Fits 0 (Scalar.ofFloat x) := ⟨h, le_rfl⟩

theorem one : Fits 0 (Scalar.ofFloat 1) := leaf (by decide)

theorem two : Fits 0 (Scalar.ofFloat 2) := leaf (by decide)

theorem four : Fits 0 (Scalar.ofFloat 4) := leaf (by decide)

theorem half : Fits 0 (Scalar.ofFloat 0.5) := leaf (by decide)

theorem quarter : Fits 0 (Scalar.ofFloat 0.25) := leaf (by decide)

theorem mono (h : Fits i e) (hij : i ≤ j) : Fits j e := ⟨h.finite, h.depth_le.trans hij⟩

theorem add (he : Fits i e) (hf : Fits j f) : Fits (max i j + 1) (e + f) :=
  ⟨⟨he.finite, hf.finite⟩, Nat.succ_le_succ (max_le_max he.depth_le hf.depth_le)⟩

theorem sub (he : Fits i e) (hf : Fits j f) : Fits (max i j + 1) (e - f) :=
  ⟨⟨he.finite, hf.finite⟩, Nat.succ_le_succ (max_le_max he.depth_le hf.depth_le)⟩

theorem mul (he : Fits i e) (hf : Fits j f) : Fits (i + j + 1) (e * f) :=
  ⟨⟨he.finite, hf.finite⟩, Nat.succ_le_succ (add_le_add he.depth_le hf.depth_le)⟩

theorem neg (he : Fits i e) : Fits i (-e) := ⟨he.finite, he.depth_le⟩

theorem abs (he : Fits i e) : Fits i (Scalar.abs e) := ⟨he.finite, he.depth_le⟩

/-- Exact arithmetic represents the value. -/
theorem represents (he : Fits k e) (hk : k ≤ 64 := by decide) :
    BigFloat.Represents (e.eval BigFloat) e.value := by
  have hdepth := he.depth_le
  exact e.represents_eval he.finite (by unfold BigFloat.windowLimit; omega)

end Fits
end Expression

namespace Vec3

/-- All components are over finite doubles and at most `k` deep. -/
structure Fits (k : ℕ) (v : Vec3 Expression) : Prop where
  x : v.x.Fits k
  y : v.y.Fits k
  z : v.z.Fits k

namespace Fits

variable {i j : ℕ} {v w : Vec3 Expression}

theorem dot (hv : Fits i v) (hw : Fits j w) : (v.dot w).Fits (i + j + 3) :=
  (((hv.x.mul hw.x).add (hv.y.mul hw.y)).add (hv.z.mul hw.z)).mono (by omega)

theorem cross (hv : Fits i v) (hw : Fits j w) : (v.cross w).Fits (i + j + 2) where
  x := ((hv.y.mul hw.z).sub (hv.z.mul hw.y)).mono (by omega)
  y := ((hv.z.mul hw.x).sub (hv.x.mul hw.z)).mono (by omega)
  z := ((hv.x.mul hw.y).sub (hv.y.mul hw.x)).mono (by omega)

theorem normSq (hv : Fits i v) : v.normSq.Fits (i + i + 3) := hv.dot hv

theorem add (hv : Fits i v) (hw : Fits j w) : (v + w).Fits (max i j + 1) :=
  ⟨hv.x.add hw.x, hv.y.add hw.y, hv.z.add hw.z⟩

theorem sub (hv : Fits i v) (hw : Fits j w) : (v - w).Fits (max i j + 1) :=
  ⟨hv.x.sub hw.x, hv.y.sub hw.y, hv.z.sub hw.z⟩

theorem scale {k : Expression} (hv : Fits j v) (hk : k.Fits i) : (v.scale k).Fits (i + j + 1) :=
  ⟨hk.mul hv.x, hk.mul hv.y, hk.mul hv.z⟩

end Fits
end Vec3

namespace Point

@[simp] theorem value_lift (p : Point) : (p.lift Expression).value = p.value := rfl

theorem Finite.fits {p : Point} (h : p.Finite) : (p.lift Expression).Fits 0 :=
  ⟨.leaf h.1, .leaf h.2.1, .leaf h.2.2⟩

end Point

/-! ## Sound scalars -/

/-- A scalar whose sign test is right about expressions over finite doubles, within any budget
that formulas use. Only a `rounded` scalar may stay undecided. -/
class SoundScalar (rounded : outParam Bool) (α : Type) [Scalar α] : Prop where
  answers_sign? (budget : ℕ) {e : Expression} (he : e.Fits budget)
    (hbudget : budget ≤ 64 := by decide) :
    Answers rounded (sign? (e.eval α) budget) (Sign.of e.value)

export SoundScalar (answers_sign?)

instance : SoundScalar true (Tracked Float) where
  answers_sign? _ e he hbudget := Tracked.Double.answers_sign? e he.finite he.depth_le hbudget

instance : SoundScalar true (Tracked DoubleWord) where
  answers_sign? _ e he hbudget :=
    Tracked.DoubleWord.answers_sign? e he.finite he.depth_le hbudget

instance : SoundScalar false BigFloat where
  answers_sign? _ _ he hbudget := .inl (he.represents hbudget).run_sign?

end ExactSphere
