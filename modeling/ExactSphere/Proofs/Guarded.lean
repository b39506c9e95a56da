import ExactSphere.Proofs.BigFloat.Words
import ExactSphere.Proofs.SoundScalar

/-!
# Arithmetic that watches its words

Tracked values count depths in unsigned 32-bit words, and exact ones count exponents and bits in
signed ones. A `Guarded` scalar computes as its scalar does and notes whether all words so far were
large enough; a sign test of one that overflowed is a fault. The guarded scalars are as sound as
the scalars themselves (`WordSafe`), so a formula has an answer in both or in neither. Checking
every result of a tracked formula finds the same overflows (`Tracked.evalChecked_eq`).
-/

namespace ExactSphere

open Certify (Answers)

/-- Whether words hold what the operations of a scalar compute. -/
class Words (α : Type) where
  conversionFits : Float → Bool
  sumFits : α → α → Bool
  differenceFits : α → α → Bool
  productFits : α → α → Bool

/-- The depths of sums and products have to fit; those of inputs are zero. -/
instance {β : Type} : Words (Tracked β) where
  conversionFits _ := true
  sumFits x y := max x.depth y.depth + 1 < depthLimit
  differenceFits x y := max x.depth y.depth + 1 < depthLimit
  productFits x y := x.depth + y.depth + 1 < depthLimit

instance : Words BigFloat where
  conversionFits := BigFloat.conversionFits
  sumFits := BigFloat.sumFits
  differenceFits x y := BigFloat.sumFits x (-y)
  productFits := BigFloat.productFits

/-- A scalar and whether words held everything that was computed for it. -/
structure Guarded (α : Type) where
  value : α
  fits : Bool

namespace Guarded

variable {α : Type} [Scalar α] [Words α]

/-- A sign test of a scalar that overflowed before is a fault. -/
instance : Scalar (Guarded α) where
  add x y := ⟨x.value + y.value, x.fits && y.fits && Words.sumFits x.value y.value⟩
  sub x y := ⟨x.value - y.value, x.fits && y.fits && Words.differenceFits x.value y.value⟩
  mul x y := ⟨x.value * y.value, x.fits && y.fits && Words.productFits x.value y.value⟩
  neg x := ⟨-x.value, x.fits⟩
  ofFloat x := ⟨Scalar.ofFloat x, Words.conversionFits α x⟩
  abs x := ⟨Scalar.abs x.value, x.fits⟩
  sign? x budget := if x.fits then sign? x.value budget else Certify.fault .depthSum

variable (x y : Guarded α)

@[simp] theorem fits_add :
    (x + y).fits = (x.fits && y.fits && Words.sumFits x.value y.value) := rfl

@[simp] theorem fits_sub :
    (x - y).fits = (x.fits && y.fits && Words.differenceFits x.value y.value) := rfl

@[simp] theorem fits_mul :
    (x * y).fits = (x.fits && y.fits && Words.productFits x.value y.value) := rfl

theorem value_eval (e : Expression) : (e.eval (Guarded α)).value = e.eval α := by
  induction e with
  | leaf x => rfl
  | add e f ihe ihf => exact congrArg₂ (· + ·) ihe ihf
  | sub e f ihe ihf => exact congrArg₂ (· - ·) ihe ihf
  | mul e f ihe ihf => exact congrArg₂ (· * ·) ihe ihf
  | neg e ih => exact congrArg (-·) ih
  | abs e ih => exact congrArg Scalar.abs ih

theorem sign?_of_fits {x : Guarded α} (h : x.fits = true) (budget : ℕ) :
    sign? x budget = sign? x.value budget := if_pos h

end Guarded

/-- The formula evaluated in a scalar, where every result has to pass the check of the scalar. -/
def Expression.evalChecked (α : Type) [Scalar α] : Expression → Except Fault α
  | leaf x => Scalar.checked (Scalar.ofFloat x)
  | add e f => do Scalar.checked ((← e.evalChecked α) + (← f.evalChecked α))
  | sub e f => do Scalar.checked ((← e.evalChecked α) - (← f.evalChecked α))
  | mul e f => do Scalar.checked ((← e.evalChecked α) * (← f.evalChecked α))
  | neg e => do Scalar.checked (-(← e.evalChecked α))
  | abs e => do Scalar.checked (Scalar.abs (← e.evalChecked α))

/-- A scalar whose words hold all expressions within the budgets that formulas use. -/
class WordSafe (α : Type) [Scalar α] [Words α] : Prop where
  fits_eval {e : Expression} (he : e.Fits 64) : (e.eval (Guarded α)).fits = true

namespace Tracked

variable {β : Type} [WorkingFloat β]

/-- A depth that fits has been reached through depths that fit. -/
theorem fits_eval_iff (e : Expression) :
    (e.eval (Guarded (Tracked β))).fits = true ↔ e.depth < depthLimit := by
  have hdepth : ∀ e : Expression, (e.eval (Guarded (Tracked β))).value.depth = e.depth := by
    intro e
    rw [Guarded.value_eval, Expression.depth_eval]
  induction e with
  | leaf x => exact iff_of_true rfl (show 0 < depthLimit by decide)
  | add e f ihe ihf =>
    simp only [Expression.eval, Guarded.fits_add, Words.sumFits, hdepth, Bool.and_eq_true, ihe, ihf,
      decide_eq_true_eq, Expression.depth]
    omega
  | sub e f ihe ihf =>
    simp only [Expression.eval, Guarded.fits_sub, Words.differenceFits, hdepth, Bool.and_eq_true,
      ihe, ihf, decide_eq_true_eq, Expression.depth]
    omega
  | mul e f ihe ihf =>
    simp only [Expression.eval, Guarded.fits_mul, Words.productFits, hdepth, Bool.and_eq_true, ihe,
      ihf, decide_eq_true_eq, Expression.depth]
    omega
  | neg e ih | abs e ih => exact ih

/-- A number whose depth is known, or the fault of a depth that has left its word. -/
def ofDepth (k : ℕ) (x : Tracked β) : Except Fault (Tracked β) :=
  if k < depthLimit then .ok x else .error .depthSum

theorem checked_eval (e : Expression) :
    Scalar.checked (e.eval (Tracked β)) = ofDepth e.depth (e.eval (Tracked β)) := by
  rw [← e.depth_eval (α := β)]
  rfl

omit [WorkingFloat β] in
/-- An operand that has left its word leaves no room for the result. -/
theorem ofDepth_bind {x y : Tracked β} {f : Tracked β → Except Fault (Tracked β)} {i k : ℕ}
    (hik : i ≤ k) (h : f x = ofDepth k y) : ofDepth i x >>= f = ofDepth k y := by
  unfold ofDepth at h ⊢
  by_cases hi : i < depthLimit
  · rw [if_pos hi]
    exact h
  · rw [if_neg hi, if_neg (by omega)]
    rfl

/-- Numbers that are checked one by one overflow where watched words do. -/
theorem evalChecked_eq (e : Expression) : e.evalChecked (Tracked β) =
    if (e.eval (Guarded (Tracked β))).fits then .ok (e.eval (Tracked β))
    else .error .depthSum := by
  simp only [fits_eval_iff]
  change _ = ofDepth e.depth (e.eval (Tracked β))
  have hsum : ∀ {i j : ℕ}, i ≤ max i j + 1 ∧ j ≤ max i j + 1 := by omega
  have hproduct : ∀ {i j : ℕ}, i ≤ i + j + 1 ∧ j ≤ i + j + 1 := by omega
  induction e with
  | leaf x => exact checked_eval (.leaf x)
  | add e f ihe ihf =>
    rw [Expression.evalChecked, ihe, ihf]
    exact ofDepth_bind hsum.1 (ofDepth_bind hsum.2 (checked_eval (.add e f)))
  | sub e f ihe ihf =>
    rw [Expression.evalChecked, ihe, ihf]
    exact ofDepth_bind hsum.1 (ofDepth_bind hsum.2 (checked_eval (.sub e f)))
  | mul e f ihe ihf =>
    rw [Expression.evalChecked, ihe, ihf]
    exact ofDepth_bind hproduct.1 (ofDepth_bind hproduct.2 (checked_eval (.mul e f)))
  | neg e ih =>
    rw [Expression.evalChecked, ih]
    exact ofDepth_bind le_rfl (checked_eval (.neg e))
  | abs e ih =>
    rw [Expression.evalChecked, ih]
    exact ofDepth_bind le_rfl (checked_eval (.abs e))

instance : WordSafe (Tracked β) where
  fits_eval he := (fits_eval_iff _).2 (he.depth_le.trans_lt (by decide))

end Tracked

namespace BigFloat

theorem canonical_eval (e : Expression) : (e.eval BigFloat).Canonical := by
  induction e with
  | leaf x => exact canonical_ofFloat x
  | add e f ihe ihf => exact canonical_add ihe ihf
  | sub e f ihe ihf => exact canonical_sub ihe ihf
  | mul e f ihe ihf => exact canonical_mul ihe ihf
  | neg e ih => exact canonical_neg ih
  | abs e ih => exact canonical_abs ih

/-- Exact arithmetic stays within its words, whatever is computed from whatever doubles. -/
theorem fits_eval (e : Expression) : (e.eval (Guarded BigFloat)).fits = true := by
  induction e with
  | leaf x => exact conversionFits_eq x
  | add e f ihe ihf =>
    rw [Expression.eval, Guarded.fits_add, ihe, ihf, Guarded.value_eval, Guarded.value_eval]
    exact sumFits_of_canonical (canonical_eval e) (canonical_eval f)
  | sub e f ihe ihf =>
    rw [Expression.eval, Guarded.fits_sub, ihe, ihf, Guarded.value_eval, Guarded.value_eval]
    exact sumFits_of_canonical (canonical_eval e) (canonical_neg (canonical_eval f))
  | mul e f ihe ihf =>
    rw [Expression.eval, Guarded.fits_mul, ihe, ihf, Guarded.value_eval, Guarded.value_eval]
    exact productFits_of_canonical (canonical_eval e) (canonical_eval f)
  | neg e ih | abs e ih => exact ih

instance : WordSafe BigFloat where
  fits_eval _ := fits_eval _

end BigFloat

/-- Guarded scalars are as right about signs as the scalars themselves. -/
instance {α : Type} [Scalar α] [Words α] {rounded : Bool} [SoundScalar rounded α] [WordSafe α] :
    SoundScalar rounded (Guarded α) where
  answers_sign? budget e he hbudget := by
    rw [Guarded.sign?_of_fits (WordSafe.fits_eval (he.mono hbudget)), Guarded.value_eval]
    exact answers_sign? budget he hbudget

end ExactSphere
