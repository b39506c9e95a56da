import ExactSphere.Tracked
import ExactSphere.Proofs.Binary64.Native

/-!
# Expression trees and their exact values

A formula over some `Scalar` is the value of an expression tree in that scalar (`eval`). The tree
also has an exact rational value, a depth, and an exact magnitude: the bound on everything that
goes into the value, of which a tracked number carries a rounded copy.
-/

namespace ExactSphere

/-- The sign of an exact quantity. -/
def Sign.of {K : Type*} [Zero K] [LinearOrder K] (x : K) : Sign :=
  if x < 0 then .negative else if x = 0 then .zero else .positive

namespace Sign

section Order

variable {K : Type*} [Zero K] [LinearOrder K] {x : K}

theorem of_neg (h : x < 0) : Sign.of x = negative := if_pos h

theorem of_pos (h : 0 < x) : Sign.of x = positive := by
  rw [Sign.of, if_neg h.not_gt, if_neg h.ne']

@[simp] theorem of_zero : Sign.of (0 : K) = zero := by simp [Sign.of]

@[simp] theorem of_eq_zero_iff : Sign.of x = zero ↔ x = 0 := by
  rcases lt_trichotomy x 0 with h | rfl | h
  · simp [of_neg h, h.ne]
  · simp
  · simp [of_pos h, h.ne']

@[simp] theorem of_eq_negative_iff : Sign.of x = negative ↔ x < 0 := by
  rcases lt_trichotomy x 0 with h | rfl | h
  · simp [of_neg h, h]
  · simp
  · simp [of_pos h, h.le]

@[simp] theorem of_eq_positive_iff : Sign.of x = positive ↔ 0 < x := by
  rcases lt_trichotomy x 0 with h | rfl | h
  · simp [of_neg h, h.le]
  · simp
  · simp [of_pos h, h]

end Order

variable {K : Type*} [Ring K] [LinearOrder K] [IsStrictOrderedRing K] {x : K}

theorem of_mul_of_pos {k : K} (hk : 0 < k) (x : K) : Sign.of (k * x) = Sign.of x := by
  rcases lt_trichotomy x 0 with h | rfl | h
  · rw [of_neg h, of_neg (mul_neg_of_pos_of_neg hk h)]
  · rw [mul_zero]
  · rw [of_pos h, of_pos (mul_pos hk h)]

theorem of_neg_eq (x : K) : Sign.of (-x) = -Sign.of x := by
  rcases lt_trichotomy x 0 with h | rfl | h
  · rw [of_neg h, of_pos (neg_pos.2 h)]
    rfl
  · rw [neg_zero, of_zero]
    rfl
  · rw [of_pos h, of_neg (neg_neg_iff_pos.2 h)]
    rfl

end Sign

/-- A formula of sums, differences, products, negations and absolute values over doubles. -/
inductive Expression where
  | leaf (x : Float)
  | add (e f : Expression)
  | sub (e f : Expression)
  | mul (e f : Expression)
  | neg (e : Expression)
  | abs (e : Expression)

namespace Expression

/-- The formula evaluated in a scalar. -/
def eval (α : Type) [Scalar α] : Expression → α
  | leaf x => Scalar.ofFloat x
  | add e f => e.eval α + f.eval α
  | sub e f => e.eval α - f.eval α
  | mul e f => e.eval α * f.eval α
  | neg e => -e.eval α
  | abs e => Scalar.abs (e.eval α)

/-- The exact value. -/
def value : Expression → ℚ
  | leaf x => Binary64.value x
  | add e f => e.value + f.value
  | sub e f => e.value - f.value
  | mul e f => e.value * f.value
  | neg e => -e.value
  | abs e => |e.value|

/-- Whether all leaves are finite doubles. -/
def Finite : Expression → Prop
  | leaf x => x.isFinite = true
  | add e f | sub e f | mul e f => e.Finite ∧ f.Finite
  | neg e | abs e => e.Finite

instance decidableFinite : (e : Expression) → Decidable e.Finite
  | leaf x => inferInstanceAs (Decidable (x.isFinite = true))
  | add e f | sub e f | mul e f =>
    have := decidableFinite e
    have := decidableFinite f
    inferInstanceAs (Decidable (e.Finite ∧ f.Finite))
  | neg e | abs e => decidableFinite e

/-- The depth of the longest chain of rounded operations, as tracked numbers count it. -/
def depth : Expression → ℕ
  | leaf _ => 0
  | add e f | sub e f => max e.depth f.depth + 1
  | mul e f => e.depth + f.depth + 1
  | neg e | abs e => e.depth

/-- The exact magnitude, where a product that is not zero allows for the given underflow margin. -/
def magnitude (margin : ℚ) : Expression → ℚ
  | leaf x => |Binary64.value x|
  | add e f | sub e f => e.magnitude margin + f.magnitude margin
  | mul e f =>
    if e.magnitude margin = 0 ∨ f.magnitude margin = 0 then 0
    else e.magnitude margin * f.magnitude margin + margin
  | neg e | abs e => e.magnitude margin

theorem depth_eval {α : Type} [WorkingFloat α] (e : Expression) :
    (e.eval (Tracked α)).depth = e.depth := by
  induction e with
  | leaf x => rfl
  | add e f ihe ihf =>
    rw [depth, ← ihe, ← ihf]
    rfl
  | sub e f ihe ihf =>
    rw [depth, ← ihe, ← ihf]
    rfl
  | mul e f ihe ihf =>
    rw [depth, ← ihe, ← ihf]
    rfl
  | neg e ih => exact ih
  | abs e ih => exact ih

variable {margin : ℚ}

theorem magnitude_nonneg (hmargin : 0 ≤ margin) (e : Expression) : 0 ≤ e.magnitude margin := by
  induction e with
  | leaf x => exact abs_nonneg _
  | add e f ihe ihf | sub e f ihe ihf => exact add_nonneg ihe ihf
  | mul e f ihe ihf =>
    rw [magnitude]
    split_ifs
    · exact le_rfl
    · positivity
  | neg e ih | abs e ih => exact ih

/-- The value does not exceed the magnitude. -/
theorem abs_value_le (hmargin : 0 ≤ margin) (e : Expression) : |e.value| ≤ e.magnitude margin := by
  induction e with
  | leaf x => exact le_rfl
  | add e f ihe ihf => exact (abs_add_le _ _).trans (add_le_add ihe ihf)
  | sub e f ihe ihf => exact (abs_sub _ _).trans (add_le_add ihe ihf)
  | mul e f ihe ihf =>
    have hproduct := mul_le_mul ihe ihf (abs_nonneg _) (magnitude_nonneg hmargin e)
    rw [value, magnitude, abs_mul]
    split_ifs with hzero
    · rcases hzero with h | h <;> rw [h] at hproduct <;> simpa using hproduct
    · linarith
  | neg e ih => rwa [value, abs_neg, magnitude]
  | abs e ih => rwa [value, abs_abs, magnitude]

/-- Below the margin only sums of leaves are left. -/
theorem magnitude_eq_zero_of_mul (hmargin : 0 ≤ margin) {e f : Expression}
    (h : (mul e f).magnitude margin < margin) :
    (mul e f).magnitude margin = 0 := by
  have he := magnitude_nonneg hmargin e
  have hf := magnitude_nonneg hmargin f
  rw [magnitude] at h ⊢
  split_ifs at h ⊢ with hzero
  · rfl
  · nlinarith

/-- A sum of finite leaves is a multiple of the smallest double. -/
theorem onGrid_value (hmargin : 0 ≤ margin) (e : Expression) (h : e.magnitude margin < margin) :
    Binary64.OnGrid (-1074) e.value := by
  induction e with
  | leaf x => exact (Binary64.representable_value x).onGrid
  | add e f ihe ihf =>
    have he := magnitude_nonneg hmargin e
    have hf := magnitude_nonneg hmargin f
    rw [magnitude] at h
    exact (ihe (by linarith)).add (ihf (by linarith))
  | sub e f ihe ihf =>
    have he := magnitude_nonneg hmargin e
    have hf := magnitude_nonneg hmargin f
    rw [magnitude] at h
    exact (ihe (by linarith)).sub (ihf (by linarith))
  | mul e f ihe ihf =>
    have hle := abs_value_le hmargin (mul e f)
    rw [magnitude_eq_zero_of_mul hmargin h] at hle
    rw [abs_nonpos_iff.1 hle]
    exact .zero _
  | neg e ih => exact (ih h).neg
  | abs e ih => exact (ih h).abs

end Expression
end ExactSphere
