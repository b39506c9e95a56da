import ExactSphere.Proofs.BigFloat.Arithmetic
import ExactSphere.Proofs.Binary64.Bits
import ExactSphere.Proofs.Binary64.Literals

/-!
# Exact evaluation of expressions

Doubles are converted without loss, and an expression over finite doubles keeps its value up to
any depth that the window of exact arithmetic allows (`represents_eval`). So its sign is certain
whatever cancels on the way (`exact_of_depth_le`).
-/

namespace ExactSphere

namespace BigFloat

theorem magnitudeBits_lt (x : Float) : Binary64.magnitudeBits x < 2 ^ 63 := Nat.mod_lt _ (by decide)

theorem window_value (x : Float) : Window 1 (Binary64.value x) where
  onGrid := (Binary64.representable_value x).onGrid
  lt := Binary64.abs_value_lt x

/-- A finite double is converted without loss. -/
theorem represents_ofFloat {x : Float} (h : x.isFinite = true) :
    Represents (ofFloat x) (Binary64.value x) := by
  have hfinite : Binary64.magnitudeBits x / 2 ^ 52 ≠ 2047 := by
    intro hbits
    rw [Binary64.not_isFinite_of_bits hbits] at h
    cases h
  have hlt : Binary64.magnitudeBits x < Binary64.infinityBits := by
    have := magnitudeBits_lt x
    unfold Binary64.infinityBits
    omega
  have hfraction : Binary64.magnitudeBits x &&& 0xFFFFFFFFFFFFF =
      Binary64.magnitudeBits x % 2 ^ 52 :=
    Nat.and_two_pow_sub_one_eq_mod _ 52
  have hwindow := window_value x
  simp only [ofFloat]
  rw [if_neg hlt.ne, if_neg hlt.not_gt, hfraction, Nat.shiftRight_eq_div_pow]
  split_ifs with hsub
  · rw [Binary64.value_of_datum (Binary64.datum_of_subnormal_bits hsub)] at hwindow ⊢
    exact represents_ofParts (by decide) hwindow
  · have hor : Binary64.magnitudeBits x % 2 ^ 52 ||| 0x10000000000000 =
        2 ^ 52 + Binary64.magnitudeBits x % 2 ^ 52 := by
      rw [Nat.or_comm]
      exact (Nat.two_pow_add_eq_or_of_lt (i := 52) (Nat.mod_lt _ (by positivity)) 1).symm
    rw [Binary64.value_of_datum (Binary64.datum_of_normal_bits hsub hfinite)] at hwindow ⊢
    rw [hor]
    exact represents_ofParts (by decide) hwindow

end BigFloat

namespace Expression

open BigFloat

theorem window_value (e : Expression) (he : e.Finite) : Window (e.depth + 1) e.value := by
  induction e with
  | leaf x => exact BigFloat.window_value x
  | add e f ihe ihf =>
    exact ((ihe he.1).mono (by simp [depth])).add ((ihf he.2).mono (by simp [depth]))
  | sub e f ihe ihf =>
    rw [value, sub_eq_add_neg]
    exact ((ihe he.1).mono (by simp [depth])).add ((ihf he.2).mono (by simp [depth])).neg
  | mul e f ihe ihf => exact ((ihe he.1).mul (ihf he.2)).mono (by rw [depth]; omega)
  | neg e ih => exact (ih he).neg
  | abs e ih => exact (ih he).abs

/-- An expression evaluates to its exact value. -/
theorem represents_eval (e : Expression) (he : e.Finite) (hdepth : e.depth < windowLimit) :
    Represents (e.eval BigFloat) e.value := by
  have hwindow := window_value e he
  induction e with
  | leaf x => exact represents_ofFloat he
  | add e f ihe ihf =>
    rw [depth] at hdepth hwindow
    exact represents_add hdepth (ihe he.1 (by omega) (window_value e he.1))
      (ihf he.2 (by omega) (window_value f he.2)) ((window_value e he.1).mono (by omega))
      ((window_value f he.2).mono (by omega)) hwindow
  | sub e f ihe ihf =>
    rw [depth] at hdepth hwindow
    exact represents_sub hdepth (ihe he.1 (by omega) (window_value e he.1))
      (ihf he.2 (by omega) (window_value f he.2)) ((window_value e he.1).mono (by omega))
      ((window_value f he.2).mono (by omega)) hwindow
  | mul e f ihe ihf =>
    rw [depth] at hdepth hwindow
    exact represents_mul hdepth (ihe he.1 (by omega) (window_value e he.1))
      (ihf he.2 (by omega) (window_value f he.2)) hwindow
  | neg e ih => exact (ih he hdepth (window_value e he)).neg
  | abs e ih => exact (ih he hdepth (window_value e he)).abs

/-- Up to a depth of 30000, exact arithmetic meets no limit: the result is finite, it is the exact
value of the expression, and the sign of that value is certain. -/
theorem exact_of_depth_le {e : Expression} (he : e.Finite) (hdepth : e.depth ≤ 30000) :
    (e.eval BigFloat).isFinite = true ∧ (e.eval BigFloat).isNaN = false ∧
      (e.eval BigFloat).value = e.value ∧
      ∀ budget, (Scalar.sign? (e.eval BigFloat) budget).run = .ok (some (Sign.of e.value)) := by
  have hrepresents := e.represents_eval he (Nat.lt_succ_of_le hdepth)
  exact ⟨hrepresents.isFinite, hrepresents.isNaN_eq_false, hrepresents.value_eq,
    fun _ => hrepresents.run_sign?⟩

/-- The square of the smallest normal double survives beside one, which cancels. -/
theorem exact_of_depth_le_cancellation :
    let tiny := leaf Binary64.minNormal
    let e := sub (add (leaf 1) (mul tiny tiny)) (leaf 1)
    (e.Finite ∧ e.depth ≤ 30000) ∧ (e.eval BigFloat).value = 2 ^ (-2044 : ℤ) ∧
      (Scalar.sign? (e.eval BigFloat) 0).run = .ok (some .positive) := by
  intro tiny e
  have hbounds : e.Finite ∧ e.depth ≤ 30000 := by decide +kernel
  have hvalue : e.value = 2 ^ (-2044 : ℤ) := by
    change Binary64.value 1 + Binary64.value Binary64.minNormal *
      Binary64.value Binary64.minNormal - Binary64.value 1 = _
    rw [Binary64.value_of_datum Binary64.datum_minNormal, add_sub_cancel_left,
      ← zpow_add₀ two_ne_zero]
    rfl
  obtain ⟨-, -, hexact, hsign⟩ := exact_of_depth_le hbounds.1 hbounds.2
  rw [hvalue] at hexact
  rw [hvalue, Sign.of_pos (by positivity)] at hsign
  exact ⟨hbounds, hexact, hsign 0⟩

end Expression

end ExactSphere
