import ExactSphere.Proofs.Expression
import Mathlib.Topology.Instances.Real.Lemmas

/-!
# The sign of a polynomial near zero

For small `t > 0`, a sum of powers of `t` has the sign of its lowest term that does not vanish.
-/

namespace ExactSphere

open Filter Topology

/-- The sum of the terms `c * t ^ n`, given as the pairs of `c` and `n`. -/
def powerSum (terms : List (ℝ × ℕ)) (t : ℝ) : ℝ :=
  (terms.map fun term => term.1 * t ^ term.2).sum

theorem powerSum_cons (c : ℝ) (n : ℕ) (terms : List (ℝ × ℕ)) (t : ℝ) :
    powerSum ((c, n) :: terms) t = c * t ^ n + powerSum terms t := rfl

/-- A sum of higher powers has a common factor. -/
theorem exists_powerSum_eq {n : ℕ} {terms : List (ℝ × ℕ)} (h : ∀ term ∈ terms, n < term.2) :
    ∃ g : ℝ → ℝ, Continuous g ∧ ∀ t, powerSum terms t = t ^ n * (t * g t) := by
  induction terms with
  | nil => exact ⟨0, continuous_const, fun t => by simp [powerSum]⟩
  | cons term terms ih =>
    obtain ⟨c, m⟩ := term
    obtain ⟨g, hg, heq⟩ := ih fun term hterm => h term (List.mem_cons_of_mem _ hterm)
    obtain ⟨k, rfl⟩ : ∃ k, m = n + k + 1 := Nat.exists_eq_add_of_lt (h (c, m) List.mem_cons_self)
    refine ⟨fun t => c * t ^ k + g t, (continuous_const.mul (continuous_pow k)).add hg, ?_⟩
    intro t
    rw [powerSum_cons, heq]
    ring

theorem eventually_sign_of_ne {f : ℝ → ℝ} (hf : Continuous f) (h : f 0 ≠ 0) :
    ∀ᶠ t in 𝓝 0, Sign.of (f t) = Sign.of (f 0) := by
  rcases lt_or_gt_of_ne h with hneg | hpos
  · filter_upwards [hf.continuousAt.eventually_lt continuousAt_const hneg] with t ht
    rw [Sign.of_neg ht, Sign.of_neg hneg]
  · filter_upwards [continuousAt_const.eventually_lt hf.continuousAt hpos] with t ht
    rw [Sign.of_pos ht, Sign.of_pos hpos]

theorem Sign.getD_firstNonzero?_cons (s default : Sign) (signs : List Sign) :
    (firstNonzero? (s :: signs)).getD default =
      if s = .zero then (firstNonzero? signs).getD default else s := by
  cases s <;> rfl

/-- Near zero, the first coefficient that is not zero gives the sign. -/
theorem eventually_sign_powerSum {terms : List (ℝ × ℕ)}
    (h : terms.Pairwise fun term term' => term.2 < term'.2) :
    ∀ᶠ t in 𝓝[>] 0, Sign.of (powerSum terms t) =
      (Sign.firstNonzero? (terms.map fun term => Sign.of term.1)).getD .zero := by
  induction terms with
  | nil => exact Eventually.of_forall fun t => Sign.of_zero
  | cons term terms ih =>
    obtain ⟨c, n⟩ := term
    obtain ⟨hlow, hterms⟩ := List.pairwise_cons.1 h
    rw [List.map_cons, Sign.getD_firstNonzero?_cons]
    by_cases hc : c = 0
    · rw [hc, if_pos Sign.of_zero]
      filter_upwards [ih hterms] with t ht
      rw [powerSum_cons, zero_mul, zero_add, ht]
    · rw [if_neg (mt Sign.of_eq_zero_iff.1 hc)]
      obtain ⟨g, hg, heq⟩ := exists_powerSum_eq hlow
      have hf : Continuous fun t => c + t * g t := continuous_const.add (continuous_id.mul hg)
      have hsign := eventually_sign_of_ne hf (by simpa using hc)
      filter_upwards [hsign.filter_mono nhdsWithin_le_nhds, self_mem_nhdsWithin] with t ht hpos
      have hfactor : c * t ^ n + t ^ n * (t * g t) = t ^ n * (c + t * g t) := by ring
      rw [powerSum_cons, heq, hfactor, Sign.of_mul_of_pos (pow_pos hpos n), ht]
      simp

end ExactSphere
