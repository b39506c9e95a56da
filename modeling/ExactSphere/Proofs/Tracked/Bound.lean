import ExactSphere.Proofs.Certify
import ExactSphere.Proofs.Expression
import ExactSphere.Proofs.Tracked.ErrorGrowth

/-!
# What the bookkeeping of a tracked number guarantees

The tracked pair stays close to the exact value and the exact magnitude: `Accuracy` bounds the
error of the value, `Lower` the loss of the magnitude. Both are stated once for every rounded
arithmetic, with its unit roundoff `u`, the smaller unit `δ` of sums below the underflow margin
`η`, and the exact quantities they are relative to. `Accuracy.exact_or_le` is the reason why a sign
test can be trusted.
-/

namespace ExactSphere.Tracked

open Certify (Answers)

variable {u δ η : ℚ} {a b m n x y z r s t : ℚ} {i j k : ℕ}

/-- The exact magnitude of a product. -/
def productMagnitude (η m n : ℚ) : ℚ := if m = 0 ∨ n = 0 then 0 else m * n + η

/-- `x` is a computed value for the exact value `v`, after at most `k` chained operations on
quantities of total magnitude `m`. Below the margin there are only sums. -/
structure Accuracy (u δ η v m : ℚ) (k : ℕ) (x : ℚ) : Prop where
  error : |x - v| ≤ growth u k * m
  sumError : m < η → |x - v| ≤ growth δ k * m

/-- `r` is a computed magnitude for the exact magnitude `m`: it may only be too small by the
rounding errors of two operations for each unit of depth. -/
structure Lower (u m : ℚ) (k : ℕ) (r : ℚ) : Prop where
  nonneg : 0 ≤ r
  eq_zero_iff : r = 0 ↔ m = 0
  le : (1 - u) ^ (2 * k) * m ≤ r

namespace Accuracy

/-- An exact value is accurate. -/
theorem refl (hu : 0 ≤ u) (hδ : 0 ≤ δ) (hm : 0 ≤ m) (k : ℕ) : Accuracy u δ η a m k a where
  error := by
    rw [sub_self, abs_zero]
    exact mul_nonneg (growth_nonneg hu k) hm
  sumError _ := by
    rw [sub_self, abs_zero]
    exact mul_nonneg (growth_nonneg hδ k) hm

theorem neg (h : Accuracy u δ η a m k x) : Accuracy u δ η (-a) m k (-x) where
  error := by
    rw [← neg_sub', abs_neg]
    exact h.error
  sumError hlt := by
    rw [← neg_sub', abs_neg]
    exact h.sumError hlt

theorem abs (h : Accuracy u δ η a m k x) : Accuracy u δ η |a| m k |x| where
  error := (abs_abs_sub_abs_le x a).trans h.error
  sumError hlt := (abs_abs_sub_abs_le x a).trans (h.sumError hlt)

/-- Sums below the margin are exact if they have no unit roundoff there. -/
theorem eq_of_lt (h : Accuracy u 0 η a m k x) (hlt : m < η) : x = a := by
  have herror := h.sumError hlt
  rw [growth, add_zero, one_pow, sub_self, zero_mul] at herror
  exact sub_eq_zero.1 (abs_nonpos_iff.1 herror)

theorem eq_zero (h : Accuracy u δ η a 0 k x) (ha : |a| ≤ 0) : x = 0 := by
  have herror := h.error
  rw [abs_nonpos_iff.1 ha, mul_zero, sub_zero] at herror
  exact abs_nonpos_iff.1 herror

theorem add (hu : 0 ≤ u) (hδ : 0 ≤ δ) (ha : |a| ≤ m) (hb : |b| ≤ n)
    (hx : Accuracy u δ η a m i x) (hy : Accuracy u δ η b n j y)
    (hz : |z - (x + y)| ≤ u * |x + y|) (hsum : m + n < η → |z - (x + y)| ≤ δ * |x + y|) :
    Accuracy u δ η (a + b) (m + n) (max i j + 1) z where
  error := abs_sub_add_le hu ha hb hx.error hy.error hz
  sumError hlt := by
    have hm := (abs_nonneg a).trans ha
    have hn := (abs_nonneg b).trans hb
    exact abs_sub_add_le hδ ha hb (hx.sumError (by linarith)) (hy.sumError (by linarith))
      (hsum hlt)

theorem mul (hu : 0 ≤ u) (hδ : 0 ≤ δ) (hη : 0 ≤ η) (ha : |a| ≤ m) (hb : |b| ≤ n)
    (hx : Accuracy u δ η a m i x) (hy : Accuracy u δ η b n j y)
    (hz : |z - x * y| ≤ u * |x * y| + u * η) (hzero : x * y = 0 → z = 0) :
    Accuracy u δ η (a * b) (productMagnitude η m n) (i + j + 1) z := by
  have hm := (abs_nonneg a).trans ha
  have hn := (abs_nonneg b).trans hb
  unfold productMagnitude
  split_ifs with h
  · -- a factor of magnitude zero is an exact zero
    have hab : a * b = 0 ∧ x * y = 0 := by
      rcases h with rfl | rfl
      · rw [hx.eq_zero ha, abs_nonpos_iff.1 ha, zero_mul, zero_mul]
        exact ⟨rfl, rfl⟩
      · rw [hy.eq_zero hb, abs_nonpos_iff.1 hb, mul_zero, mul_zero]
        exact ⟨rfl, rfl⟩
    rw [hab.1, hzero hab.2]
    exact refl hu hδ le_rfl _
  · refine ⟨abs_sub_mul_le hu hη ha hb hx.error hy.error hz, ?_⟩
    intro hlt
    have hmn := mul_nonneg hm hn
    linarith

end Accuracy

namespace Lower

theorem refl (hm : 0 ≤ m) : Lower u m 0 m where
  nonneg := hm
  eq_zero_iff := Iff.rfl
  le := by simp

theorem mono (hu : 0 ≤ u) (hu1 : u ≤ 1) (hm : 0 ≤ m) (h : Lower u m i r) (hij : i ≤ j) :
    Lower u m j r where
  nonneg := h.nonneg
  eq_zero_iff := h.eq_zero_iff
  le := by
    have hpow : (1 - u) ^ (2 * j) ≤ (1 - u) ^ (2 * i) :=
      pow_le_pow_of_le_one (by linarith) (by linarith) (by omega)
    exact (mul_le_mul_of_nonneg_right hpow hm).trans h.le

/-- The exact magnitude vanishes with the computed one. -/
theorem pos (h : Lower u m k r) (hm : 0 ≤ m) (hr : r ≠ 0) : 0 < m :=
  lt_of_le_of_ne hm fun h0 => hr (h.eq_zero_iff.2 h0.symm)

theorem add (hu : 0 ≤ u) (hu1 : u < 1) (hm : 0 ≤ m) (hn : 0 ≤ n) (hr : Lower u m i r)
    (hs : Lower u n j s) (ht : |t - (r + s)| ≤ u * |r + s|) :
    Lower u (m + n) (max i j + 1) t := by
  have hr' := hr.mono hu hu1.le hm (le_max_left i j)
  have hs' := hs.mono hu hu1.le hn (le_max_right i j)
  have hrs := add_nonneg hr.nonneg hs.nonneg
  rw [abs_of_nonneg hrs] at ht
  have hlower : (1 - u) * (r + s) ≤ t := by linarith [(abs_le.1 ht).1]
  have htnonneg : 0 ≤ t := (mul_nonneg (by linarith) hrs).trans hlower
  refine ⟨htnonneg, ⟨?_, ?_⟩, ?_⟩
  · intro h0
    have hsum : r + s = 0 := by nlinarith
    have hr0 : r = 0 := by linarith [hr.nonneg, hs.nonneg]
    have hs0 : s = 0 := by linarith
    rw [hr.eq_zero_iff.1 hr0, hs.eq_zero_iff.1 hs0, add_zero]
  · intro h0
    have hm0 : m = 0 := by linarith
    have hn0 : n = 0 := by linarith
    rw [hr.eq_zero_iff.2 hm0, hs.eq_zero_iff.2 hn0] at ht
    simpa using ht
  · have hsq : (1 - u) * (1 - u) ≤ 1 - u := by nlinarith
    calc (1 - u) ^ (2 * (max i j + 1)) * (m + n)
        = (1 - u) * (1 - u) * ((1 - u) ^ (2 * max i j) * m + (1 - u) ^ (2 * max i j) * n) := by ring
      _ ≤ (1 - u) * (1 - u) * (r + s) :=
          mul_le_mul_of_nonneg_left (add_le_add hr'.le hs'.le) (mul_self_nonneg _)
      _ ≤ (1 - u) * (r + s) := mul_le_mul_of_nonneg_right hsq hrs
      _ ≤ t := hlower

/-- The computed product `z`, enlarged by the margin to `t`. -/
theorem mul (hu : 0 ≤ u) (hu1 : u < 1) (hη : 0 < η) (hm : 0 ≤ m) (hn : 0 ≤ n)
    (hr : Lower u m i r) (hs : Lower u n j s) (hr0 : r ≠ 0) (hs0 : s ≠ 0)
    (hz : |z - r * s| ≤ u * |r * s| + u * η) (ht : |t - (z + η)| ≤ u * |z + η|) :
    Lower u (productMagnitude η m n) (i + j + 1) t := by
  have hm0 := hr.pos hm hr0
  have hn0 := hs.pos hn hs0
  have hrs := mul_nonneg hr.nonneg hs.nonneg
  rw [productMagnitude, if_neg (by simp [hm0.ne', hn0.ne'])]
  rw [abs_of_nonneg hrs] at hz
  have hproduct : (1 - u) * (r * s + η) ≤ z + η := by linarith [(abs_le.1 hz).1]
  have hpos : 0 < r * s + η := by linarith
  have hzη : 0 < z + η := lt_of_lt_of_le (mul_pos (by linarith) hpos) hproduct
  rw [abs_of_pos hzη] at ht
  have hlower : (1 - u) * (z + η) ≤ t := by linarith [(abs_le.1 ht).1]
  have htpos : 0 < t := lt_of_lt_of_le (mul_pos (by linarith) hzη) hlower
  have hmn : 0 < m * n + η := by positivity
  refine ⟨htpos.le, iff_of_false htpos.ne' hmn.ne', ?_⟩
  have hfactors : (1 - u) ^ (2 * (i + j)) * (m * n) ≤ r * s := by
    calc (1 - u) ^ (2 * (i + j)) * (m * n)
        = (1 - u) ^ (2 * i) * m * ((1 - u) ^ (2 * j) * n) := by ring
      _ ≤ r * s := mul_le_mul hr.le hs.le
          (mul_nonneg (pow_nonneg (by linarith) _) hn) hr.nonneg
  have hmargin : (1 - u) ^ (2 * (i + j)) * η ≤ η :=
    mul_le_of_le_one_left hη.le (pow_le_one₀ (by linarith) (by linarith))
  calc (1 - u) ^ (2 * (i + j + 1)) * (m * n + η)
      = (1 - u) * ((1 - u) * ((1 - u) ^ (2 * (i + j)) * (m * n)
          + (1 - u) ^ (2 * (i + j)) * η)) := by ring
    _ ≤ (1 - u) * ((1 - u) * (r * s + η)) :=
        mul_le_mul_of_nonneg_left
          (mul_le_mul_of_nonneg_left (add_le_add hfactors hmargin) (by linarith)) (by linarith)
    _ ≤ (1 - u) * (z + η) := mul_le_mul_of_nonneg_left hproduct (by linarith)
    _ ≤ t := hlower

end Lower

/-- The error coefficient of `K` operations and two to spare, times the computed magnitude, covers
the error of a value of depth `k ≤ K` even after that product has been rounded itself, unless the
value is exact anyway. The error `ε` of an underflowing product is small against the margin and at
most four units of the grid that values lie on. -/
theorem Accuracy.exact_or_le {v ε e c : ℚ} {K : ℕ} (hu : 0 ≤ u) (hsmall : u ≤ 2 ^ (-53 : ℤ))
    (hδ : 0 ≤ δ) (hδu : 8 * δ ≤ u) (hεη : ε ≤ u * η)
    (hε : ε ≤ 4 * 2 ^ (-1074 : ℤ))
    (hk : k ≤ K) (hK : K ≤ 64) (hm : 0 ≤ m) (hx : Accuracy u δ η v m k x) (hr : Lower u m k r)
    (hgrid : |x - v| < 2 ^ (-1074 : ℤ) → m < η → x = v) (hc : (K + 2) * u ≤ c)
    (he : |e - c * r| ≤ u * |c * r| + ε) :
    x = v ∨ |x - v| ≤ e := by
  have hu53 : u ≤ 1 / 9007199254740992 := hsmall.trans (by norm_num)
  have hkK : (k : ℚ) ≤ K := by exact_mod_cast hk
  have hk0 : (0 : ℚ) ≤ k := k.cast_nonneg
  have hr0 := hr.nonneg
  have hku : 0 ≤ (k + 2) * u * r := by positivity
  have hcr : (k + 2) * u * r ≤ c * r := by
    refine mul_le_mul_of_nonneg_right (le_trans ?_ hc) hr0
    exact mul_le_mul_of_nonneg_right (by linarith) hu
  rw [abs_of_nonneg (hku.trans hcr)] at he
  have helower : (k + 7 / 4) * u * r - ε ≤ e := by
    have hloss : (k + 7 / 4) * u * r ≤ (1 - u) * (c * r) := by
      have hk64 : (k : ℚ) ≤ 64 := by exact_mod_cast hk.trans hK
      have hfactor : (k + 7 / 4 : ℚ) ≤ (1 - u) * (k + 2) := by
        have hloss : u * (k + 2) ≤ 1 / 9007199254740992 * 66 :=
          mul_le_mul hu53 (by linarith) (by positivity) (by positivity)
        linarith
      calc (k + 7 / 4) * u * r = (k + 7 / 4) * (u * r) := by ring
        _ ≤ (1 - u) * (k + 2) * (u * r) := mul_le_mul_of_nonneg_right hfactor (by positivity)
        _ = (1 - u) * ((k + 2) * u * r) := by ring
        _ ≤ (1 - u) * (c * r) := mul_le_mul_of_nonneg_left hcr (by linarith)
    linarith [(abs_le.1 he).1]
  have hur : 0 ≤ u * r := mul_nonneg hu hr0
  have hgrowth := growth_mul_le hu hsmall (hk.trans hK) hm hr.le
  have hrm : m ≤ 65 / 64 * r := by
    have hbernoulli := one_sub_two_mul_le_pow (show u ≤ 2 by linarith) (k := k)
    have hk64 : (k : ℚ) ≤ 64 := by exact_mod_cast hk.trans hK
    have hnear : (64 : ℚ) / 65 ≤ (1 - u) ^ (2 * k) := by
      have hloss : k * u ≤ 64 * (1 / 9007199254740992) :=
        mul_le_mul hk64 hu53 hu (by positivity)
      linarith
    linarith [hr.le, mul_le_mul_of_nonneg_right hnear hm]
  rcases le_or_gt η m with hle | hlt
  · -- the margin covers the underflow of the product
    refine .inr (hx.error.trans (hgrowth.trans (le_trans ?_ helower)))
    have hηr := mul_le_mul_of_nonneg_left (hle.trans hrm) hu
    linarith
  · -- a sum that is off by a unit of the grid is so large that the product does not underflow
    by_cases hnear : |x - v| < 2 ^ (-1074 : ℤ)
    · exact .inl (hgrid hnear hlt)
    · refine .inr ?_
      have hδ53 : δ ≤ 2 ^ (-53 : ℤ) := by linarith
      have hsum : |x - v| ≤ (k + 1 / 2) * δ * m := by
        refine (hx.sumError hlt).trans (growth_mul_le hδ hδ53 (hk.trans hK) hm ?_)
        exact mul_le_of_le_one_left hm (pow_le_one₀ (by linarith) (by linarith))
      have hsumr : |x - v| ≤ (k + 1 / 2) * (1 / 8 * (65 / 64) * (u * r)) := by
        refine hsum.trans ?_
        rw [mul_assoc]
        refine mul_le_mul_of_nonneg_left ?_ (by positivity)
        calc δ * m ≤ u / 8 * (65 / 64 * r) :=
              mul_le_mul (by linarith) hrm hm (by positivity)
          _ = 1 / 8 * (65 / 64) * (u * r) := by ring
      have hkur : 0 ≤ k * (u * r) := by positivity
      linarith

/-! ## The sign test -/

/-- What a sign test answers, for a budget that covers the depth. -/
theorem run_sign? [WorkingFloat α] {x : Tracked α} {K : ℕ} (hdepth : x.depth ≤ K)
    (hK : K + 2 < depthLimit) :
    (x.sign? K).run =
      if WorkingFloat.isZero x.magnitude then .ok (some .zero)
      else
        let error : α := WorkingFloat.ofFloat
          (errorFactor (K + 2) (WorkingFloat.unitRoundoff α)) * x.magnitude
        if WorkingFloat.less error x.value then .ok (some .positive)
        else if WorkingFloat.less x.value (-error) then .ok (some .negative)
        else .ok none := by
  unfold sign? errorCoefficient
  rw [if_neg (by omega), if_pos hK]
  split_ifs
  · rfl
  · rfl

/-- The computed error bound that a value has to exceed. -/
def errorBound [WorkingFloat α] (x : Tracked α) (K : ℕ) : α :=
  WorkingFloat.ofFloat (errorFactor (K + 2) (WorkingFloat.unitRoundoff α)) * x.magnitude

/-- A sign test is right about `v` if each of its three comparisons is. -/
theorem answers_sign?_of_comparisons [WorkingFloat α] {x : Tracked α} {v : ℚ} {K : ℕ}
    (hdepth : x.depth ≤ K) (hK : K + 2 < depthLimit)
    (hzero : WorkingFloat.isZero x.magnitude = true → v = 0)
    (hpositive : WorkingFloat.isZero x.magnitude ≠ true →
      WorkingFloat.less (x.errorBound K) x.value = true → 0 < v)
    (hnegative : WorkingFloat.isZero x.magnitude ≠ true →
      WorkingFloat.less x.value (-x.errorBound K) = true → v < 0) :
    Answers true (x.sign? K) (Sign.of v) := by
  unfold Answers
  rw [run_sign? hdepth hK]
  dsimp only
  split_ifs with hmagnitude habove hbelow
  · rw [hzero hmagnitude, Sign.of_zero]
    exact .inl rfl
  · rw [Sign.of_pos (hpositive hmagnitude habove)]
    exact .inl rfl
  · rw [Sign.of_neg (hnegative hmagnitude hbelow)]
    exact .inl rfl
  · exact .inr ⟨rfl, rfl⟩

/-- What a working float is certain of is right, if its sign tests are right about every formula
that their budget covers. -/
theorem exists_run_of_answers [WorkingFloat α] {e : Expression} {K : ℕ}
    (hanswers : e.depth ≤ K → Answers true (sign? (e.eval (Tracked α)) K) (Sign.of e.value))
    (hdepth : (e.eval (Tracked α)).depth ≤ K) :
    ∃ answer, (Scalar.sign? (e.eval (Tracked α)) K).run = .ok answer ∧
      ∀ s ∈ answer, s = Sign.of e.value := by
  rw [e.depth_eval] at hdepth
  obtain ⟨answer, hrun, rfl | ⟨-, rfl⟩⟩ := (hanswers hdepth).exists_run
  · exact ⟨_, hrun, fun s hs => (Option.some.inj hs).symm⟩
  · exact ⟨_, hrun, nofun⟩

/-- A budget at the end of its word has no coefficient, but zeros need none. -/
theorem run_sign?_of_limit_le [WorkingFloat α] {x : Tracked α} {K : ℕ} (hdepth : x.depth ≤ K)
    (hK : depthLimit ≤ K + 2) :
    (x.sign? K).run =
      if WorkingFloat.isZero x.magnitude then .ok (some .zero) else .error .depthSum := by
  unfold sign? errorCoefficient
  rw [if_neg (not_lt.2 hdepth), if_neg (not_lt.2 hK)]
  split_ifs
  · rfl
  · rfl

end ExactSphere.Tracked
