import ExactSphere.Proofs.Binary64.Literals
import ExactSphere.Proofs.Expression
import ExactSphere.Proofs.Tracked.Bound

/-!
# Tracked doubles never certify a wrong sign

Along a formula the computed value and the computed magnitude stay related to the exact ones
(`Double.Sound`). The magnitude bounds the value also after rounding, as rounding is monotone, so
an overflow of the value is also one of the magnitude, and nothing is below an infinite error.
Sums do not underflow, and a product that does has the margin in its magnitude.
-/

namespace ExactSphere.Tracked.Double

open Binary64
open Certify (Answers)

/-- The unit roundoff of doubles. -/
def unit : ℚ := 2 ^ (-53 : ℤ)

/-- The underflow margin of doubles. -/
def margin : ℚ := 2 ^ (-1022 : ℤ)

theorem unit_nonneg : 0 ≤ unit := by unfold unit; positivity

theorem unit_lt_one : unit < 1 := by unfold unit; norm_num

theorem margin_pos : 0 < margin := by unfold margin; positivity

theorem unit_mul_margin : unit * margin = 2 ^ (-1075 : ℤ) := by
  rw [unit, margin, ← zpow_add₀ two_ne_zero]
  norm_num

variable {v w m n x y r s : ℚ} {i j k : ℕ} {d e d' e' : Datum}

/-! ## One operation -/

/-- Sums have a relative error, however small. -/
theorem abs_nearest_add_sub_le (hx : Representable x) (hy : Representable y) :
    |nearest (x + y) - (x + y)| ≤ unit * |x + y| :=
  abs_nearest_sub_le_unit_of_onGrid (hx.onGrid.add hy.onGrid)

/-- Products have a relative error and that of an underflow. -/
theorem abs_nearest_sub_le_unit_add_margin (x : ℚ) :
    |nearest x - x| ≤ unit * |x| + unit * margin := by
  rw [unit_mul_margin]
  exact abs_nearest_sub_le_unit_add x

/-- A rounded result is infinite only if a larger one is. -/
theorem round_of_abs_le (h : |x| ≤ y) :
    Datum.round y = .infinity false ∨
      Datum.round y = .number (nearest y) ∧ Datum.round x = .number (nearest x) := by
  have hy : 0 ≤ y := (abs_nonneg x).trans h
  have hle := abs_nearest_mono h
  unfold Datum.round Datum.clip
  rw [abs_of_nonneg (nearest_nonneg hy)]
  by_cases hlt : nearest y < 2 ^ (1024 : ℤ)
  · rw [if_pos hlt, if_pos (hle.trans_lt hlt)]
    exact .inr ⟨rfl, rfl⟩
  · rw [if_neg hlt, decide_eq_false (nearest_nonneg hy).not_gt]
    exact .inl rfl

/-! ## The invariant of a formula -/

/-- What the computed magnitude stands for, given the exact one. -/
inductive Magnitude (m : ℚ) (k : ℕ) : Datum → Prop
  | number {r : ℚ} (hrep : Representable r) (hr : Lower unit m k r) : Magnitude m k (.number r)
  | overflow : Magnitude m k (.infinity false)

/-- What the computed value stands for, given the exact value and magnitude and the computed
magnitude `r`. -/
inductive Value (v m : ℚ) (k : ℕ) (r : ℚ) : Datum → Prop
  | number {x : ℚ} (hrep : Representable x) (hle : |x| ≤ r)
      (hx : Accuracy unit 0 margin v m k x) : Value v m k r (.number x)
  | undefined : Value v m k r .nan

/-- The invariant: nothing is known of the value once the magnitude has overflowed. -/
structure Sound (v m : ℚ) (k : ℕ) (d e : Datum) : Prop where
  magnitude : Magnitude m k e
  value : ∀ r, e = .number r → Value v m k r d

theorem Magnitude.add (hm : 0 ≤ m) (hn : 0 ≤ n) (h : Magnitude m i e) (h' : Magnitude n j e') :
    Magnitude (m + n) (max i j + 1) (e + e') := by
  cases h with
  | overflow =>
    have hinfinity : Datum.infinity false + e' = .infinity false := by cases h' <;> rfl
    rw [hinfinity]
    exact .overflow
  | number hrep hr =>
    cases h' with
    | overflow => exact .overflow
    | number hrep' hs =>
      rw [Datum.add_number]
      rcases round_of_abs_le (abs_of_nonneg (add_nonneg hr.nonneg hs.nonneg)).le with h | ⟨h, -⟩
      · rw [h]
        exact .overflow
      · rw [h]
        exact .number (representable_nearest _) (hr.add unit_nonneg unit_lt_one hm hn hs
          (abs_nearest_add_sub_le hrep hrep'))

/-- The magnitude of a product of factors that are not zero. -/
theorem Magnitude.mul (hm : 0 ≤ m) (hn : 0 ≤ n) (h : Magnitude m i e) (h' : Magnitude n j e')
    (he : e ≠ .number 0) (he' : e' ≠ .number 0) :
    Magnitude (productMagnitude margin m n) (i + j + 1) (e * e' + .number margin) := by
  have hmargin : Representable margin := .zpow (by norm_num)
  cases h with
  | overflow =>
    have hinfinity : Datum.infinity false * e' = .infinity false := by
      cases h' with
      | overflow => rfl
      | number _ hs =>
        have hs0 := lt_of_le_of_ne hs.nonneg fun h0 => he' (congrArg _ h0.symm)
        rw [Datum.mul_comm, Datum.number_mul_infinity hs0]
    rw [hinfinity]
    exact .overflow
  | @number r hrep hr =>
    have hr0 : r ≠ 0 := fun h0 => he (congrArg _ h0)
    cases h' with
    | overflow =>
      rw [Datum.number_mul_infinity (lt_of_le_of_ne hr.nonneg hr0.symm)]
      exact .overflow
    | @number s hrep' hs =>
      have hs0 : s ≠ 0 := fun h0 => he' (congrArg _ h0)
      have hrs := mul_nonneg hr.nonneg hs.nonneg
      rw [Datum.mul_number]
      rcases round_of_abs_le (abs_of_nonneg hrs).le with h | ⟨h, -⟩
      · rw [h]
        exact .overflow
      · have hsum : 0 ≤ nearest (r * s) + margin := add_nonneg (nearest_nonneg hrs) margin_pos.le
        rw [h, Datum.add_number]
        rcases round_of_abs_le (abs_of_nonneg hsum).le with h | ⟨h, -⟩
        · rw [h]
          exact .overflow
        · rw [h]
          exact .number (representable_nearest _) (hr.mul unit_nonneg unit_lt_one margin_pos hm hn
            hs hr0 hs0 (abs_nearest_sub_le_unit_add_margin _)
            (abs_nearest_add_sub_le (representable_nearest _) hmargin))

namespace Sound

theorem leaf (x : Float) (h : x.isFinite = true) :
    Sound (Binary64.value x) |Binary64.value x| 0 (datum x) (datum x.abs) := by
  rw [datum_abs, isFinite_iff.1 h]
  have hrep := representable_value x
  refine ⟨.number hrep.abs (.refl (abs_nonneg _)), ?_⟩
  intro r hr
  cases hr
  exact .number hrep le_rfl (.refl unit_nonneg le_rfl (abs_nonneg _) 0)

theorem neg (h : Sound v m k d e) : Sound (-v) m k (-d) e where
  magnitude := h.magnitude
  value r hr := by
    cases h.value r hr with
    | number hrep hle hx => exact .number hrep.neg (by rwa [abs_neg]) hx.neg
    | undefined => exact .undefined

theorem abs (h : Sound v m k d e) : Sound |v| m k d.abs e where
  magnitude := h.magnitude
  value r hr := by
    cases h.value r hr with
    | number hrep hle hx => exact .number hrep.abs ((abs_abs _).trans_le hle) hx.abs
    | undefined => exact .undefined

theorem add (hv : |v| ≤ m) (hw : |w| ≤ n) (h : Sound v m i d e) (h' : Sound w n j d' e') :
    Sound (v + w) (m + n) (max i j + 1) (d + d') (e + e') where
  magnitude := h.magnitude.add ((abs_nonneg v).trans hv) ((abs_nonneg w).trans hw) h'.magnitude
  value t ht := by
    obtain ⟨r, s, rfl, rfl, hround⟩ := Datum.add_eq_number_iff.1 ht
    cases h.value r rfl with
    | undefined =>
      rw [Datum.nan_add]
      exact .undefined
    | @number x hrep hle hx =>
      cases h'.value s rfl with
      | undefined => exact .undefined
      | @number y hrep' hle' hy =>
        have hsum : |x + y| ≤ r + s := (abs_add_le x y).trans (add_le_add hle hle')
        obtain ⟨-, rfl⟩ := Datum.round_eq_number_iff.1 hround
        rcases round_of_abs_le hsum with hbig | ⟨-, hnumber⟩
        · rw [hbig] at hround
          cases hround
        · rw [Datum.add_number, hnumber]
          refine .number (representable_nearest _) (abs_nearest_mono hsum)
            (hx.add unit_nonneg le_rfl hv hw hy (abs_nearest_add_sub_le hrep hrep') ?_)
          intro hlt
          -- the terms of a small sum are exact, and so the sum is small
          have hm := (abs_nonneg v).trans hv
          have hn := (abs_nonneg w).trans hw
          have hsmall : |x + y| ≤ 2 ^ (-1021 : ℤ) := by
            rw [hx.eq_of_lt (by linarith), hy.eq_of_lt (by linarith)]
            calc |v + w| ≤ |v| + |w| := abs_add_le v w
              _ ≤ margin := by linarith
              _ ≤ 2 ^ (-1021 : ℤ) := zpow_le_zpow_right₀ one_le_two (by norm_num)
          rw [nearest_eq_self ⟨-1074, le_rfl, hrep.onGrid.add hrep'.onGrid, hsmall⟩]
          simp

/-- A factor of magnitude zero makes an exact zero, unless the other one is not a number. -/
theorem mul_of_zero (hv : |v| ≤ m) (h : Sound v m i d (.number 0)) :
    Sound (v * w) (productMagnitude margin m n) k (d * d') (.number 0) := by
  have hm0 : m = 0 := by
    cases h.magnitude with
    | number _ hr => exact hr.eq_zero_iff.1 rfl
  have hv0 : v = 0 := abs_nonpos_iff.1 (hm0 ▸ hv)
  rw [hv0, zero_mul, productMagnitude, if_pos (.inl hm0)]
  refine ⟨.number .zero ((Lower.refl le_rfl).mono unit_nonneg unit_lt_one.le le_rfl k.zero_le),
    ?_⟩
  intro r hr
  cases hr
  cases h.value 0 rfl with
  | undefined =>
    rw [Datum.nan_mul]
    exact .undefined
  | @number x hrep hle hx =>
    rw [abs_nonpos_iff.1 hle]
    cases d' with
    | nan => exact .undefined
    | infinity s =>
      rw [Datum.zero_mul_infinity]
      exact .undefined
    | number y =>
      rw [Datum.mul_number, zero_mul, Datum.round_of_representable .zero (by norm_num)]
      exact .number .zero (by rw [abs_zero]) (.refl unit_nonneg le_rfl le_rfl k)

theorem mul (hv : |v| ≤ m) (hw : |w| ≤ n) (h : Sound v m i d e) (h' : Sound w n j d' e') :
    Sound (v * w) (productMagnitude margin m n) (i + j + 1) (d * d')
      (if e = .number 0 ∨ e' = .number 0 then .number 0 else e * e' + .number margin) := by
  split_ifs with hzero
  · rcases hzero with rfl | rfl
    · exact mul_of_zero hv h
    · have hcomm : productMagnitude margin m n = productMagnitude margin n m := by
        simp only [productMagnitude, or_comm, mul_comm m n]
      rw [mul_comm v w, Datum.mul_comm, hcomm]
      exact mul_of_zero hw h'
  · rw [not_or] at hzero
    refine ⟨h.magnitude.mul ((abs_nonneg v).trans hv) ((abs_nonneg w).trans hw) h'.magnitude
      hzero.1 hzero.2, ?_⟩
    intro t ht
    obtain ⟨p, η, hproduct, hmargin, hsum⟩ := Datum.add_eq_number_iff.1 ht
    obtain ⟨r, s, rfl, rfl, hround⟩ := Datum.mul_eq_number_iff.1 hproduct
    cases h.value r rfl with
    | undefined =>
      rw [Datum.nan_mul]
      exact .undefined
    | @number x hrep hle hx =>
      cases h'.value s rfl with
      | undefined => exact .undefined
      | @number y hrep' hle' hy =>
        have hxy : |x * y| ≤ r * s := by
          rw [abs_mul]
          exact mul_le_mul hle hle' (abs_nonneg y) ((abs_nonneg x).trans hle)
        rcases round_of_abs_le hxy with hbig | ⟨hp, hnumber⟩
        · rw [hbig] at hround
          cases hround
        · rw [Datum.mul_number, hnumber]
          cases hmargin
          obtain ⟨-, rfl⟩ := Datum.round_eq_number_iff.1 hsum
          obtain ⟨-, rfl⟩ := Datum.round_eq_number_iff.1 hround
          refine .number (representable_nearest _) ?_
            (hx.mul unit_nonneg le_rfl margin_pos.le hv hw hy (abs_nearest_sub_le_unit_add_margin _)
              fun h0 => by rw [h0, nearest_zero])
          -- adding the margin does not lower the rounded product
          calc |nearest (x * y)| ≤ nearest (r * s) := abs_nearest_mono hxy
            _ = nearest (nearest (r * s)) := (nearest_eq_self (representable_nearest _)).symm
            _ ≤ nearest (nearest (r * s) + margin) := nearest_mono (by linarith [margin_pos])

end Sound

/-- A magnitude of zero is that of an exact zero. -/
theorem Sound.eq_zero (hv : |v| ≤ m) (h : Sound v m k d (.number 0)) : v = 0 := by
  cases h.magnitude with
  | number _ hr => exact abs_nonpos_iff.1 (hr.eq_zero_iff.1 rfl ▸ hv)

/-- A value above the computed error bound is that of a positive number. -/
theorem Sound.pos_of_lt (hv : |v| ≤ m) (h : Sound v m k d e) {K : ℕ} (hk : k ≤ K) (hK : K ≤ 64)
    {c : ℚ} (hc : (K + 2) * unit ≤ c) (he : e ≠ .number 0)
    (hlt : (Datum.number c * e).compare? d = some .lt) : 0 < v := by
  have hm := (abs_nonneg v).trans hv
  have hc0 : 0 < c := lt_of_lt_of_le (mul_pos (by positivity) (by unfold unit; positivity)) hc
  cases h.magnitude with
  | overflow =>
    rw [Datum.number_mul_infinity hc0] at hlt
    rcases d with _ | (_ | _) | _ <;> cases hlt
  | @number r hrep hr =>
    have hcr := mul_nonneg hc0.le hr.nonneg
    rw [Datum.mul_number] at hlt
    cases h.value r rfl with
    | undefined =>
      rw [Datum.compare?_nan] at hlt
      cases hlt
    | @number x hxrep hle hx =>
      rcases round_of_abs_le (abs_of_nonneg hcr).le with hround | ⟨hround, -⟩ <;>
        rw [hround] at hlt
      · cases hlt
      · have hx0 : nearest (c * r) < x := compare_lt_iff_lt.1 (Option.some.inj hlt)
        have hunit : (2 : ℚ) ^ (-1075 : ℤ) ≤ 4 * 2 ^ (-1074 : ℤ) := by
          have hle : (2 : ℚ) ^ (-1075 : ℤ) ≤ 2 ^ (-1074 : ℤ) :=
            zpow_le_zpow_right₀ one_le_two (by norm_num)
          have hpos : (0 : ℚ) ≤ 2 ^ (-1074 : ℤ) := by positivity
          linarith
        have hε := abs_nearest_sub_le_unit_add (c * r)
        rcases hx.exact_or_le unit_nonneg le_rfl le_rfl (by simpa using unit_nonneg)
          unit_mul_margin.ge hunit hk hK hm hr (fun _ => hx.eq_of_lt) hc hε with hexact | hnear
        · rw [← hexact]
          exact (nearest_nonneg hcr).trans_lt hx0
        · linarith [le_abs_self (x - v)]

theorem datum_magnitude_mul (x y : Tracked Float) :
    datum (x.mul y).magnitude =
      if datum x.magnitude = .number 0 ∨ datum y.magnitude = .number 0 then .number 0
      else datum x.magnitude * datum y.magnitude + .number margin := by
  change datum (if (x.magnitude == 0 || y.magnitude == 0) = true then 0
    else x.magnitude * y.magnitude + minNormal) = _
  simp only [Bool.or_eq_true, beq_zero_iff]
  split_ifs
  · rfl
  · rw [datum_add, datum_mul, datum_minNormal, margin]

/-- The invariant holds of every formula over finite doubles. -/
theorem sound_eval (e : Expression) (he : e.Finite) :
    Sound e.value (e.magnitude margin) e.depth (datum (e.eval (Tracked Float)).value)
      (datum (e.eval (Tracked Float)).magnitude) := by
  have hle := fun f : Expression => f.abs_value_le margin_pos.le
  induction e with
  | leaf x => exact .leaf x he
  | add e f ihe ihf =>
    have h := (ihe he.1).add (hle e) (hle f) (ihf he.2)
    rw [← datum_add, ← datum_add] at h
    exact h
  | sub e f ihe ihf =>
    have h := (ihe he.1).add (hle e) ((abs_neg _).trans_le (hle f)) (ihf he.2).neg
    rw [← datum_sub, ← datum_add, ← sub_eq_add_neg] at h
    exact h
  | mul e f ihe ihf =>
    have h := (ihe he.1).mul (hle e) (hle f) (ihf he.2)
    rw [← datum_mul, ← datum_magnitude_mul] at h
    exact h
  | neg e ih =>
    have h := (ih he).neg
    rw [← datum_neg] at h
    exact h
  | abs e ih =>
    have h := (ih he).abs
    rw [← datum_abs] at h
    exact h

/-- Units of roundoff are counted without an error. -/
theorem datum_ofNat_mul_unitRoundoff {n : ℕ} (hn : n < 2 ^ 53) :
    datum (Float.ofNat n * unitRoundoff) = .number (n * unit) := by
  rw [datum_mul, datum_ofNat hn, datum_unitRoundoff, Datum.mul_number]
  exact Datum.round_natCast_mul_zpow hn.le (by norm_num) (by norm_num)

/-- The error coefficient is at least `n` units. The numbers are few enough to check. -/
theorem le_errorFactor {n : ℕ} (hn : n < 67) :
    ∃ c, datum (errorFactor n unitRoundoff) = .number c ∧ n * unit ≤ c := by
  have hfactor : Float.ofNat n * unitRoundoff ≤ errorFactor n unitRoundoff ∧
      (errorFactor n unitRoundoff).isFinite = true := by
    revert n
    decide +kernel
  have hproduct := datum_ofNat_mul_unitRoundoff (n := n) (by omega)
  refine ⟨_, isFinite_iff.1 hfactor.2, ?_⟩
  have hle := (le_iff _ _).1 hfactor.1
  rw [hproduct, isFinite_iff.1 hfactor.2, Datum.number_compare?_number] at hle
  exact compare_le_iff_le.1 (Ordering.isLE_iff_ne_gt.1 hle)

/-- A sign test of a formula that the budget covers is right. -/
theorem answers_sign? (e : Expression) (he : e.Finite) {K : ℕ} (hdepth : e.depth ≤ K)
    (hK : K ≤ 64) : Answers true ((e.eval (Tracked Float)).sign? K) (Sign.of e.value) := by
  have hv := e.abs_value_le margin_pos.le
  have hsound := sound_eval e he
  obtain ⟨c, hfactor, hc⟩ := le_errorFactor (show K + 2 < 67 by omega)
  push_cast at hc
  set x := e.eval (Tracked Float)
  have hzero : WorkingFloat.isZero x.magnitude = true ↔ datum x.magnitude = .number 0 :=
    beq_zero_iff
  have hbound : datum (x.errorBound K) = .number c * datum x.magnitude := by
    change datum (errorFactor (K + 2) unitRoundoff * x.magnitude) = _
    rw [datum_mul, hfactor]
  have hless : ∀ a b : Float, WorkingFloat.less a b = true ↔
      (datum a).compare? (datum b) = some .lt := fun a b => decide_eq_true_iff.trans (lt_iff a b)
  refine answers_sign?_of_comparisons (e.depth_eval.trans_le hdepth) (by unfold depthLimit; omega)
    (fun hmagnitude => ?zero) (fun hmagnitude habove => ?positive)
    fun hmagnitude hbelow => ?negative
  case zero =>
    rw [hzero.1 hmagnitude] at hsound
    exact hsound.eq_zero hv
  case positive =>
    rw [hless, hbound] at habove
    exact hsound.pos_of_lt hv hdepth hK hc (mt hzero.2 hmagnitude) habove
  case negative =>
    have hv' : |-e.value| ≤ e.magnitude margin := (abs_neg _).trans_le hv
    rw [hless, datum_neg, hbound, ← Datum.neg_neg (datum x.value), Datum.compare?_neg] at hbelow
    exact neg_pos.1 (hsound.neg.pos_of_lt hv' hdepth hK hc (mt hzero.2 hmagnitude) hbelow)

/-- Whatever the formula over finite doubles: with a budget that covers its depth, a sign that
tracked doubles are certain of is the sign of the exact value. -/
theorem certified_double_sign (e : Expression) (he : e.Finite) (budget : ℕ)
    (hdepth : (e.eval (Tracked Float)).depth ≤ budget) (hbudget : budget ≤ 64) :
    ∃ answer, (sign? (e.eval (Tracked Float)) budget).run = .ok answer ∧
      ∀ s ∈ answer, s = Sign.of e.value := by
  exact exists_run_of_answers (fun hdepth => answers_sign? e he hdepth hbudget) hdepth

/-- The difference `2 * 3 - 5` is certainly positive, and it is. -/
theorem certified_double_sign_difference :
    (sign? ((Expression.sub (.mul (.leaf 2) (.leaf 3)) (.leaf 5)).eval (Tracked Float)) 2).run =
        .ok (some .positive) ∧
      Sign.positive = Sign.of (Expression.sub (.mul (.leaf 2) (.leaf 3)) (.leaf 5)).value := by
  have hrun : (sign? ((Expression.sub (.mul (.leaf 2) (.leaf 3)) (.leaf 5)).eval
      (Tracked Float)) 2).run = .ok (some .positive) := by
    decide +kernel
  obtain ⟨answer, hanswer, hsign⟩ := certified_double_sign
    (.sub (.mul (.leaf 2) (.leaf 3)) (.leaf 5)) (by decide +kernel) 2
    (by decide) (by norm_num)
  rw [hrun] at hanswer
  cases hanswer
  exact ⟨hrun, hsign _ rfl⟩

end ExactSphere.Tracked.Double
