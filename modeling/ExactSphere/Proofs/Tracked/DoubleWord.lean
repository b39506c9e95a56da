import ExactSphere.Proofs.DoubleWord
import ExactSphere.Proofs.Expression
import ExactSphere.Proofs.Tracked.Bound

/-!
# Tracked double-words never certify a wrong sign

Along a formula the computed value stays close to the exact one as long as it is a number, and an
infinity stands for a result out of range with that sign (`Value`). The magnitude is not smaller
than the exact one up to rounding, unless it has left the numbers (`Magnitude`), after which nothing
is certain any more. The two do not depend on each other.
-/

namespace ExactSphere.Tracked.DoubleWord

open Binary64
open Certify (Answers)

/-- The unit roundoff of double-words. -/
def unit : ℚ := 2 ^ (-100 : ℤ)

/-- The unit roundoff of their sums, which do not underflow. -/
def sumUnit : ℚ := 2 ^ (-103 : ℤ)

/-- The underflow margin of double-words. -/
def margin : ℚ := 2 ^ (-960 : ℤ)

theorem unit_nonneg : 0 ≤ unit := by unfold unit; positivity

theorem unit_lt_one : unit < 1 := by unfold unit; norm_num

theorem unit_le : unit ≤ 2 ^ (-53 : ℤ) := zpow_le_zpow_right₀ one_le_two (by norm_num)

theorem sumUnit_nonneg : 0 ≤ sumUnit := by unfold sumUnit; positivity

theorem sumUnit_le : sumUnit ≤ unit := zpow_le_zpow_right₀ one_le_two (by norm_num)

theorem margin_pos : 0 < margin := by unfold margin; positivity

/-- The error of an underflowing product is far below the margin. -/
theorem underflow_le : (2 : ℚ) ^ (-1072 : ℤ) ≤ unit * margin := by
  rw [unit, margin, ← zpow_add₀ two_ne_zero]
  exact zpow_le_zpow_right₀ one_le_two (by norm_num)

theorem productError_le (r : ℚ) : DoubleWord.productError r ≤ unit * |r| + unit * margin := by
  refine add_le_add (mul_le_mul_of_nonneg_right ?_ (abs_nonneg r)) underflow_le
  exact zpow_le_zpow_right₀ one_le_two (by norm_num)

variable {v w m n r : ℚ} {i j k : ℕ} {a b c : DoubleWord}

/-! ## The invariant of a formula -/

/-- What the computed magnitude stands for, given the exact one. -/
def Magnitude (m : ℚ) (k : ℕ) (a : DoubleWord) : Prop :=
  ∀ h, datum a.hi = .number h → ∃ r, a.IsNumber r ∧ Lower unit m k r

/-- What the computed value stands for, given the exact value and magnitude. -/
inductive Value (v m : ℚ) (k : ℕ) (a : DoubleWord) : Prop
  | number {x : ℚ} (h : a.IsNumber x) (hx : Accuracy unit sumUnit margin v m k x)
  | overflow {x : ℚ} {s : Bool} (h : datum a.hi = .infinity s) (hlarge : 2 ^ (1022 : ℤ) ≤ |x|)
      (hsign : s = decide (x < 0)) (hx : Accuracy unit sumUnit margin v m k x)
  | undefined (h : datum a.hi = .nan)

theorem Magnitude.normalised (h : Magnitude m k a) : a.Normalised := fun z hz =>
  (h z hz).imp fun _ hr => hr.1

theorem Value.normalised (h : Value v m k a) : a.Normalised := by
  intro z hz
  cases h with
  | number h _ => exact ⟨_, h⟩
  | overflow h => cases h.symm.trans hz
  | undefined h => cases h.symm.trans hz

theorem Magnitude.lower (h : Magnitude m k a) (hr : a.IsNumber r) : Lower unit m k r := by
  obtain ⟨r', hr', hlower⟩ := h _ hr.hi
  rwa [hr.unique hr']

theorem Value.accuracy {x : ℚ} (h : Value v m k a) (hx : a.IsNumber x) :
    Accuracy unit sumUnit margin v m k x := by
  cases h with
  | number h' hx' => rwa [hx.unique h']
  | overflow h' => cases h'.symm.trans hx.hi
  | undefined h' => cases h'.symm.trans hx.hi

theorem Magnitude.add (hm : 0 ≤ m) (hn : 0 ≤ n) (ha : Magnitude m i a) (hb : Magnitude n j b) :
    Magnitude (m + n) (max i j + 1) (a + b) := by
  intro z hz
  rcases DoubleWord.add_spec ha.normalised hb.normalised with hnan | ⟨r, s, hr, hs, h⟩
  · cases hnan.symm.trans hz
  · cases h with
    | overflow h => cases h.symm.trans hz
    | @number t ht herror =>
      refine ⟨t, ht, (ha.lower hr).add unit_nonneg unit_lt_one hm hn (hb.lower hs) ?_⟩
      exact herror.trans (mul_le_mul_of_nonneg_right sumUnit_le (abs_nonneg _))

theorem Value.add (hv : |v| ≤ m) (hw : |w| ≤ n) (ha : Value v m i a) (hb : Value w n j b) :
    Value (v + w) (m + n) (max i j + 1) (a + b) := by
  rcases DoubleWord.add_spec ha.normalised hb.normalised with hnan | ⟨x, y, hx, hy, h⟩
  · exact .undefined hnan
  · have hacc : ∀ {z : ℚ}, |z - (x + y)| ≤ sumUnit * |x + y| →
        Accuracy unit sumUnit margin (v + w) (m + n) (max i j + 1) z := fun hz =>
      (ha.accuracy hx).add unit_nonneg sumUnit_nonneg hv hw (hb.accuracy hy)
        (hz.trans (mul_le_mul_of_nonneg_right sumUnit_le (abs_nonneg _))) fun _ => hz
    cases h with
    | number hz herror => exact .number hz (hacc herror)
    | overflow h hlarge hsign =>
      refine .overflow h hlarge hsign (hacc ?_)
      rw [sub_self, abs_zero]
      exact mul_nonneg sumUnit_nonneg (abs_nonneg _)

theorem Value.neg (h : Value v m k a) : Value (-v) m k (-a) := by
  have hhi : datum (-a).hi = -datum a.hi := datum_neg a.hi
  cases h with
  | number h hx => exact .number h.neg hx.neg
  | @overflow x s h hlarge hsign hx =>
    have hx0 : x ≠ 0 := by
      rintro rfl
      rw [abs_zero] at hlarge
      exact absurd hlarge (not_le.2 (by positivity))
    refine .overflow (s := !s) (by rw [hhi, h]; rfl) (by rwa [abs_neg]) ?_ hx.neg
    rw [hsign]
    rcases lt_or_gt_of_ne hx0 with hlt | hlt <;> simp [hlt, hlt.le]
  | undefined h => exact .undefined (by rw [hhi, h]; rfl)

theorem Value.abs (h : Value v m k a) : Value |v| m k a.abs := by
  have hhi : datum (-a).hi = -datum a.hi := datum_neg a.hi
  cases h with
  | number h hx => exact .number h.abs hx.abs
  | @overflow x s h hlarge hsign hx =>
    refine .overflow (s := false) ?_ (by rwa [abs_abs]) (by simp) hx.abs
    have hnegative : (a.hi < 0 || (a.hi == 0 && a.lo < 0)) = s := by
      rw [Bool.eq_iff_iff]
      simp only [Bool.or_eq_true, Bool.and_eq_true, decide_eq_true_eq, lt_iff, beq_iff, h,
        datum_zero]
      cases s <;> simp [Datum.compare?]
    unfold DoubleWord.abs
    rw [hnegative]
    cases s
    · exact h
    · rw [if_pos rfl, hhi, h]
      rfl
  | undefined h =>
    refine .undefined ?_
    unfold DoubleWord.abs
    split_ifs
    · rw [hhi, h]
      rfl
    · exact h

theorem Value.mul (hv : |v| ≤ m) (hw : |w| ≤ n) (ha : Value v m i a) (hb : Value w n j b) :
    Value (v * w) (productMagnitude margin m n) (i + j + 1) (a * b) := by
  rcases DoubleWord.mul_spec ha.normalised hb.normalised with hnan | ⟨x, y, hx, hy, h⟩
  · exact .undefined hnan
  · have hacc : ∀ {z : ℚ}, |z - x * y| ≤ DoubleWord.productError (x * y) →
        (x * y = 0 → z = 0) → Accuracy unit sumUnit margin (v * w) (productMagnitude margin m n)
          (i + j + 1) z := fun hz hzero =>
      (ha.accuracy hx).mul unit_nonneg sumUnit_nonneg margin_pos.le hv hw (hb.accuracy hy)
        (hz.trans (productError_le _)) hzero
    cases h with
    | number hz herror => exact .number hz (hacc herror.1 herror.2.1)
    | overflow h hlarge hsign =>
      refine .overflow h hlarge hsign (hacc ?_ id)
      rw [sub_self, abs_zero, DoubleWord.productError]
      positivity

theorem isNumber_underflowMargin : (WorkingFloat.underflowMargin : DoubleWord).IsNumber margin :=
  .ofFloat (datum_of_unpack_one (e := -1012) rfl)

/-- A magnitude of zero is exact. -/
theorem Magnitude.eq_zero (h : Magnitude m k a) (ha : WorkingFloat.isZero a = true) : m = 0 := by
  have hhi : datum a.hi = .number 0 := beq_zero_iff.1 (Bool.and_eq_true_iff.1 ha).1
  obtain ⟨r, hr, hlower⟩ := h 0 hhi
  exact hlower.eq_zero_iff.1 (hr.eq_zero_iff.1 ha)

theorem Magnitude.mul (hm : 0 ≤ m) (hn : 0 ≤ n) (ha : Magnitude m i a) (hb : Magnitude n j b) :
    Magnitude (productMagnitude margin m n) (i + j + 1)
      (if WorkingFloat.isZero a || WorkingFloat.isZero b then WorkingFloat.ofFloat 0
        else a * b + WorkingFloat.underflowMargin) := by
  intro z hz
  split_ifs at hz ⊢ with hzero
  · have hproduct : productMagnitude margin m n = 0 := by
      rcases Bool.or_eq_true_iff.1 hzero with h | h
      · exact if_pos (.inl (ha.eq_zero h))
      · exact if_pos (.inr (hb.eq_zero h))
    rw [hproduct]
    exact ⟨0, DoubleWord.isNumber_zero, (Lower.refl le_rfl).mono unit_nonneg unit_lt_one.le le_rfl
      (Nat.zero_le _)⟩
  · rw [Bool.or_eq_true_iff, not_or] at hzero
    rcases DoubleWord.add_spec (ha.normalised.mul hb.normalised)
      isNumber_underflowMargin.normalised with hnan | ⟨p, η, hp, hη, h⟩
    · cases hnan.symm.trans hz
    cases hη.unique isNumber_underflowMargin
    rcases DoubleWord.mul_spec ha.normalised hb.normalised with hnan | ⟨r, s, hr, hs, h'⟩
    · cases hnan.symm.trans hp.hi
    cases h' with
    | overflow h' => cases h'.symm.trans hp.hi
    | number hp' hproduct =>
      cases hp.unique hp'
      cases h with
      | overflow h => cases h.symm.trans hz
      | number ht hsum =>
        refine ⟨_, ht, (ha.lower hr).mul unit_nonneg unit_lt_one margin_pos hm hn (hb.lower hs)
          (fun h0 => hzero.1 (hr.eq_zero_iff.2 h0)) (fun h0 => hzero.2 (hs.eq_zero_iff.2 h0))
          (hproduct.1.trans (productError_le _)) ?_⟩
        exact hsum.trans (mul_le_mul_of_nonneg_right sumUnit_le (abs_nonneg _))

/-- The invariant holds of every formula over finite doubles. -/
theorem sound_eval (e : Expression) (he : e.Finite) :
    Value e.value (e.magnitude margin) e.depth (e.eval (Tracked DoubleWord)).value ∧
      Magnitude (e.magnitude margin) e.depth (e.eval (Tracked DoubleWord)).magnitude := by
  have hle := fun f : Expression => f.abs_value_le margin_pos.le
  have hnonneg := fun f : Expression => f.magnitude_nonneg margin_pos.le
  induction e with
  | leaf x =>
    have hx : (DoubleWord.ofFloat x).IsNumber (Binary64.value x) := .ofFloat (isFinite_iff.1 he)
    refine ⟨.number hx (.refl unit_nonneg sumUnit_nonneg (abs_nonneg _) 0), ?_⟩
    intro z hz
    exact ⟨_, hx.abs, .refl (abs_nonneg _)⟩
  | add e f ihe ihf =>
    obtain ⟨hve, hme⟩ := ihe he.1
    obtain ⟨hvf, hmf⟩ := ihf he.2
    exact ⟨hve.add (hle e) (hle f) hvf, hme.add (hnonneg e) (hnonneg f) hmf⟩
  | sub e f ihe ihf =>
    obtain ⟨hve, hme⟩ := ihe he.1
    obtain ⟨hvf, hmf⟩ := ihf he.2
    refine ⟨?_, hme.add (hnonneg e) (hnonneg f) hmf⟩
    rw [Expression.value, sub_eq_add_neg]
    exact hve.add (hle e) ((abs_neg _).trans_le (hle f)) hvf.neg
  | mul e f ihe ihf =>
    obtain ⟨hve, hme⟩ := ihe he.1
    obtain ⟨hvf, hmf⟩ := ihf he.2
    exact ⟨hve.mul (hle e) (hle f) hvf, hme.mul (hnonneg e) (hnonneg f) hmf⟩
  | neg e ih => exact ⟨(ih he).1.neg, (ih he).2⟩
  | abs e ih => exact ⟨(ih he).1.abs, (ih he).2⟩

/-! ## The sign test -/

/-- The computed error bound is a number, at most a small part of the range, that covers the error
of every value accurate enough. -/
theorem exists_error (hv : |v| ≤ m) {K : ℕ} (hk : k ≤ K) (hK : K ≤ 64)
    (hc : c.IsNumber ((K + 2) * unit)) (hb : Magnitude m k b) (hnan : datum (c * b).hi ≠ .nan) :
    ∃ ε, (c * b).IsNumber ε ∧ 0 ≤ ε ∧ ε < 2 ^ (1022 : ℤ) ∧
      ∀ x, Accuracy unit sumUnit margin v m k x →
        (|x - v| < 2 ^ (-1074 : ℤ) → m < margin → x = v) → x = v ∨ |x - v| ≤ ε := by
  have hm := (abs_nonneg v).trans hv
  rcases DoubleWord.mul_spec hc.normalised hb.normalised with h | ⟨c', r, hc', hr, h⟩
  · exact (hnan h).elim
  cases hc'.unique hc
  have hlower := hb.lower hr
  have hr0 := hlower.nonneg
  have hc0 : 0 ≤ (K + 2) * unit := mul_nonneg (by positivity) unit_nonneg
  have hcr : |(K + 2) * unit * r| < 2 ^ (1020 : ℤ) := by
    have hK64 : (K : ℚ) ≤ 64 := by exact_mod_cast hK
    have hc1 : (K + 2) * unit ≤ 2 ^ (-6 : ℤ) := by
      unfold unit
      norm_num
      linarith
    rw [abs_mul, abs_of_nonneg hc0]
    calc (K + 2) * unit * |r| ≤ 2 ^ (-6 : ℤ) * |r| :=
          mul_le_mul_of_nonneg_right hc1 (abs_nonneg r)
      _ < 2 ^ (-6 : ℤ) * 2 ^ (1025 : ℤ) := mul_lt_mul_of_pos_left hr.abs_lt (by positivity)
      _ = 2 ^ (1019 : ℤ) := by
        rw [← zpow_add₀ two_ne_zero]
        norm_num
      _ < 2 ^ (1020 : ℤ) := zpow_lt_zpow_right₀ one_lt_two (by norm_num)
  cases h with
  | overflow h hlarge =>
    exact absurd (hlarge.trans_lt hcr) (not_lt.2 (zpow_le_zpow_right₀ one_le_two (by norm_num)))
  | @number ε hε herror =>
    obtain ⟨hbound, -, hnonneg⟩ := herror
    have hε0 := hnonneg hc0 hr0
    refine ⟨ε, hε, hε0, ?_, ?_⟩
    · have hpow : (2 : ℚ) ^ (1022 : ℤ) = 4 * 2 ^ (1020 : ℤ) := by
        rw [show (1022 : ℤ) = 2 + 1020 by norm_num, zpow_add₀ two_ne_zero]
        norm_num
      have hM : (1 : ℚ) ≤ 2 ^ (1020 : ℤ) := one_le_zpow₀ one_le_two (by norm_num)
      have htiny : (2 : ℚ) ^ (-1072 : ℤ) ≤ 1 := zpow_le_one_of_nonpos₀ one_le_two (by norm_num)
      have htri := abs_sub_abs_le_abs_sub ε ((K + 2) * unit * r)
      rw [abs_of_nonneg hε0] at htri
      unfold DoubleWord.productError at hbound
      rw [hpow]
      clear hpow
      generalize (2 : ℚ) ^ (1020 : ℤ) = M at *
      generalize (2 : ℚ) ^ (-1072 : ℤ) = η at *
      norm_num only at hbound
      linarith [abs_nonneg ((K + 2) * unit * r)]
    · intro x hx hgrid
      have hunit : 8 * sumUnit ≤ unit := by
        unfold sumUnit unit
        norm_num
      have hgridUnit : (2 : ℚ) ^ (-1072 : ℤ) ≤ 4 * 2 ^ (-1074 : ℤ) := by
        rw [show (-1072 : ℤ) = 2 + -1074 by norm_num, zpow_add₀ two_ne_zero]
        norm_num
      refine hx.exact_or_le unit_nonneg unit_le sumUnit_nonneg hunit underflow_le hgridUnit hk hK hm
        hlower hgrid le_rfl (hbound.trans (add_le_add_left ?_ _))
      exact mul_le_mul_of_nonneg_right (zpow_le_zpow_right₀ one_le_two (by norm_num))
        (abs_nonneg _)

/-- A value above the computed error bound is that of a positive number. -/
theorem Value.pos_of_less (hv : |v| ≤ m) (hgrid : m < margin → OnGrid (-1074) v)
    (ha : Value v m k a) {K : ℕ} (hk : k ≤ K) (hK : K ≤ 64) (hc : c.IsNumber ((K + 2) * unit))
    (hb : Magnitude m k b) (hless : (c * b).less a = true) : 0 < v := by
  have hnan : datum (c * b).hi ≠ .nan := by
    intro h
    rw [DoubleWord.not_less_of_nan (.inl h)] at hless
    cases hless
  obtain ⟨ε, hε, hε0, hεlt, hbound⟩ := exists_error hv hk hK hc hb hnan
  cases ha with
  | undefined h =>
    rw [DoubleWord.not_less_of_nan (.inr h)] at hless
    cases hless
  | @number x h hx =>
    have hxε := (hε.less_iff h).1 hless
    have hexact : |x - v| < 2 ^ (-1074 : ℤ) → m < margin → x = v := fun hlt hsmall =>
      sub_eq_zero.1 ((h.onGrid.sub (hgrid hsmall)).eq_zero hlt)
    rcases hbound x hx hexact with rfl | hle
    · exact hε0.trans_lt hxε
    · linarith [(abs_le.1 hle).2]
  | @overflow x s h hlarge hsign hx =>
    rw [hε.less_infinity h] at hless
    have hx0 : 0 ≤ x := by
      rw [hsign, Bool.not_eq_true', decide_eq_false_iff_not, not_lt] at hless
      exact hless
    rw [abs_of_nonneg hx0] at hlarge
    have hexact : |x - v| < 2 ^ (-1074 : ℤ) → m < margin → x = v := by
      intro hlt hsmall
      have htwo : (2 : ℚ) ^ (1 : ℤ) ≤ 2 ^ (1022 : ℤ) :=
        zpow_le_zpow_right₀ one_le_two (by norm_num)
      have hmargin : margin ≤ 1 := zpow_le_one_of_nonpos₀ one_le_two (by norm_num)
      have hunit : (2 : ℚ) ^ (-1074 : ℤ) ≤ 1 := zpow_le_one_of_nonpos₀ one_le_two (by norm_num)
      have hxle : x < 2 ^ (1 : ℤ) := by
        rw [zpow_one]
        linarith only [(abs_lt.1 hlt).2, le_abs_self v, hv, hsmall, hmargin, hunit]
      exact absurd (htwo.trans hlarge) (not_le.2 hxle)
    rcases hbound x hx hexact with rfl | hle
    · exact lt_of_lt_of_le (by positivity) hlarge
    · linarith [(abs_le.1 hle).2]

/-- The error coefficient is exact. The numbers are few enough to check. -/
theorem isNumber_errorFactor {n : ℕ} (hn : n < 67) :
    (DoubleWord.ofFloat (errorFactor n (WorkingFloat.unitRoundoff DoubleWord))).IsNumber
      (n * unit) := by
  have hfactor : Float.ofNat n * .ofBits 0x39B0000000000000 =
      errorFactor n (.ofBits 0x39B0000000000000) := by
    revert n
    decide +kernel
  have hunit : datum (.ofBits 0x39B0000000000000) = .number unit :=
    datum_of_unpack_one (e := -152) rfl
  refine .ofFloat ?_
  change datum (errorFactor n (.ofBits 0x39B0000000000000)) = _
  rw [← hfactor, datum_mul, datum_ofNat (by omega), hunit, Datum.mul_number]
  exact Datum.round_natCast_mul_zpow (by omega) (by norm_num) (by norm_num)

/-- A sign test of a formula that the budget covers is right. -/
theorem answers_sign? (e : Expression) (he : e.Finite) {K : ℕ} (hdepth : e.depth ≤ K)
    (hK : K ≤ 64) : Answers true ((e.eval (Tracked DoubleWord)).sign? K) (Sign.of e.value) := by
  have hv := e.abs_value_le margin_pos.le
  have hgrid := e.onGrid_value margin_pos.le
  obtain ⟨hvalue, hmagnitude⟩ := sound_eval e he
  have hc := isNumber_errorFactor (show K + 2 < 67 by omega)
  push_cast at hc
  set x := e.eval (Tracked DoubleWord)
  refine answers_sign?_of_comparisons (e.depth_eval.trans_le hdepth) (by unfold depthLimit; omega)
    (fun hzero => ?zero) (fun _ habove => ?positive) fun _ hbelow => ?negative
  case zero => exact abs_nonpos_iff.1 (hmagnitude.eq_zero hzero ▸ hv)
  case positive => exact hvalue.pos_of_less hv hgrid hdepth hK hc hmagnitude habove
  case negative =>
    have hv' : |-e.value| ≤ e.magnitude margin := (abs_neg _).trans_le hv
    have hless : (x.errorBound K).less (-x.value) = true := by
      change ((x.errorBound K).compare? (-x.value) == some .lt) = true
      rw [DoubleWord.compare?_neg]
      exact hbelow
    exact neg_pos.1
      (hvalue.neg.pos_of_less hv' (fun h => (hgrid h).neg) hdepth hK hc hmagnitude hless)

/-- Whatever the formula over finite doubles: with a budget that covers its depth, a sign that
tracked double-words are certain of is the sign of the exact value. -/
theorem certified_doubleWord_sign (e : Expression) (he : e.Finite) (budget : ℕ)
    (hdepth : (e.eval (Tracked DoubleWord)).depth ≤ budget) (hbudget : budget ≤ 64) :
    ∃ answer, (sign? (e.eval (Tracked DoubleWord)) budget).run = .ok answer ∧
      ∀ s ∈ answer, s = Sign.of e.value := by
  exact exists_run_of_answers (fun hdepth => answers_sign? e he hdepth hbudget) hdepth

/-- The square of `1 + 2 ^ -52`, less one, is certainly positive, and so it is. -/
theorem certified_doubleWord_sign_square :
    (sign? ((Expression.sub (.mul (.leaf (.ofBits 0x3FF0000000000001))
        (.leaf (.ofBits 0x3FF0000000000001))) (.leaf 1)).eval (Tracked DoubleWord)) 2).run =
        .ok (some .positive) ∧
      Sign.positive = Sign.of (Expression.sub (.mul (.leaf (.ofBits 0x3FF0000000000001))
        (.leaf (.ofBits 0x3FF0000000000001))) (.leaf 1)).value := by
  have hrun : (sign? ((Expression.sub (.mul (.leaf (.ofBits 0x3FF0000000000001))
      (.leaf (.ofBits 0x3FF0000000000001))) (.leaf 1)).eval (Tracked DoubleWord)) 2).run =
      .ok (some .positive) := by
    decide +kernel
  obtain ⟨answer, hanswer, hsign⟩ := certified_doubleWord_sign
    (.sub (.mul (.leaf (.ofBits 0x3FF0000000000001)) (.leaf (.ofBits 0x3FF0000000000001)))
      (.leaf 1)) (by decide +kernel) 2 (by decide) (by norm_num)
  rw [hrun] at hanswer
  cases hanswer
  exact ⟨hrun, hsign _ rfl⟩

end ExactSphere.Tracked.DoubleWord
