import ExactSphere.BigFloat.Order
import ExactSphere.Proofs.BigFloat.Arithmetic
import Mathlib.Data.EReal.Operations
import Mathlib.Data.Prod.Lex
import Mathlib.Order.Compare

/-!
# The order of values

Values other than NaN are ordered as the extended real numbers that they stand for (`extended`), and
the larger and the smaller of two values as their ranks, which put the negative zero below the
positive one.
-/

namespace ExactSphere.BigFloat

variable {x y : BigFloat} {m n : ℕ} {e f : ℤ}

/-! ## Extended real numbers -/

/-- The extended real number of a value; NaN counts as zero. -/
noncomputable def extended (x : BigFloat) : EReal :=
  match x.magnitude with
  | .infinity => if x.negative then ⊥ else ⊤
  | _ => ((x.value : ℝ) : EReal)

/-- The extended real number of a value, and its sign bit for the zeros. -/
noncomputable def rank (x : BigFloat) : EReal ×ₗ Bool := toLex (x.extended, !x.negative)

theorem extended_neg (x : BigFloat) : (-x).extended = -x.extended := by
  obtain ⟨s, magnitude⟩ := x
  cases magnitude with
  | infinity => cases s <;> rfl
  | zero | finite m e | nan =>
    change (((-_ : BigFloat).value : ℝ) : EReal) = -((_ : ℝ) : EReal)
    rw [value_neg, Rat.cast_neg, EReal.coe_neg]

theorem extended_abs (x : BigFloat) :
    x.abs.extended = if x.negative then -x.extended else x.extended := by
  obtain ⟨s, magnitude⟩ := x
  cases s with
  | false => rfl
  | true => exact extended_neg ⟨true, magnitude⟩

theorem extended_zero (s : Bool) : (zero s).extended = 0 := by
  change (((0 : ℚ) : ℝ) : EReal) = 0
  rw [Rat.cast_zero, EReal.coe_zero]

theorem strictMono_ratCast_eReal : StrictMono fun v : ℚ => ((v : ℝ) : EReal) :=
  EReal.coe_strictMono.comp Rat.cast_strictMono

theorem extended_finite_pos (hm : m ≠ 0) : 0 < extended ⟨false, .finite m e⟩ := by
  have hpos : (0 : ℚ) < m * 2 ^ e :=
    mul_pos (by exact_mod_cast Nat.pos_of_ne_zero hm) (by positivity)
  have hlt := strictMono_ratCast_eReal hpos
  rwa [← extended_zero false]

/-! ## Finite magnitudes -/

/-- Of two numbers with different leading bits, that with the higher one is larger. -/
theorem mul_zpow_lt_of_lt (hn : n ≠ 0) (h : e + bitLength m < f + bitLength n) :
    (m * 2 ^ e : ℚ) < n * 2 ^ f := by
  have hhigh := abs_signedInt_lt_zpow false m e
  have hlow := zpow_le_abs_signedInt hn false f
  rw [abs_signedInt_mul_zpow] at hhigh hlow
  exact (hhigh.trans_le (zpow_le_zpow_right₀ one_le_two (by omega))).trans_le hlow

/-- A mantissa aligned with a smaller exponent. -/
theorem shiftLeft_mul_zpow (h : e ≤ f) : ((n <<< (f - e).toNat : ℕ) * 2 ^ e : ℚ) = n * 2 ^ f := by
  rw [Nat.shiftLeft_eq, Nat.cast_mul, Nat.cast_pow, mul_assoc, ← zpow_natCast, Nat.cast_ofNat,
    ← zpow_add₀ two_ne_zero, Int.toNat_of_nonneg (by omega), sub_add_cancel]

theorem compare_eq_cmp_mul_zpow (m n : ℕ) (e : ℤ) :
    compare m n = cmp (m * 2 ^ e : ℚ) (n * 2 ^ e) := by
  have hpos : (0 : ℚ) < 2 ^ e := by positivity
  rw [cmp_mul_pos_right hpos, (Nat.strictMono_cast (α := ℚ)).cmp_map_eq, cmp_eq_compare]

theorem compareFinite_eq (hm : m ≠ 0) (hn : n ≠ 0) :
    compareFinite m e n f = cmp (m * 2 ^ e : ℚ) (n * 2 ^ f) := by
  unfold compareFinite
  cases htop : compare (e + bitLength m) (f + bitLength n) with
  | lt => exact ((cmp_eq_lt_iff _ _).2 (mul_zpow_lt_of_lt hn (compare_lt_iff_lt.1 htop))).symm
  | gt => exact ((cmp_eq_gt_iff _ _).2 (mul_zpow_lt_of_lt hm (compare_gt_iff_gt.1 htop))).symm
  | eq =>
    dsimp only
    split_ifs with hle
    · rw [compare_eq_cmp_mul_zpow _ _ e, shiftLeft_mul_zpow hle]
    · rw [compare_eq_cmp_mul_zpow _ _ f, shiftLeft_mul_zpow (not_le.1 hle).le]

/-! ## Magnitudes -/

/-- The magnitudes of values are compared as their sizes. -/
theorem compareMagnitude_eq (hx : x.Canonical) (hy : y.Canonical) (hxn : x.isNaN = false)
    (hyn : y.isNaN = false) :
    compareMagnitude x.magnitude y.magnitude = cmp x.abs.extended y.abs.extended := by
  obtain ⟨s, _ | ⟨m, e⟩ | _ | _⟩ := x <;> obtain ⟨t, _ | ⟨n, f⟩ | _ | _⟩ := y
  case finite.finite =>
    exact (compareFinite_eq hx.mantissa_ne_zero hy.mantissa_ne_zero).trans
      (strictMono_ratCast_eReal.cmp_map_eq _ _).symm
  case zero.zero | infinity.infinity => exact (cmp_self_eq_eq _).symm
  case zero.finite =>
    have hlt := extended_finite_pos (e := f) hy.mantissa_ne_zero
    exact ((cmp_eq_lt_iff _ _).2 ((extended_zero false).trans_lt hlt)).symm
  case finite.zero =>
    have hlt := extended_finite_pos (e := e) hx.mantissa_ne_zero
    exact ((cmp_eq_gt_iff _ _).2 ((extended_zero false).trans_lt hlt)).symm
  case zero.infinity | finite.infinity =>
    exact ((cmp_eq_lt_iff _ _).2 (EReal.coe_lt_top _)).symm
  case infinity.zero | infinity.finite =>
    exact ((cmp_eq_gt_iff _ _).2 (EReal.coe_lt_top _)).symm
  case nan.zero | nan.finite | nan.infinity | nan.nan => cases hxn
  case zero.nan | finite.nan | infinity.nan => cases hyn

/-! ## Signs -/

theorem extended_nonneg (h : x.negative = false) : 0 ≤ x.extended := by
  obtain ⟨s, magnitude⟩ := x
  obtain rfl : s = false := h
  cases magnitude with
  | infinity => exact le_top
  | zero | finite m e | nan => exact EReal.coe_nonneg.2 (Rat.cast_nonneg.2 (value_nonneg rfl))

theorem extended_nonpos (h : x.negative = true) : x.extended ≤ 0 := by
  have hneg := extended_nonneg (x := -x) (by rw [neg_negative, h]; rfl)
  rwa [extended_neg, EReal.neg_nonneg] at hneg

/-- Only zeros are the number zero. -/
theorem isZero_of_extended_eq_zero (hx : x.Canonical) (hxn : x.isNaN = false)
    (h : x.extended = 0) : x.isZero = true := by
  have habs : x.abs.extended = 0 := by
    rw [extended_abs, h, neg_zero, ite_self]
  obtain ⟨s, magnitude⟩ := x
  cases magnitude with
  | zero => rfl
  | finite m e => exact absurd habs (extended_finite_pos hx.mantissa_ne_zero).ne'
  | infinity => exact absurd habs EReal.top_ne_zero
  | nan => cases hxn

theorem rank_lt_iff : x.rank < y.rank ↔
    x.extended ≤ y.extended ∧ (x.extended = y.extended → (!x.negative) < !y.negative) :=
  Prod.Lex.toLex_lt_toLex'

/-- A negative value ranks below one that is not, even if both are zeros. -/
theorem rank_lt_of_negative (hneg : x.negative = true) (hpos : y.negative = false) :
    x.rank < y.rank := by
  refine rank_lt_iff.2 ⟨(extended_nonpos hneg).trans (extended_nonneg hpos), fun _ => ?_⟩
  rw [hneg, hpos]
  decide

theorem rank_lt_iff_of_negative_eq (h : x.negative = y.negative) :
    x.rank < y.rank ↔ x.extended < y.extended := by
  rw [rank_lt_iff, h]
  simp only [lt_irrefl, imp_false]
  exact lt_iff_le_and_ne.symm

/-! ## Comparison -/

section Numbers

variable (hx : x.Canonical) (hy : y.Canonical) (hxn : x.isNaN = false) (hyn : y.isNaN = false)
include hx hy hxn hyn

/-- Values of different signs have one number only if both are zeros. -/
theorem extended_lt_of_negative (hneg : x.negative = true) (hpos : y.negative = false)
    (hzero : ¬(x.isZero = true ∧ y.isZero = true)) : x.extended < y.extended := by
  have hlow := extended_nonpos hneg
  have hhigh := extended_nonneg hpos
  refine lt_of_le_of_ne (hlow.trans hhigh) fun heq => hzero ⟨?_, ?_⟩
  · exact isZero_of_extended_eq_zero hx hxn (le_antisymm hlow (heq ▸ hhigh))
  · exact isZero_of_extended_eq_zero hy hyn (le_antisymm (heq ▸ hlow) hhigh)

theorem compare?_eq : x.compare? y = some (cmp x.extended y.extended) := by
  unfold compare?
  rw [hxn, hyn, Bool.or_self, if_neg Bool.false_ne_true]
  by_cases hzero : x.isZero = true ∧ y.isZero = true
  · rw [hzero.1, hzero.2, Bool.and_self, if_pos rfl, eq_zero_of_isZero hzero.1,
      eq_zero_of_isZero hzero.2, extended_zero, extended_zero, cmp_self_eq_eq]
  rw [if_neg (by rwa [Bool.and_eq_true])]
  have hxabs := extended_abs x
  have hyabs := extended_abs y
  cases hxs : x.negative <;> cases hys : y.negative <;> rw [hxs] at hxabs <;> rw [hys] at hyabs
  case false.false =>
    dsimp only
    rw [compareMagnitude_eq hx hy hxn hyn, hxabs, hyabs]
    rfl
  case false.true =>
    have hlt := extended_lt_of_negative hy hx hyn hxn hys hxs fun h => hzero h.symm
    rw [(cmp_eq_gt_iff _ _).2 hlt]
  case true.false =>
    rw [(cmp_eq_lt_iff _ _).2 (extended_lt_of_negative hx hy hxn hyn hxs hys hzero)]
  case true.true =>
    dsimp only
    rw [compareMagnitude_eq hy hx hyn hxn, hxabs, hyabs]
    exact congrArg some (EReal.neg_strictAnti.cmp_map_eq _ _)

theorem less_iff : x.less y = true ↔ x.extended < y.extended := by
  rw [less, compare?_eq hx hy hxn hyn, beq_iff_eq, Option.some_inj, cmp_eq_lt_iff]

/-- A value is its number with its sign bit. -/
theorem eq_of_extended_eq (hsign : x.negative = y.negative) (h : x.extended = y.extended) :
    x = y := by
  have habs : x.abs.extended = y.abs.extended := by
    rw [extended_abs, extended_abs, hsign, h]
  obtain ⟨s, _ | ⟨m, e⟩ | _ | _⟩ := x <;> obtain ⟨t, _ | ⟨n, f⟩ | _ | _⟩ := y
  all_goals obtain rfl : s = t := hsign
  case zero.zero | infinity.infinity => rfl
  case finite.finite =>
    obtain ⟨rfl, rfl⟩ := finite_inj hx.1 hy.1 (strictMono_ratCast_eReal.injective habs)
    rfl
  case zero.finite =>
    have hpos := extended_finite_pos (e := f) hy.mantissa_ne_zero
    exact absurd habs ((extended_zero false).trans_lt hpos).ne
  case finite.zero =>
    have hpos := extended_finite_pos (e := e) hx.mantissa_ne_zero
    exact absurd habs ((extended_zero false).trans_lt hpos).ne'
  case zero.infinity | finite.infinity => exact absurd habs (EReal.coe_ne_top _)
  case infinity.zero | infinity.finite => exact absurd habs.symm (EReal.coe_ne_top _)
  case nan.zero | nan.finite | nan.infinity | nan.nan => cases hxn
  case zero.nan | finite.nan | infinity.nan => cases hyn

theorem beq_iff_extended_eq : (x == y) = true ↔ x.extended = y.extended := by
  have hbeq : (x == y) = true ↔ (x.isZero = true ∧ y.isZero = true) ∨ x = y := by
    change (!x.isNaN && !y.isNaN && ((x.isZero && y.isZero) || decide (x = y))) = true ↔ _
    rw [hxn, hyn]
    simp
  rw [hbeq]
  constructor
  · rintro (⟨hxz, hyz⟩ | rfl)
    · rw [eq_zero_of_isZero hxz, eq_zero_of_isZero hyz, extended_zero, extended_zero]
    · rfl
  · intro heq
    cases hxs : x.negative <;> cases hys : y.negative
    case false.false | true.true =>
      exact .inr (eq_of_extended_eq hx hy hxn hyn (hxs.trans hys.symm) heq)
    case true.false =>
      by_contra! h
      exact (extended_lt_of_negative hx hy hxn hyn hxs hys (fun hz => h.1 hz.1 hz.2)).ne heq
    case false.true =>
      by_contra! h
      exact (extended_lt_of_negative hy hx hyn hxn hys hxs fun hz => h.1 hz.2 hz.1).ne' heq

theorem maximum_eq : x.maximum y = if x.rank < y.rank then y else x := by
  unfold maximum
  rw [hxn, hyn, if_neg Bool.false_ne_true, if_neg Bool.false_ne_true]
  cases hxs : x.negative <;> cases hys : y.negative
  case false.true => exact (if_neg (rank_lt_of_negative hys hxs).asymm).symm
  case true.false => exact (if_pos (rank_lt_of_negative hxs hys)).symm
  case false.false | true.true =>
    simp only [rank_lt_iff_of_negative_eq (hxs.trans hys.symm), ← less_iff hx hy hxn hyn]
    rfl

theorem minimum_eq : x.minimum y = if y.rank < x.rank then y else x := by
  unfold minimum
  rw [hxn, hyn, if_neg Bool.false_ne_true, if_neg Bool.false_ne_true]
  cases hxs : x.negative <;> cases hys : y.negative
  case false.true => exact (if_pos (rank_lt_of_negative hys hxs)).symm
  case true.false => exact (if_neg (rank_lt_of_negative hxs hys).asymm).symm
  case false.false | true.true =>
    simp only [rank_lt_iff_of_negative_eq (hys.trans hxs.symm), ← less_iff hy hx hyn hxn]
    rfl

end Numbers

/-! ## NaN -/

theorem compare?_eq_none_iff : x.compare? y = none ↔ x.isNaN = true ∨ y.isNaN = true := by
  unfold compare?
  rw [← Bool.or_eq_true]
  split_ifs with hnan hzero
  · simp [hnan]
  · simp [hnan]
  · simp only [hnan]
    split <;> simp

/-- Values are compared as extended real numbers, where both zeros are one number, and NaN with
nothing. Equal values are those that compare equal. The larger and the smaller value are those of
the larger and the smaller rank, and NaN gives way to the other value. -/
theorem order_extended (hx : x.Canonical) (hy : y.Canonical) :
    (x.compare? y = none ↔ x.isNaN = true ∨ y.isNaN = true) ∧
      ((x == y) = true ↔ x.compare? y = some .eq) ∧
      (x.isNaN = false → y.isNaN = false →
        x.compare? y = some (cmp x.extended y.extended) ∧
        x.maximum y = (if x.rank < y.rank then y else x) ∧
        x.minimum y = if y.rank < x.rank then y else x) ∧
      (x.isNaN = true → x.maximum y = y ∧ x.minimum y = y) ∧
      (x.isNaN = false → y.isNaN = true → x.maximum y = x ∧ x.minimum y = x) := by
  refine ⟨compare?_eq_none_iff, ?equal, ?numbers, ?left, ?right⟩
  case equal =>
    cases hxn : x.isNaN <;> cases hyn : y.isNaN
    case false.false =>
      rw [beq_iff_extended_eq hx hy hxn hyn, compare?_eq hx hy hxn hyn, Option.some_inj,
        cmp_eq_eq_iff]
    all_goals
      rw [compare?_eq_none_iff.2 (by simp [hxn, hyn])]
      change (!x.isNaN && !y.isNaN && _) = true ↔ _
      simp [hxn, hyn]
  case numbers =>
    exact fun hxn hyn =>
      ⟨compare?_eq hx hy hxn hyn, maximum_eq hx hy hxn hyn, minimum_eq hx hy hxn hyn⟩
  case left => exact fun hxn => ⟨if_pos hxn, if_pos hxn⟩
  case right =>
    intro hxn hyn
    unfold maximum minimum
    rw [hxn, hyn]
    exact ⟨rfl, rfl⟩

/-- Minus three halves lie below minus five quarters. The zeros are equal, but the positive one is
the larger of the two. -/
theorem order_extended_below_zero :
    (compare? ⟨true, .finite 3 (-1)⟩ ⟨true, .finite 5 (-2)⟩ = some .lt ∧
        maximum ⟨true, .finite 3 (-1)⟩ ⟨true, .finite 5 (-2)⟩ = ⟨true, .finite 5 (-2)⟩ ∧
        minimum ⟨true, .finite 3 (-1)⟩ ⟨true, .finite 5 (-2)⟩ = ⟨true, .finite 3 (-1)⟩) ∧
      (zero false == zero true) = true ∧ (zero false).maximum (zero true) = zero false ∧
      (zero false).minimum (zero true) = zero true := by
  constructor
  · have hx : Canonical ⟨true, .finite 3 (-1)⟩ := by unfold Canonical; decide
    have hy : Canonical ⟨true, .finite 5 (-2)⟩ := by unfold Canonical; decide
    obtain ⟨hcompare, hmaximum, hminimum⟩ := (order_extended hx hy).2.2.1 rfl rfl
    have hvalue : value ⟨true, .finite 3 (-1)⟩ < value ⟨true, .finite 5 (-2)⟩ := by
      change ((-3 : ℤ) : ℚ) * 2 ^ (-1 : ℤ) < ((-5 : ℤ) : ℚ) * 2 ^ (-2 : ℤ)
      norm_num
    have hextended : extended ⟨true, .finite 3 (-1)⟩ < extended ⟨true, .finite 5 (-2)⟩ :=
      strictMono_ratCast_eReal hvalue
    have hrank : rank ⟨true, .finite 3 (-1)⟩ < rank ⟨true, .finite 5 (-2)⟩ :=
      (rank_lt_iff_of_negative_eq (by rfl)).2 hextended
    rw [hcompare, hextended.cmp_eq_lt, hmaximum, if_pos hrank, hminimum, if_neg hrank.asymm]
    exact ⟨rfl, rfl, rfl⟩
  · obtain ⟨-, hequal, hnumbers, -⟩ :=
      order_extended (x := zero false) (y := zero true) trivial trivial
    obtain ⟨hcompare, hmaximum, hminimum⟩ := hnumbers rfl rfl
    have hrank : (zero true).rank < (zero false).rank := rank_lt_of_negative rfl rfl
    refine ⟨hequal.2 ?_, hmaximum.trans (if_neg hrank.asymm), hminimum.trans (if_pos hrank)⟩
    rw [hcompare, extended_zero, extended_zero, cmp_self_eq_eq]

end ExactSphere.BigFloat
