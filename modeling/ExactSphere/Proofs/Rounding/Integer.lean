import ExactSphere.Bits
import ExactSphere.Rounding
import ExactSphere.Proofs.Binary64.Nearest
import Mathlib.Algebra.Order.Round
import Mathlib.Data.Rat.Floor

/-!
# Rounding to integers

`RoundingMode.integer` rounds a rational to an integer. A quotient of natural numbers with a sign in
front of it is rounded by its remainder, to the same integer (`RoundingMode.signedInt_divide`).
-/

namespace ExactSphere.RoundingMode

/-- `x` rounded to an integer. -/
def integer : RoundingMode → ℚ → ℤ
  | towardZero, x => if x < 0 then ⌈x⌉ else ⌊x⌋
  | awayFromZero, x => if x < 0 then ⌊x⌋ else ⌈x⌉
  | towardPositive, x => ⌈x⌉
  | towardNegative, x => ⌊x⌋
  | tiesAway, x => if x < 0 then -round (-x) else round x
  | tiesEven, x => Binary64.roundEven x

/-- The mode that rounds the opposite of a number as this one rounds the number. -/
def mirror : RoundingMode → RoundingMode
  | towardPositive => towardNegative
  | towardNegative => towardPositive
  | mode => mode

theorem integer_neg (mode : RoundingMode) (x : ℚ) : mode.integer (-x) = -mode.mirror.integer x := by
  cases mode with
  | towardZero | awayFromZero | tiesAway =>
    unfold integer mirror
    rcases lt_trichotomy x 0 with hx | rfl | hx
    · simp [hx, hx.le, Int.floor_neg, Int.ceil_neg]
    · simp
    · simp [hx, hx.le, Int.floor_neg, Int.ceil_neg]
  | towardPositive => exact Int.ceil_neg
  | towardNegative => exact Int.floor_neg
  | tiesEven => exact Binary64.roundEven_neg x

theorem abs_floor_sub_lt_one (x : ℚ) : |⌊x⌋ - x| < 1 := by
  rw [abs_lt]
  constructor <;> linarith [Int.floor_le x, Int.lt_floor_add_one x]

theorem abs_ceil_sub_lt_one (x : ℚ) : |⌈x⌉ - x| < 1 := by
  rw [abs_lt]
  constructor <;> linarith [Int.le_ceil x, Int.ceil_lt_add_one x]

theorem abs_integer_tiesAway_sub_le (x : ℚ) : |tiesAway.integer x - x| ≤ 1 / 2 := by
  unfold integer
  dsimp only
  split_ifs with hx
  · have hround := abs_sub_round (-x)
    rwa [show -x - (round (-x) : ℚ) = (-round (-x) : ℤ) - x by push_cast; ring] at hround
  · rw [abs_sub_comm]
    exact abs_sub_round x

theorem abs_integer_sub_lt_one (mode : RoundingMode) (x : ℚ) : |mode.integer x - x| < 1 := by
  cases mode with
  | towardZero =>
    unfold integer
    dsimp only
    split_ifs
    · exact abs_ceil_sub_lt_one x
    · exact abs_floor_sub_lt_one x
  | awayFromZero =>
    unfold integer
    dsimp only
    split_ifs
    · exact abs_floor_sub_lt_one x
    · exact abs_ceil_sub_lt_one x
  | towardPositive => exact abs_ceil_sub_lt_one x
  | towardNegative => exact abs_floor_sub_lt_one x
  | tiesAway => exact (abs_integer_tiesAway_sub_le x).trans_lt (by norm_num)
  | tiesEven => exact (Binary64.abs_roundEven_sub_le_half x).trans_lt (by norm_num)

@[simp] theorem integer_intCast (mode : RoundingMode) (n : ℤ) : mode.integer n = n := by
  have hlt : |mode.integer n - n| < 1 := by exact_mod_cast abs_integer_sub_lt_one mode n
  exact sub_eq_zero.1 (Int.abs_lt_one_iff.1 hlt)

/-- Rounding does not leave an interval with integer ends around zero. -/
theorem abs_integer_le (mode : RoundingMode) {x : ℚ} {n : ℕ} (h : |x| ≤ n) :
    |mode.integer x| ≤ n := by
  have hsum := abs_sub_abs_le_abs_sub (mode.integer x : ℚ) x
  have hlt : |(mode.integer x : ℚ)| < n + 1 := by linarith [abs_integer_sub_lt_one mode x]
  have : |mode.integer x| < n + 1 := by exact_mod_cast hlt
  omega

theorem le_abs_integer (mode : RoundingMode) {x : ℚ} {n : ℕ} (h : n ≤ |x|) :
    n ≤ |mode.integer x| := by
  have hsum := abs_sub_abs_le_abs_sub x (mode.integer x : ℚ)
  rw [abs_sub_comm] at hsum
  have hlt : (n : ℚ) < |(mode.integer x : ℚ)| + 1 := by linarith [abs_integer_sub_lt_one mode x]
  have : (n : ℤ) < |mode.integer x| + 1 := by exact_mod_cast hlt
  omega

theorem integer_nonneg (mode : RoundingMode) {x : ℚ} (h : 0 ≤ x) : 0 ≤ mode.integer x := by
  have hclose := abs_lt.1 (abs_integer_sub_lt_one mode x)
  have hlt : (-1 : ℚ) < mode.integer x := by linarith
  have : -1 < mode.integer x := by exact_mod_cast hlt
  omega

theorem integer_nonpos (mode : RoundingMode) {x : ℚ} (h : x ≤ 0) : mode.integer x ≤ 0 := by
  have hclose := abs_lt.1 (abs_integer_sub_lt_one mode x)
  have hlt : (mode.integer x : ℚ) < 1 := by linarith
  have : mode.integer x < 1 := by exact_mod_cast hlt
  omega

/-! ## Quotients -/

section Quotient

variable {n d : ℕ}

theorem floor_natCast_div (n d : ℕ) : ⌊(n : ℚ) / d⌋ = (n / d : ℕ) := by
  rw [Rat.floor_natCast_div_natCast, Int.natCast_div]

/-- A quotient is the whole part and the remainder over the divisor. -/
theorem natCast_div_eq (n d : ℕ) : (n / d : ℚ) = (n / d : ℕ) + ((n % d : ℕ) / d : ℚ) := by
  have hfract := Int.floor_add_fract ((n : ℚ) / d)
  rw [floor_natCast_div, Int.fract_div_natCast_eq_div_natCast_mod] at hfract
  exact_mod_cast hfract.symm

theorem mod_div_lt_half_iff (hd : d ≠ 0) : ((n % d : ℕ) / d : ℚ) < 1 / 2 ↔ 2 * (n % d) < d := by
  have hpos : (0 : ℚ) < d := by exact_mod_cast Nat.pos_of_ne_zero hd
  rw [div_lt_div_iff₀ hpos two_pos, one_mul, mul_comm]
  exact_mod_cast Iff.rfl

theorem mod_div_lt_one (n : ℕ) (hd : d ≠ 0) : ((n % d : ℕ) / d : ℚ) < 1 := by
  rw [div_lt_one (by exact_mod_cast Nat.pos_of_ne_zero hd)]
  exact_mod_cast Nat.mod_lt n (Nat.pos_of_ne_zero hd)

theorem ceil_natCast_div (hd : d ≠ 0) :
    ⌈(n : ℚ) / d⌉ = if n % d = 0 then ((n / d : ℕ) : ℤ) else (n / d : ℕ) + 1 := by
  have hpos : (0 : ℚ) < d := by exact_mod_cast Nat.pos_of_ne_zero hd
  have hlt := mod_div_lt_one n hd
  rw [natCast_div_eq, Int.ceil_natCast_add]
  split_ifs with hzero
  · simp [hzero]
  · have hrest : (0 : ℚ) < (n % d : ℕ) / d :=
      div_pos (by exact_mod_cast Nat.pos_of_ne_zero hzero) hpos
    have hone : ⌈((n % d : ℕ) / d : ℚ)⌉ = 1 := by
      rw [Int.ceil_eq_iff, Int.cast_one, sub_self]
      exact ⟨hrest, hlt.le⟩
    rw [hone]

theorem round_natCast_div (hd : d ≠ 0) :
    round ((n : ℚ) / d) = if 2 * (n % d) < d then ((n / d : ℕ) : ℤ) else (n / d : ℕ) + 1 := by
  have hnonneg : (0 : ℚ) ≤ (n % d : ℕ) / d := by positivity
  have hlt := mod_div_lt_one n hd
  rw [round_eq, natCast_div_eq, add_assoc, Int.floor_natCast_add]
  split_ifs with hbelow
  · have := (mod_div_lt_half_iff hd).2 hbelow
    have hzero : ⌊((n % d : ℕ) / d + 1 / 2 : ℚ)⌋ = 0 := by
      rw [Int.floor_eq_zero_iff, Set.mem_Ico]
      constructor <;> linarith
    rw [hzero, add_zero]
  · have := not_lt.1 (mt (mod_div_lt_half_iff hd).1 hbelow)
    have hone : ⌊((n % d : ℕ) / d + 1 / 2 : ℚ)⌋ = 1 := by
      rw [Int.floor_eq_iff, Int.cast_one]
      constructor <;> linarith
    rw [hone]

theorem roundEven_natCast_div (hd : d ≠ 0) :
    Binary64.roundEven ((n : ℚ) / d) = if 2 * (n % d) < d then ((n / d : ℕ) : ℤ)
      else if 2 * (n % d) = d then (n / d : ℕ) + (n / d % 2 : ℕ) else (n / d : ℕ) + 1 := by
  have hpos : (0 : ℚ) < d := by exact_mod_cast Nat.pos_of_ne_zero hd
  have hhalf : ((n % d : ℕ) / d : ℚ) = 1 / 2 ↔ 2 * (n % d) = d := by
    rw [div_eq_div_iff hpos.ne' two_ne_zero, one_mul, mul_comm]
    exact_mod_cast Iff.rfl
  unfold Binary64.roundEven
  simp only [Int.fract_div_natCast_eq_div_natCast_mod, floor_natCast_div,
    mod_div_lt_half_iff hd, hhalf, Int.natCast_mod, Nat.cast_ofNat]

/-- A quotient of natural numbers is rounded by its remainder. -/
theorem divide_eq (mode : RoundingMode) (n : ℕ) (hd : d ≠ 0) :
    (mode.divide false n d : ℤ) = mode.integer (n / d) := by
  have hnonneg : ¬(n / d : ℚ) < 0 := not_lt.2 (by positivity)
  have hfloor := floor_natCast_div n d
  have hceil := ceil_natCast_div (n := n) hd
  have hround := round_natCast_div (n := n) hd
  have heven := roundEven_natCast_div (n := n) hd
  unfold divide integer
  generalize (n : ℚ) / d = x at *
  generalize n % d = r at *
  generalize n / d = q at *
  unfold Discarded.ofRemainder
  by_cases hzero : r = 0
  · have hbelow : 2 * r < d := by omega
    cases mode <;> simp [*, roundsUp]
  by_cases hbelow : 2 * r < d
  · cases mode <;> simp [*, roundsUp]
  by_cases htie : 2 * r = d
  · rcases Nat.mod_two_eq_zero_or_one q with hq | hq <;> cases mode <;> simp [*, roundsUp]
  · cases mode <;> simp [*, roundsUp]

theorem divide_true (mode : RoundingMode) (n d : ℕ) :
    mode.divide true n d = mode.mirror.divide false n d := by
  have hup : ∀ odd discarded, mode.roundsUp true odd discarded =
      mode.mirror.roundsUp false odd discarded := by
    intro odd discarded
    cases mode <;> cases discarded <;> rfl
  simp only [divide, hup]

/-- A quotient with a sign in front of it is rounded by the remainder. -/
theorem signedInt_divide (mode : RoundingMode) (s : Bool) (n : ℕ) (hd : d ≠ 0) :
    signedInt s (mode.divide s n d) = mode.integer (signedInt s n / d) := by
  cases s with
  | false => exact divide_eq mode n hd
  | true =>
    simp only [signedInt, if_true, Int.cast_neg, Int.cast_natCast, neg_div, integer_neg]
    rw [divide_true, divide_eq _ n hd]

end Quotient

end ExactSphere.RoundingMode
