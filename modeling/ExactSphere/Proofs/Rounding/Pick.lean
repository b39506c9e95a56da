import ExactSphere.Proofs.Rounding.Integer

/-!
# The numbers that rounding modes pick

`RoundingMode.Picks` says which of several candidates a mode picks for a number. Among the multiples
of a unit that is the rounded quotient by the unit and nothing else
(`RoundingMode.picks_multiple_iff`), and candidates beyond old ones change nothing
(`RoundingMode.Picks.of_between`).
-/

namespace ExactSphere

/-- `x` is an integer multiple of `unit`. -/
def Multiple (unit x : ℚ) : Prop := ∃ n : ℤ, x = n * unit

namespace RoundingMode

/-- `w` is the greatest candidate that is not above `v`. -/
def Below (candidate : ℚ → Prop) (v w : ℚ) : Prop := IsGreatest {u | candidate u ∧ u ≤ v} w

/-- `w` is the least candidate that is not below `v`. -/
def Above (candidate : ℚ → Prop) (v w : ℚ) : Prop := IsLeast {u | candidate u ∧ v ≤ u} w

/-- `w` is a candidate, and no candidate is nearer to `v`. -/
def Nearest (candidate : ℚ → Prop) (v w : ℚ) : Prop :=
  candidate w ∧ ∀ u, candidate u → |w - v| ≤ |u - v|

/-- `w` is the candidate that the mode picks for `v`. Of two nearest ones that is the larger in size
or the even one. -/
def Picks (mode : RoundingMode) (candidate even : ℚ → Prop) (v w : ℚ) : Prop :=
  match mode with
  | towardZero => if v < 0 then Above candidate v w else Below candidate v w
  | awayFromZero => if v < 0 then Below candidate v w else Above candidate v w
  | towardPositive => Above candidate v w
  | towardNegative => Below candidate v w
  | tiesAway => Nearest candidate v w ∧ ∀ u, candidate u → |u - v| = |w - v| → |u| ≤ |w|
  | tiesEven => Nearest candidate v w ∧ ∀ u, candidate u → |u - v| = |w - v| → u = w ∨ even w

variable {mode : RoundingMode} {candidate candidate' even even' : ℚ → Prop} {v w unit : ℚ}

/-! ## Other candidates -/

/-- A candidate is picked for itself. -/
theorem Picks.self (mode : RoundingMode) (hv : candidate v) : mode.Picks candidate even v v := by
  have hbelow : Below candidate v v := ⟨⟨hv, le_rfl⟩, fun u hu => hu.2⟩
  have habove : Above candidate v v := ⟨⟨hv, le_rfl⟩, fun u hu => hu.2⟩
  have hnearest : Nearest candidate v v := ⟨hv, fun u _ => by simp⟩
  have htie : ∀ u, |u - v| = |v - v| → u = v := fun u hu => by
    rwa [sub_self, abs_zero, abs_eq_zero, sub_eq_zero] at hu
  cases mode with
  | towardZero | awayFromZero =>
    unfold Picks
    dsimp only
    split_ifs <;> assumption
  | towardPositive => exact habove
  | towardNegative => exact hbelow
  | tiesAway => exact ⟨hnearest, fun u _ hu => by rw [htie u hu]⟩
  | tiesEven => exact ⟨hnearest, fun u _ hu => .inl (htie u hu)⟩

theorem Above.eq_self (h : Above candidate v w) (hv : candidate v) : w = v :=
  le_antisymm (h.2 ⟨hv, le_rfl⟩) h.1.2

theorem Below.eq_self (h : Below candidate v w) (hv : candidate v) : w = v :=
  le_antisymm h.1.2 (h.2 ⟨hv, le_rfl⟩)

theorem Nearest.eq_self (h : Nearest candidate v w) (hv : candidate v) : w = v := by
  have hle := h.2 v hv
  rwa [sub_self, abs_zero, abs_nonpos_iff, sub_eq_zero] at hle

/-- For a candidate nothing else is picked. -/
theorem Picks.eq_self (h : mode.Picks candidate even v w) (hv : candidate v) : w = v := by
  unfold Picks at h
  cases mode with
  | towardZero =>
    dsimp only at h
    split_ifs at h
    · exact Above.eq_self h hv
    · exact Below.eq_self h hv
  | awayFromZero =>
    dsimp only at h
    split_ifs at h
    · exact Below.eq_self h hv
    · exact Above.eq_self h hv
  | towardPositive => exact Above.eq_self h hv
  | towardNegative => exact Below.eq_self h hv
  | tiesAway | tiesEven => exact h.1.eq_self hv

/-- `u'` lies between `u` and `v`, or is one of them. -/
def Between (u v u' : ℚ) : Prop := u ≤ u' ∧ u' ≤ v ∨ v ≤ u' ∧ u' ≤ u

theorem Between.abs_sub_le {u u' : ℚ} (h : Between u v u') : |u' - v| ≤ |u - v| := by
  rcases h with ⟨hle, hv⟩ | ⟨hv, hle⟩
  · rw [abs_of_nonpos (sub_nonpos.2 hv), abs_of_nonpos (sub_nonpos.2 (hle.trans hv))]
    linarith
  · rw [abs_of_nonneg (sub_nonneg.2 hv), abs_of_nonneg (sub_nonneg.2 (hv.trans hle))]
    linarith

theorem Between.eq_of_abs_sub_eq {u u' : ℚ} (h : Between u v u') (heq : |u' - v| = |u - v|) :
    u' = u := by
  rcases h with ⟨hle, hv⟩ | ⟨hv, hle⟩
  · rw [abs_of_nonpos (sub_nonpos.2 hv), abs_of_nonpos (sub_nonpos.2 (hle.trans hv))] at heq
    linarith
  · rw [abs_of_nonneg (sub_nonneg.2 hv), abs_of_nonneg (sub_nonneg.2 (hv.trans hle))] at heq
    linarith

section Between

variable (hw : candidate' w) (hbetween : ∀ u, candidate' u → ∃ u', candidate u' ∧ Between u v u')
include hw hbetween

theorem Below.of_between (h : Below candidate v w) : Below candidate' v w := by
  refine ⟨⟨hw, h.1.2⟩, ?_⟩
  rintro u ⟨hu, hle⟩
  obtain ⟨u', hu', ⟨huu', hu'v⟩ | ⟨hvu', hu'u⟩⟩ := hbetween u hu
  · exact huu'.trans (h.2 ⟨hu', hu'v⟩)
  · obtain rfl : u' = v := le_antisymm (hu'u.trans hle) hvu'
    exact hle.trans (h.2 ⟨hu', le_rfl⟩)

theorem Above.of_between (h : Above candidate v w) : Above candidate' v w := by
  refine ⟨⟨hw, h.1.2⟩, ?_⟩
  rintro u ⟨hu, hle⟩
  obtain ⟨u', hu', ⟨huu', hu'v⟩ | ⟨hvu', hu'u⟩⟩ := hbetween u hu
  · obtain rfl : u' = v := le_antisymm hu'v (hle.trans huu')
    exact (h.2 ⟨hu', le_rfl⟩).trans hle
  · exact (h.2 ⟨hu', hvu'⟩).trans hu'u

theorem Nearest.of_between (h : Nearest candidate v w) : Nearest candidate' v w := by
  refine ⟨hw, fun u hu => ?_⟩
  obtain ⟨u', hu', hbetween⟩ := hbetween u hu
  exact (h.2 u' hu').trans hbetween.abs_sub_le

/-- The number that is picked stays so among other candidates, if it is one of them and the old
candidates come between them and `v`. -/
theorem Picks.of_between (h : mode.Picks candidate even v w) :
    mode.Picks candidate' even v w := by
  -- a candidate as near as `w` was one before
  have htie : Nearest candidate v w → ∀ u, candidate' u → |u - v| = |w - v| → candidate u := by
    intro hnearest u hu heq
    obtain ⟨u', hu', hbetween⟩ := hbetween u hu
    have hle := hnearest.2 u' hu'
    rw [← heq] at hle
    rwa [← hbetween.eq_of_abs_sub_eq (le_antisymm hbetween.abs_sub_le hle)]
  unfold Picks at h ⊢
  cases mode with
  | towardZero =>
    dsimp only at h ⊢
    split_ifs at h ⊢
    · exact Above.of_between hw hbetween h
    · exact Below.of_between hw hbetween h
  | awayFromZero =>
    dsimp only at h ⊢
    split_ifs at h ⊢
    · exact Below.of_between hw hbetween h
    · exact Above.of_between hw hbetween h
  | towardPositive => exact Above.of_between hw hbetween h
  | towardNegative => exact Below.of_between hw hbetween h
  | tiesAway =>
    obtain ⟨hnearest, haway⟩ := h
    exact ⟨.of_between hw hbetween hnearest,
      fun u hu heq => haway u (htie hnearest u hu heq) heq⟩
  | tiesEven =>
    obtain ⟨hnearest, hparity⟩ := h
    exact ⟨.of_between hw hbetween hnearest,
      fun u hu heq => hparity u (htie hnearest u hu heq) heq⟩

end Between

theorem Picks.imp (h : mode.Picks candidate even v w) (heven : even w → even' w) :
    mode.Picks candidate even' v w := by
  cases mode with
  | tiesEven => exact ⟨h.1, fun u hu heq => (h.2 u hu heq).imp_right heven⟩
  | towardZero | awayFromZero | towardPositive | towardNegative | tiesAway => exact h

/-! ## Nearest integers -/

section Integers

variable {m n : ℤ} {q : ℚ}

/-- An integer within a half of a number is a nearest one. -/
theorem abs_sub_le_of_half (h : |n - q| ≤ 1 / 2) (m : ℤ) : |n - q| ≤ |m - q| := by
  rcases eq_or_ne m n with rfl | hne
  · exact le_rfl
  · have hdist : (1 : ℚ) ≤ |(m : ℚ) - n| := by exact_mod_cast Int.one_le_abs (sub_ne_zero.2 hne)
    have hsplit := abs_sub_le (m : ℚ) q n
    rw [abs_sub_comm q n] at hsplit
    linarith

/-- A number with two nearest integers is halfway between them. -/
theorem half_of_tie (h : |n - q| ≤ 1 / 2) (hne : m ≠ n) (htie : |m - q| = |n - q|) :
    m = n + 1 ∧ q = n + 1 / 2 ∨ n = m + 1 ∧ q = m + 1 / 2 := by
  have hmiddle : (m : ℚ) + n = 2 * q := by
    rcases abs_eq_abs.1 htie with heq | heq
    · exact absurd (by exact_mod_cast sub_left_injective heq) hne
    · linarith
  have hdist : |(m : ℚ) - n| ≤ 1 := by
    refine (abs_sub_le (m : ℚ) q n).trans ?_
    rw [abs_sub_comm q n]
    linarith
  have hone := abs_le.1 (show |m - n| ≤ 1 by exact_mod_cast hdist)
  rcases lt_or_gt_of_ne hne with hlt | hgt
  · obtain rfl : n = m + 1 := by omega
    push_cast at hmiddle
    exact .inr ⟨rfl, by linarith⟩
  · obtain rfl : m = n + 1 := by omega
    push_cast at hmiddle
    exact .inl ⟨rfl, by linarith⟩

/-- Halfway between two integers, the even one. -/
theorem two_dvd_roundEven_of_tie (hne : m ≠ Binary64.roundEven q)
    (htie : |m - q| = |Binary64.roundEven q - q|) : (2 : ℤ) ∣ Binary64.roundEven q := by
  have hhalf : ∃ k : ℤ, q = k + 1 / 2 := by
    rcases half_of_tie (Binary64.abs_roundEven_sub_le_half q) hne htie with ⟨-, hq⟩ | ⟨-, hq⟩
    · exact ⟨_, hq⟩
    · exact ⟨_, hq⟩
  obtain ⟨k, rfl⟩ := hhalf
  have hfract : Int.fract (1 / 2 : ℚ) = 1 / 2 := by norm_num
  unfold Binary64.roundEven
  rw [Int.fract_intCast_add, hfract, if_neg (lt_irrefl _), if_pos rfl]
  omega

theorem abs_le_round_of_tie (hq : 0 ≤ q) (htie : |m - q| = |round q - q|) : |m| ≤ |round q| := by
  rcases eq_or_ne m (round q) with rfl | hne
  · exact le_rfl
  have hround : |(round q : ℚ) - q| ≤ 1 / 2 := by
    rw [abs_sub_comm]
    exact abs_sub_round q
  rcases half_of_tie hround hne htie with ⟨-, hhalf⟩ | ⟨hnext, hhalf⟩
  · -- the half above an integer is not rounded down
    have hup : round q = round q + 1 := by
      conv_lhs => rw [hhalf, round_eq, add_assoc, add_halves, Int.floor_intCast_add, Int.floor_one]
    omega
  · have hm : (-1 : ℚ) < m := by linarith
    have hm : -1 < m := by exact_mod_cast hm
    rw [hnext, abs_of_nonneg (by omega), abs_of_nonneg (by omega)]
    omega

/-- Halfway between two integers, the one farther from zero. -/
theorem abs_le_of_tie (htie : |m - q| = |tiesAway.integer q - q|) : |m| ≤ |tiesAway.integer q| := by
  rcases le_or_gt 0 q with hq | hq
  · have hinteger : tiesAway.integer q = round q := if_neg (not_lt.2 hq)
    rw [hinteger] at htie ⊢
    exact abs_le_round_of_tie hq htie
  · have hinteger : tiesAway.integer q = -round (-q) := if_pos hq
    have habs : ∀ k : ℤ, |(k : ℚ) - -q| = |((-k : ℤ) : ℚ) - q| := fun k => by
      rw [← abs_neg]
      congr 1
      push_cast
      ring
    rw [hinteger] at htie ⊢
    rw [abs_neg, ← abs_neg m]
    exact abs_le_round_of_tie (by linarith) (by rw [habs, habs, neg_neg, htie])

end Integers

/-! ## Multiples of a unit -/

section Multiples

variable (hunit : 0 < unit)
include hunit

theorem below_floor (v : ℚ) : Below (Multiple unit) v (⌊v / unit⌋ * unit) := by
  refine ⟨⟨⟨_, rfl⟩, (le_div_iff₀ hunit).1 (Int.floor_le _)⟩, ?_⟩
  rintro u ⟨⟨n, rfl⟩, hle⟩
  have hfloor : n ≤ ⌊v / unit⌋ := Int.le_floor.2 ((le_div_iff₀ hunit).2 hle)
  exact mul_le_mul_of_nonneg_right (by exact_mod_cast hfloor) hunit.le

theorem above_ceil (v : ℚ) : Above (Multiple unit) v (⌈v / unit⌉ * unit) := by
  refine ⟨⟨⟨_, rfl⟩, (div_le_iff₀ hunit).1 (Int.le_ceil _)⟩, ?_⟩
  rintro u ⟨⟨n, rfl⟩, hle⟩
  have hceil : ⌈v / unit⌉ ≤ n := Int.ceil_le.2 ((div_le_iff₀ hunit).2 hle)
  exact mul_le_mul_of_nonneg_right (by exact_mod_cast hceil) hunit.le

theorem abs_mul_sub (n : ℤ) (v : ℚ) : |n * unit - v| = |n - v / unit| * unit := by
  conv_rhs => rw [← abs_of_pos hunit, ← abs_mul, sub_mul, abs_of_pos hunit]
  rw [div_mul_cancel₀ v hunit.ne']

theorem abs_mul_sub_eq_iff {m n : ℤ} :
    |m * unit - v| = |n * unit - v| ↔ |m - v / unit| = |n - v / unit| := by
  rw [abs_mul_sub hunit, abs_mul_sub hunit]
  exact mul_left_inj' hunit.ne'

theorem nearest_of_half {n : ℤ} (h : |n - v / unit| ≤ 1 / 2) :
    Nearest (Multiple unit) v (n * unit) := by
  refine ⟨⟨n, rfl⟩, ?_⟩
  rintro u ⟨m, rfl⟩
  rw [abs_mul_sub hunit, abs_mul_sub hunit]
  exact mul_le_mul_of_nonneg_right (abs_sub_le_of_half h m) hunit.le

theorem multiple_two_mul_iff {m : ℤ} : Multiple (2 * unit) (m * unit) ↔ 2 ∣ m := by
  refine exists_congr fun k => ?_
  rw [← mul_assoc, mul_left_inj' hunit.ne', mul_comm]
  exact_mod_cast Iff.rfl

/-- Among the multiples of a unit, a mode picks the rounded quotient times the unit. -/
theorem picks_multiple (mode : RoundingMode) (v : ℚ) :
    mode.Picks (Multiple unit) (Multiple (2 * unit)) v (mode.integer (v / unit) * unit) := by
  have hsign : v / unit < 0 ↔ v < 0 := by rw [div_lt_iff₀ hunit, zero_mul]
  unfold Picks
  cases mode with
  | towardZero =>
    simp only [integer, hsign]
    split_ifs
    · exact above_ceil hunit v
    · exact below_floor hunit v
  | awayFromZero =>
    simp only [integer, hsign]
    split_ifs
    · exact below_floor hunit v
    · exact above_ceil hunit v
  | towardPositive => exact above_ceil hunit v
  | towardNegative => exact below_floor hunit v
  | tiesAway =>
    refine ⟨nearest_of_half hunit (abs_integer_tiesAway_sub_le _), ?_⟩
    rintro u ⟨m, rfl⟩ htie
    have hle : |(m : ℚ)| ≤ |(tiesAway.integer (v / unit) : ℚ)| := by
      exact_mod_cast abs_le_of_tie ((abs_mul_sub_eq_iff hunit).1 htie)
    rw [abs_mul, abs_mul]
    exact mul_le_mul_of_nonneg_right hle (abs_nonneg unit)
  | tiesEven =>
    refine ⟨nearest_of_half hunit (Binary64.abs_roundEven_sub_le_half _), ?_⟩
    rintro u ⟨m, rfl⟩ htie
    rcases eq_or_ne m (Binary64.roundEven (v / unit)) with rfl | hne
    · exact .inl rfl
    · have heven := two_dvd_roundEven_of_tie hne ((abs_mul_sub_eq_iff hunit).1 htie)
      exact .inr ((multiple_two_mul_iff hunit).2 heven)

/-- Two nearest multiples are neighbours: their sizes differ, and one of them is odd. -/
theorem eq_of_ties {m n : ℤ} (hhalf : |n - v / unit| ≤ 1 / 2)
    (htie : |m * unit - v| = |n * unit - v|) (hchoice : |m| = |n| ∨ 2 ∣ m ∧ 2 ∣ n) : m = n := by
  by_contra hne
  have hneighbours : m = n + 1 ∨ n = m + 1 :=
    (half_of_tie hhalf hne ((abs_mul_sub_eq_iff hunit).1 htie)).imp And.left And.left
  rcases hchoice with habs | ⟨hm, hn⟩
  · rcases abs_eq_abs.1 habs with heq | heq <;> omega
  · omega

/-- A mode picks one multiple of a unit only. -/
theorem picks_multiple_iff : mode.Picks (Multiple unit) (Multiple (2 * unit)) v w ↔
    w = mode.integer (v / unit) * unit := by
  refine ⟨fun h => ?_, fun h => h ▸ picks_multiple hunit mode v⟩
  have hself := picks_multiple hunit mode v
  cases mode with
  | towardZero =>
    unfold Picks at h hself
    dsimp only at h hself
    split_ifs at h hself
    · exact IsLeast.unique h hself
    · exact IsGreatest.unique h hself
  | awayFromZero =>
    unfold Picks at h hself
    dsimp only at h hself
    split_ifs at h hself
    · exact IsGreatest.unique h hself
    · exact IsLeast.unique h hself
  | towardPositive => exact IsLeast.unique h hself
  | towardNegative => exact IsGreatest.unique h hself
  | tiesAway =>
    obtain ⟨⟨⟨m, rfl⟩, hnearest⟩, haway⟩ := h
    have htie := le_antisymm (hnearest _ hself.1.1) (hself.1.2 _ ⟨m, rfl⟩)
    have hle := haway _ hself.1.1 htie.symm
    have hge := hself.2 _ ⟨m, rfl⟩ htie
    have habs := le_antisymm hge hle
    rw [abs_mul, abs_mul, mul_left_inj' (abs_pos.2 hunit.ne').ne'] at habs
    rw [eq_of_ties hunit (abs_integer_tiesAway_sub_le _) htie (.inl (by exact_mod_cast habs))]
  | tiesEven =>
    obtain ⟨⟨⟨m, rfl⟩, hnearest⟩, heven⟩ := h
    have htie := le_antisymm (hnearest _ hself.1.1) (hself.1.2 _ ⟨m, rfl⟩)
    rcases heven _ hself.1.1 htie.symm with heq | hm
    · exact heq.symm
    rcases hself.2 _ ⟨m, rfl⟩ htie with heq | hn
    · exact heq
    rw [multiple_two_mul_iff hunit] at hm hn
    rw [eq_of_ties hunit (Binary64.abs_roundEven_sub_le_half _) htie (.inr ⟨hm, hn⟩)]
    rfl

theorem integer_div_mul (mode : RoundingMode) (hv : Multiple unit v) :
    mode.integer (v / unit) * unit = v := by
  obtain ⟨n, rfl⟩ := hv
  rw [mul_div_cancel_right₀ _ hunit.ne', integer_intCast]

end Multiples

end RoundingMode
end ExactSphere
