import ExactSphere.Proofs.Binary64.Bits
import ExactSphere.Proofs.Binary64.Literals
import ExactSphere.Proofs.Binary64.Overflow

/-!
# Scaling by powers of two

The products that `scale` takes are exact until they overflow, and an overflow is not undone by the
next product (`datum_scale`).
-/

namespace ExactSphere.Binary64

variable {x : Float} {a : ℚ} {n : ℕ} {k f : ℤ}

/-! ## Representable products -/

theorem Representable.mul_zpow (h : Representable a) (hk : 0 ≤ k) : Representable (a * 2 ^ k) := by
  obtain ⟨e, he, hgrid, hle⟩ := h
  refine ⟨e + k, by omega, hgrid.mul (.zpow k), ?_⟩
  have hpos : (0 : ℚ) < 2 ^ k := zpow_pos two_pos k
  rw [abs_mul, abs_of_pos hpos, add_right_comm, zpow_add₀ two_ne_zero (e + 53)]
  exact mul_le_mul_of_nonneg_right hle (zpow_nonneg two_pos.le k)

theorem representable_natCast_mul_zpow (hn : n < 2 ^ 53) (hf : -1074 ≤ f) :
    Representable (n * 2 ^ f) := by
  refine ⟨f, hf, ⟨n, by simp⟩, ?_⟩
  have hle : (n : ℚ) ≤ 2 ^ (53 : ℤ) := by exact_mod_cast hn.le
  rw [abs_of_nonneg (by positivity), add_comm, zpow_add₀ two_ne_zero]
  exact mul_le_mul_of_nonneg_right hle (zpow_nonneg two_pos.le f)

/-! ## Products with powers of two -/

theorem datum_powerOfTwo (hmin : -1022 ≤ k) (hmax : k ≤ 1023) :
    datum (powerOfTwo k) = .number (2 ^ k) := by
  have hdatum := @datum_ofBits_of_normal false (2 ^ 52) (k - 52) le_rfl (by norm_num) (by omega)
    (by omega)
  have hbits : (1023 + k).toNat <<< 52 = (k - 52 + 1074).toNat * 2 ^ 52 + 2 ^ 52 := by
    rw [Nat.shiftLeft_eq]
    omega
  have hvalue : (signedInt false (2 ^ 52) : ℚ) * 2 ^ (k - 52) = 2 ^ k := by
    rw [signedInt, if_neg Bool.false_ne_true, zpow_sub₀ two_ne_zero]
    norm_num
    exact mul_div_cancel₀ _ (by norm_num)
  rw [if_neg Bool.false_ne_true, Nat.zero_add, hvalue] at hdatum
  rw [powerOfTwo, hbits, hdatum]

/-- A product that is representable is not rounded. -/
theorem datum_mul_powerOfTwo (h : datum x = .number a) (hmin : -1022 ≤ k) (hmax : k ≤ 1023)
    (hproduct : Representable (a * 2 ^ k)) : datum (x * powerOfTwo k) = .clip (a * 2 ^ k) := by
  rw [datum_mul, h, datum_powerOfTwo hmin hmax, Datum.mul_number, Datum.round_eq_clip hproduct]

/-- Scaling upwards may overflow, and stays there. -/
theorem datum_mul_powerOfTwo_of_nonneg (h : datum x = .clip a) (ha : Representable a)
    (hpos : 0 < a) (hmin : 0 ≤ k) (hmax : k ≤ 1023) :
    datum (x * powerOfTwo k) = .clip (a * 2 ^ k) := by
  rcases lt_or_ge a (2 ^ (1024 : ℤ)) with hlt | hle
  · rw [Datum.clip_of_lt (by rwa [abs_of_pos hpos])] at h
    exact datum_mul_powerOfTwo h (by omega) hmax (ha.mul_zpow hmin)
  · have hproduct : 2 ^ (1024 : ℤ) ≤ a * 2 ^ k :=
      hle.trans (le_mul_of_one_le_right hpos.le (one_le_zpow₀ one_le_two hmin))
    rw [datum_mul, h, datum_powerOfTwo (by omega) hmax, Datum.clip_of_nonneg_of_le hle,
      Datum.clip_of_nonneg_of_le hproduct, Datum.mul_comm,
      Datum.number_mul_infinity (zpow_pos two_pos k)]

/-! ## Scaling -/

theorem datum_scale_of_large (hx : datum x = .number a) (ha : Representable a) (hone : 1 ≤ a)
    (hlt : a < 2 ^ (1024 : ℤ)) (hf : 1023 < f) : datum (scale x f) = .clip (a * 2 ^ f) := by
  have hpos : 0 < a := one_pos.trans_le hone
  have hclip : datum x = .clip a := hx.trans (Datum.clip_of_lt (by rwa [abs_of_pos hpos])).symm
  have hfirst := datum_mul_powerOfTwo_of_nonneg hclip ha hpos (k := 1023) (by norm_num) le_rfl
  have hfirstGrid := ha.mul_zpow (k := 1023) (by norm_num)
  unfold scale
  rw [if_pos hf]
  dsimp only
  split_ifs with hnear
  · rw [datum_mul_powerOfTwo_of_nonneg hfirst hfirstGrid (by positivity) (by omega) hnear,
      mul_assoc, ← zpow_add₀ two_ne_zero, add_sub_cancel]
  · have hsecond := datum_mul_powerOfTwo_of_nonneg hfirst hfirstGrid (by positivity) (k := 1023)
      (by norm_num) le_rfl
    have hlarge : ∀ {j : ℤ}, 1024 ≤ j → 2 ^ (1024 : ℤ) ≤ a * 2 ^ j := fun hj =>
      (zpow_le_zpow_right₀ one_le_two hj).trans
        (le_mul_of_one_le_left (zpow_nonneg two_pos.le _) hone)
    rw [datum_mul_powerOfTwo_of_nonneg hsecond (hfirstGrid.mul_zpow (by norm_num)) (by positivity)
      (by omega) (min_le_right _ _), Datum.clip_of_nonneg_of_le (hlarge (by omega)), mul_assoc,
      mul_assoc, ← zpow_add₀ two_ne_zero, ← zpow_add₀ two_ne_zero,
      Datum.clip_of_nonneg_of_le (hlarge (by omega))]

theorem datum_scale_of_small (hx : datum x = .number a) (ha : Representable (a * 2 ^ (-969 : ℤ)))
    (hlt : |a * 2 ^ (-969 : ℤ)| < 2 ^ (1024 : ℤ)) (hmin : -1074 ≤ f) (hf : f < -1022)
    (hproduct : Representable (a * 2 ^ f)) : datum (scale x f) = .clip (a * 2 ^ f) := by
  have hstep : datum (powerOfTwo (-1022) * powerOfTwo 53) = .number (2 ^ (-969 : ℤ)) := by
    have hsum : (2 : ℚ) ^ (-1022 : ℤ) * 2 ^ (53 : ℤ) = 2 ^ (-969 : ℤ) :=
      (zpow_add₀ two_ne_zero _ _).symm
    have hsmall : |(2 : ℚ) ^ (-969 : ℤ)| < 2 ^ (1024 : ℤ) := by
      rw [abs_of_pos (by positivity)]
      exact zpow_lt_zpow_right₀ one_lt_two (by norm_num)
    have hexact : Representable ((2 : ℚ) ^ (-1022 : ℤ) * 2 ^ (53 : ℤ)) :=
      (Representable.zpow (by norm_num)).mul_zpow (by norm_num)
    rw [datum_mul_powerOfTwo (datum_powerOfTwo le_rfl (by norm_num)) (by norm_num) (by norm_num)
      hexact, hsum, Datum.clip_of_lt hsmall]
  have hfirst : datum (x * (powerOfTwo (-1022) * powerOfTwo 53)) =
      .number (a * 2 ^ (-969 : ℤ)) := by
    rw [datum_mul, hx, hstep, Datum.mul_number, Datum.round_eq_clip ha, Datum.clip_of_lt hlt]
  have hsplit : a * 2 ^ (-969 : ℤ) * 2 ^ (f + 969) = a * 2 ^ f := by
    rw [mul_assoc, ← zpow_add₀ two_ne_zero, show -969 + (f + 969) = f by ring]
  unfold scale
  rw [if_neg (by omega), if_pos hf]
  dsimp only
  rw [if_pos (by omega), datum_mul_powerOfTwo hfirst (by omega) (by omega) (hsplit ▸ hproduct),
    hsplit]

/-- A mantissa is scaled without an error, up to overflow. -/
theorem datum_scale (hn : n ≠ 0) (hbits : n < 2 ^ 53) (hf : -1074 ≤ f) :
    datum (scale (.ofNat n) f) = .clip (n * 2 ^ f) := by
  have hx := datum_ofNat hbits
  have hone : (1 : ℚ) ≤ n := by exact_mod_cast Nat.pos_of_ne_zero hn
  have hrepresentable : ∀ {k : ℤ}, -1074 ≤ k → Representable ((n : ℚ) * 2 ^ k) := fun hk =>
    representable_natCast_mul_zpow hbits hk
  have hsmall : ∀ {k : ℤ}, k ≤ 971 → |(n : ℚ) * 2 ^ k| < 2 ^ (1024 : ℤ) := by
    intro k hk
    have hn' : (n : ℚ) < 2 ^ (53 : ℤ) := by exact_mod_cast hbits
    rw [abs_of_pos (by positivity)]
    calc (n : ℚ) * 2 ^ k < 2 ^ (53 : ℤ) * 2 ^ k := mul_lt_mul_of_pos_right hn' (by positivity)
      _ = 2 ^ (53 + k) := (zpow_add₀ two_ne_zero _ _).symm
      _ ≤ 2 ^ (1024 : ℤ) := zpow_le_zpow_right₀ one_le_two (by omega)
  have hzero : Representable (n : ℚ) := by simpa using hrepresentable (k := 0) (by norm_num)
  have hlt : (n : ℚ) < 2 ^ (1024 : ℤ) := by
    simpa using (le_abs_self _).trans_lt (hsmall (k := 0) (by norm_num))
  by_cases hlarge : 1023 < f
  · exact datum_scale_of_large hx hzero hone hlt hlarge
  · by_cases hlow : f < -1022
    · exact datum_scale_of_small hx (hrepresentable (by norm_num)) (hsmall (by norm_num)) hf hlow
        (hrepresentable hf)
    · rw [scale, if_neg hlarge, if_neg hlow,
        datum_mul_powerOfTwo hx (by omega) (by omega) (hrepresentable hf)]

end ExactSphere.Binary64
