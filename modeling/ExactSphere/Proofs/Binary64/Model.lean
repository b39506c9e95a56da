import ExactSphere.Proofs.Binary64.Datum

/-!
# The built-in arithmetic of doubles rounds to nearest

The logical model of `Float` shifts mantissas and keeps a round bit and a sticky bit. Here the
model is read as rational arithmetic: the bits are those of the exact quotient (`extended`), so a
shift followed by the model's rounding is `roundEven`, and the rounded results are packed without
loss or overflow to infinity (`ofUnpacked_unpack_pack`).
-/

namespace ExactSphere.Binary64

open Float.Model (UnpackedFloat Format totalExponent)
open Float.Model.UnpackedFloat hiding Sign

/-- The meaning of an unpacked double. -/
def Datum.ofUnpacked : UnpackedFloat → Datum
  | .notANumber => .nan
  | .infinity s => .infinity (s matches .negative)
  | .zero _ => .number 0
  | .finite s m e _ => .number (s.apply m * 2 ^ e)

/-! ## Mantissas with a round bit and a sticky bit -/

/-- The mantissa, round bit and sticky bit of an exact quotient. -/
def extended (x : ℚ) : ExtendedMantissa where
  mantissa := ⌊x⌋₊
  roundBit := 1 / 2 ≤ Int.fract x
  stickyBit := Int.fract x ≠ 0 ∧ Int.fract x ≠ 1 / 2

theorem extended_natCast (m : ℕ) : extended m = .ofMantissaAndAccuracy m .exact := by
  simp [extended, ExtendedMantissa.ofMantissaAndAccuracy]

theorem fract_half (x : ℚ) : Int.fract (x / 2) = ((⌊x⌋ % 2 : ℤ) + Int.fract x) / 2 := by
  have hfloor : ⌊x / 2⌋ = ⌊x⌋ / 2 := by
    have := Int.floor_div_natCast x 2
    push_cast at this
    exact this
  have hdiv : (⌊x⌋ : ℚ) = 2 * (⌊x⌋ / 2 : ℤ) + (⌊x⌋ % 2 : ℤ) := by
    exact_mod_cast (Int.mul_ediv_add_emod ⌊x⌋ 2).symm
  rw [Int.fract, Int.fract, hfloor]
  linarith

theorem shiftRightOne_extended {x : ℚ} (h : 0 ≤ x) :
    (extended x).shiftRightOne = extended (x / 2) := by
  have hfloor : (⌊x⌋₊ : ℤ) = ⌊x⌋ := Int.natCast_floor_eq_floor h
  have hfract := fract_half x
  have hnonneg := Int.fract_nonneg x
  have hlt := Int.fract_lt_one x
  simp only [ExtendedMantissa.shiftRightOne, extended, ExtendedMantissa.mk.injEq]
  refine ⟨(Nat.floor_div_ofNat x 2).symm, ?_, ?_⟩
  · rw [Bool.eq_iff_iff, bne_iff_ne, decide_eq_true_iff, hfract]
    rcases Int.emod_two_eq_zero_or_one ⌊x⌋ with hodd | hodd <;> rw [hodd]
    · refine ⟨fun hne => by omega, ?_⟩
      intro hle
      push_cast at hle
      linarith
    · refine ⟨?_, fun _ => by omega⟩
      intro _
      push_cast
      linarith
  · rw [Bool.eq_iff_iff, Bool.or_eq_true, decide_eq_true_iff, decide_eq_true_iff,
      decide_eq_true_iff, hfract]
    rcases Int.emod_two_eq_zero_or_one ⌊x⌋ with hodd | hodd <;> rw [hodd] <;> push_cast <;> grind

theorem shiftRight_extended {x : ℚ} (h : 0 ≤ x) (k : ℕ) :
    extended x >>> k = extended (x / 2 ^ k) := by
  change k.repeat ExtendedMantissa.shiftRightOne (extended x) = _
  induction k with
  | zero => simp [Nat.repeat]
  | succ k ih =>
    rw [Nat.repeat, ih, shiftRightOne_extended (by positivity), div_div, ← pow_succ]

/-- The model's rule for the two bits is rounding to nearest, ties to even. -/
theorem roundedMantissa_extended {x : ℚ} (h : 0 ≤ x) :
    ((extended x).roundedMantissa : ℤ) = roundEven x := by
  have hfloor : (⌊x⌋₊ : ℤ) = ⌊x⌋ := Int.natCast_floor_eq_floor h
  unfold roundEven
  rcases lt_trichotomy (Int.fract x) (1 / 2) with hlt | heq | hgt
  · have hround : decide (1 / 2 ≤ Int.fract x) = false := decide_eq_false (not_le.2 hlt)
    rw [if_pos hlt, ← hfloor]
    simp only [ExtendedMantissa.roundedMantissa, extended, hround]
    rcases decide (Int.fract x ≠ 0 ∧ Int.fract x ≠ 1 / 2) with _ | _ <;> rfl
  · have hround : decide (1 / 2 ≤ Int.fract x) = true := decide_eq_true heq.ge
    have hsticky : decide (Int.fract x ≠ 0 ∧ Int.fract x ≠ 1 / 2) = false := by simp [heq]
    rw [if_neg heq.not_lt, if_pos heq, ← hfloor]
    simp only [ExtendedMantissa.roundedMantissa, extended, hround, hsticky]
    rfl
  · have hround : decide (1 / 2 ≤ Int.fract x) = true := decide_eq_true hgt.le
    have hsticky : decide (Int.fract x ≠ 0 ∧ Int.fract x ≠ 1 / 2) = true :=
      decide_eq_true ⟨(one_half_pos.trans hgt).ne', hgt.ne'⟩
    rw [if_neg hgt.not_gt, if_neg hgt.ne', ← hfloor]
    simp only [ExtendedMantissa.roundedMantissa, extended, hround, hsticky]
    rfl

/-! ## Rounding -/

/-- The unpacked doubles whose mantissa is as long as the exponent allows. -/
def Canonical : UnpackedFloat → Prop
  | .finite _ m e _ => m < 2 ^ 53 ∧ -1074 ≤ e ∧ (2 ^ 52 ≤ m ∨ e = -1074)
  | _ => True

theorem log_natCast_mul_zpow {m : ℕ} (hm : 0 < m) (e : ℤ) :
    Int.log 2 ((m : ℚ) * 2 ^ e) = m.log2 + e := by
  have hlow : (2 : ℚ) ^ (m.log2 + e : ℤ) ≤ m * 2 ^ e := by
    rw [zpow_add₀ two_ne_zero, zpow_natCast]
    exact mul_le_mul_of_nonneg_right (by exact_mod_cast Nat.log2_self_le hm.ne') (by positivity)
  have hhigh : (m : ℚ) * 2 ^ e < 2 ^ (m.log2 + e + 1 : ℤ) := by
    rw [show (m.log2 + e + 1 : ℤ) = (m.log2 + 1 : ℕ) + e by push_cast; ring,
      zpow_add₀ two_ne_zero, zpow_natCast]
    exact mul_lt_mul_of_pos_right (by exact_mod_cast Nat.lt_log2_self) (by positivity)
  have hpos : (0 : ℚ) < m * 2 ^ e := by positivity
  refine le_antisymm ?_ ?_
  · have := (Int.lt_zpow_iff_log_lt one_lt_two hpos).1 (by exact_mod_cast hhigh)
    omega
  · exact (Int.zpow_le_iff_le_log one_lt_two hpos).1 (by exact_mod_cast hlow)

theorem targetExponent_eq {m : ℕ} (hm : 0 < m) (e : ℤ) :
    Format.binary64.targetExponent (totalExponent m e) = ulpExponent (m * 2 ^ e) := by
  have hpos : (0 : ℚ) < m * 2 ^ e := by positivity
  rw [ulpExponent_of_ne_zero hpos.ne', abs_of_pos hpos, log_natCast_mul_zpow hm]
  simp only [Format.targetExponent, totalExponent, Format.mantissaBits, Format.minExponent]
  norm_num
  omega

/-- Shifting to the last place of a double, then rounding. -/
theorem shiftToExponent_eq {m : ℕ} {e t : ℤ} (he : e ≤ t) :
    shiftToExponent m e .exact t = (extended (m * 2 ^ e / 2 ^ t), t) := by
  have hshift : e + ((t - e).toNat : ℤ) = t := by omega
  have hquotient : (m : ℚ) / 2 ^ (t - e).toNat = m * 2 ^ e / 2 ^ t := by
    rw [div_eq_div_iff (by positivity) (by positivity), mul_assoc, ← zpow_natCast,
      ← zpow_add₀ two_ne_zero, hshift]
  simp only [shiftToExponent, hshift]
  rw [← extended_natCast, shiftRight_extended (by positivity), hquotient]

theorem shiftToExponent_of_le {m : ℕ} {e t : ℤ} (h : t ≤ e) :
    shiftToExponent m e .exact t = (.ofMantissaAndAccuracy m .exact, e) := by
  have hshift : (t - e).toNat = 0 := by omega
  simp only [shiftToExponent, hshift, Nat.cast_zero, add_zero]
  rfl

/-- The second shift of a rounding only undoes a carry into a 54th bit. -/
theorem shiftToTargetExponent_rounded {r : ℕ} {t : ℤ} (hr : r ≤ 2 ^ 53) (ht : -1074 ≤ t) :
    shiftToTargetExponent .binary64 r t .exact =
      if r < 2 ^ 53 then (.ofMantissaAndAccuracy r .exact, t)
      else (.ofMantissaAndAccuracy (2 ^ 52) .exact, t + 1) := by
  unfold shiftToTargetExponent
  split_ifs with hlt
  · refine shiftToExponent_of_le ?_
    rcases Nat.eq_zero_or_pos r with rfl | hpos
    · simp only [Format.targetExponent, totalExponent, Format.mantissaBits, Format.minExponent]
      norm_num
      omega
    · rw [targetExponent_eq hpos]
      refine ulpExponent_le ht ?_
      rw [abs_of_nonneg (by positivity), zpow_add₀ two_ne_zero, mul_comm]
      exact mul_lt_mul_of_pos_left (by exact_mod_cast hlt) (by positivity)
  · obtain rfl : r = 2 ^ 53 := by omega
    have htarget : Format.binary64.targetExponent (totalExponent (2 ^ 53) t) = t + 1 := by
      simp only [Format.targetExponent, totalExponent, Nat.log2_two_pow, Format.mantissaBits,
        Format.minExponent]
      norm_num
      omega
    rw [htarget, shiftToExponent_eq (by omega), ← extended_natCast]
    congr 2
    rw [zpow_add₀ two_ne_zero]
    push_cast
    field_simp
    norm_num

/-- The unpacked double of a mantissa that may be zero. -/
def ofMantissa (s : UnpackedFloat.Sign) (m : ℕ) (e : ℤ) : UnpackedFloat :=
  if h : m = 0 then .zero s else .finite s m e (Nat.pos_of_ne_zero h)

theorem canonical_ofMantissa {s : UnpackedFloat.Sign} {m : ℕ} {e : ℤ}
    (hm : m < 2 ^ 53) (he : -1074 ≤ e) (hfull : 2 ^ 52 ≤ m ∨ e = -1074) :
    Canonical (ofMantissa s m e) := by
  unfold ofMantissa
  split
  · trivial
  · exact ⟨hm, he, hfull⟩

theorem ofUnpacked_ofMantissa (s : UnpackedFloat.Sign) (m : ℕ) (e : ℤ) :
    Datum.ofUnpacked (ofMantissa s m e) = .number (s.apply m * 2 ^ e) := by
  unfold ofMantissa
  split
  next h => cases s <;> simp [Datum.ofUnpacked, UnpackedFloat.Sign.apply, h]
  next => rfl

theorem roundWithAccuracy_of_shifts {s : UnpackedFloat.Sign} {m : ℕ}
    {e e₁ e₂ : ℤ} {em₁ em₂ : ExtendedMantissa}
    (h₁ : shiftToTargetExponent .binary64 m e .exact = (em₁, e₁))
    (h₂ : shiftToTargetExponent .binary64 em₁.roundedMantissa e₁ .exact = (em₂, e₂)) :
    roundWithAccuracy .binary64 s m e .exact = ofMantissa s em₂.mantissa e₂ := by
  unfold roundWithAccuracy
  rw [h₁]
  dsimp only
  rw [h₂]
  rfl

/-- Rounding an unpacked double is rounding its value. -/
theorem roundWithAccuracy_eq (s : UnpackedFloat.Sign) {m : ℕ} (hm : 0 < m) {e : ℤ}
    (he : e ≤ ulpExponent (m * 2 ^ e)) :
    Canonical (roundWithAccuracy .binary64 s m e .exact) ∧
      Datum.ofUnpacked (roundWithAccuracy .binary64 s m e .exact) =
        .number (nearest (s.apply m * 2 ^ e)) := by
  set x : ℚ := m * 2 ^ e with hx
  set t := ulpExponent x with ht
  set r := (extended (x / 2 ^ t)).roundedMantissa with hr
  have hxpos : 0 < x := by positivity
  have hround : (r : ℤ) = roundEven (x / 2 ^ t) := roundedMantissa_extended (by positivity)
  have hvalue : (r : ℚ) * 2 ^ t = nearest x := by
    rw [nearest, ← ht, ← hround, Int.cast_natCast]
  have hsigned : (s.apply r : ℚ) * 2 ^ t = nearest (s.apply m * 2 ^ e) := by
    cases s
    · simp only [UnpackedFloat.Sign.apply, Int.cast_neg, Int.cast_natCast, neg_mul,
        hvalue, ← hx, nearest_neg]
    · simp only [UnpackedFloat.Sign.apply, Int.cast_natCast, hvalue, ← hx]
  have hle : r ≤ 2 ^ 53 := by
    have := abs_roundEven_div_ulp_le x
    rw [← ht, ← hround, abs_of_nonneg (by omega)] at this
    exact_mod_cast this
  have hfull : 2 ^ 52 ≤ r ∨ t = -1074 := by
    rcases (min_le_ulpExponent x).eq_or_lt with h | h
    · exact .inr (ht.trans h.symm)
    · left
      have hbinade := zpow_ulpExponent_le h
      rw [abs_of_pos hxpos, ← ht, zpow_add₀ two_ne_zero, mul_comm,
        ← le_div_iff₀ (by positivity)] at hbinade
      have hfloor : 2 ^ 52 ≤ ⌊x / 2 ^ t⌋ := Int.le_floor.2 (by exact_mod_cast hbinade)
      have := hfloor.trans (floor_le_roundEven _)
      omega
  have hfirst : shiftToTargetExponent .binary64 m e .exact = (extended (x / 2 ^ t), t) := by
    rw [shiftToTargetExponent, targetExponent_eq hm, ← hx, ← ht, shiftToExponent_eq he]
  have hsecond := shiftToTargetExponent_rounded hle (min_le_ulpExponent x)
  rcases hle.lt_or_eq with hlt | heq
  · rw [if_pos hlt] at hsecond
    rw [roundWithAccuracy_of_shifts hfirst hsecond]
    refine ⟨canonical_ofMantissa hlt (min_le_ulpExponent x) hfull, ?_⟩
    rw [← hsigned]
    exact ofUnpacked_ofMantissa s r t
  · have hmin := min_le_ulpExponent x
    rw [if_neg heq.not_lt] at hsecond
    rw [roundWithAccuracy_of_shifts hfirst hsecond]
    refine ⟨canonical_ofMantissa (by norm_num [ExtendedMantissa.ofMantissaAndAccuracy])
      (by omega) (.inl le_rfl), (ofUnpacked_ofMantissa s (2 ^ 52) (t + 1)).trans ?_⟩
    rw [← hsigned, heq, zpow_add_one₀ two_ne_zero]
    cases s <;> simp only [UnpackedFloat.Sign.apply] <;> push_cast <;> ring_nf

/-! ## Packing -/

@[simp] theorem unpackSign_packComponents {spec : Format} {sign exponent mantissa} :
    unpackSign (packComponents spec sign exponent mantissa) = sign.toBitVec := by
  ext i hi
  obtain rfl : i = 0 := by omega
  simp [unpackSign, packComponents, BitVec.getLsbD_append, BitVec.getElem_append]

@[simp] theorem ofBitVec_toBitVec (s : UnpackedFloat.Sign) :
    UnpackedFloat.Sign.ofBitVec s.toBitVec = s := by
  cases s <;> rfl

theorem unpack_packedInfinity (s : UnpackedFloat.Sign) :
    unpack .binary64 (packedInfinity .binary64 s) = .infinity s := by
  cases s <;> rfl

theorem unpack_packedZero (s : UnpackedFloat.Sign) :
    unpack .binary64 (packedZero .binary64 s) = .zero s := by
  cases s <;> rfl

/-- A canonical double whose exponent fits is packed without loss. -/
theorem unpack_pack_finite (s : UnpackedFloat.Sign) {m : ℕ} {e : ℤ} (hm : 0 < m)
    (h : Canonical (.finite s m e hm)) (he : e ≤ 971) :
    unpack .binary64 (pack .binary64 (.finite s m e hm)) = .finite s m e hm := by
  obtain ⟨hlt, hmin, hfull⟩ := h
  obtain ⟨b, hb⟩ : ∃ b : ℕ, (b : ℤ) = e + 1075 := ⟨(e + 1075).toNat, by omega⟩
  have hbiased : (e + (Format.binary64.exponentBias : ℤ) +
      (Format.binary64.mantissaBitsWithoutImplicit : ℤ)).toNat = b := by
    simp only [Format.exponentBias]
    norm_num
    omega
  have hcapacity : ¬2 ^ Format.binary64.exponentBits ≤ b + 1 := by
    norm_num
    omega
  unfold pack
  simp only [hbiased]
  rw [if_neg hcapacity]
  by_cases hnormal : 2 ^ 52 ≤ m
  · have hlog : m.log2 = 52 := (Nat.log2_eq_iff hm.ne').2 ⟨hnormal, hlt⟩
    have hexp : (BitVec.ofNat 11 b).toNat = b := by
      rw [BitVec.toNat_ofNat, Nat.mod_eq_of_lt (by omega)]
    have hones : BitVec.ofNat 11 b ≠ -1#11 := fun h => by
      have := congrArg BitVec.toNat h
      rw [hexp] at this
      have : (-1#11).toNat = 2047 := rfl
      omega
    have hzero : BitVec.ofNat 11 b ≠ 0#11 := fun h => by
      have := congrArg BitVec.toNat h
      rw [hexp, BitVec.toNat_zero] at this
      omega
    have hmantissa : (1#1 ++ BitVec.ofNat 52 m).toNat = m := by
      rw [BitVec.toNat_append, ← Nat.shiftLeft_add_eq_or_of_lt (BitVec.isLt _), BitVec.toNat_ofNat,
        Nat.shiftLeft_eq, BitVec.toNat_ofNat]
      omega
    rw [if_pos (by rw [hlog]; rfl)]
    unfold unpack
    simp only [unpackMantissa_packComponents, unpackExponent_packComponents,
      unpackSign_packComponents, ofBitVec_toBitVec]
    rw [if_neg hones, if_neg hzero]
    simp only [hmantissa, hexp, finite.injEq, true_and, Format.exponentBias]
    norm_num
    omega
  · obtain rfl : e = -1074 := hfull.resolve_left hnormal
    have hlog : m.log2 + 1 ≠ Format.binary64.mantissaBits := by
      have : m.log2 < 52 := (Nat.log2_lt hm.ne').2 (by omega)
      simp only [Format.mantissaBits]
      omega
    have hmantissa : (BitVec.ofNat 52 m).toNat = m := by
      rw [BitVec.toNat_ofNat, Nat.mod_eq_of_lt (by omega)]
    have hne : BitVec.ofNat 52 m ≠ 0#52 := fun h => by
      have := congrArg BitVec.toNat h
      rw [hmantissa, BitVec.toNat_zero] at this
      omega
    rw [if_neg hlog]
    unfold unpack
    simp only [unpackMantissa_packComponents, unpackExponent_packComponents,
      unpackSign_packComponents, ofBitVec_toBitVec]
    rw [if_neg (by decide), if_pos trivial, dif_neg hne]
    simp only [hmantissa, finite.injEq, true_and, Format.exponentBias]
    norm_num

theorem Canonical.abs_value_lt_iff {s : UnpackedFloat.Sign} {m : ℕ} {e : ℤ}
    {hm : 0 < m} (h : Canonical (.finite s m e hm)) :
    |(s.apply m : ℚ) * 2 ^ e| < 2 ^ (1024 : ℤ) ↔ e ≤ 971 := by
  obtain ⟨hlt, hmin, hfull⟩ := h
  have habs : |(s.apply m : ℚ) * 2 ^ e| = m * 2 ^ e := by
    rw [abs_mul, abs_of_pos (by positivity : (0 : ℚ) < 2 ^ e)]
    cases s <;> simp [UnpackedFloat.Sign.apply]
  rw [habs]
  constructor
  · intro hvalue
    by_contra! he
    have hm : (2 : ℚ) ^ (52 : ℤ) ≤ m := by
      exact_mod_cast hfull.resolve_right (by omega)
    have hpow : (2 : ℚ) ^ (1024 : ℤ) ≤ 2 ^ (52 : ℤ) * 2 ^ e := by
      rw [← zpow_add₀ two_ne_zero]
      exact zpow_le_zpow_right₀ one_le_two (by omega)
    exact absurd (hpow.trans (mul_le_mul_of_nonneg_right hm (by positivity))) (not_le.2 hvalue)
  · intro he
    have hm : (m : ℚ) < 2 ^ (53 : ℤ) := by exact_mod_cast hlt
    have hpow : (2 : ℚ) ^ (53 : ℤ) * 2 ^ e ≤ 2 ^ (1024 : ℤ) := by
      rw [← zpow_add₀ two_ne_zero]
      exact zpow_le_zpow_right₀ one_le_two (by omega)
    exact (mul_lt_mul_of_pos_right hm (by positivity)).trans_le hpow

/-- Packing keeps the value, or overflows to infinity. -/
theorem ofUnpacked_unpack_pack {u : UnpackedFloat} (h : Canonical u) :
    Datum.ofUnpacked (unpack .binary64 (pack .binary64 u)) = (Datum.ofUnpacked u).clipped := by
  cases u with
  | notANumber => rfl
  | infinity s => rw [pack, unpack_packedInfinity]; rfl
  | zero s =>
    rw [pack, unpack_packedZero]
    simp [Datum.clipped, Datum.clip, Datum.ofUnpacked]
  | finite s m e hm =>
    rw [Datum.ofUnpacked, Datum.clipped, Datum.clip]
    by_cases he : e ≤ 971
    · rw [unpack_pack_finite s hm h he, if_pos (h.abs_value_lt_iff.2 he)]
      rfl
    · have hpack : pack .binary64 (.finite s m e hm) = packedInfinity .binary64 s := by
        have hbiased : 2 ^ Format.binary64.exponentBits ≤ (e +
            (Format.binary64.exponentBias : ℤ) +
            (Format.binary64.mantissaBitsWithoutImplicit : ℤ)).toNat + 1 := by
          simp only [Format.exponentBias]
          norm_num
          omega
        unfold pack
        simp only [if_pos hbiased]
      have hpos : (0 : ℚ) < m * 2 ^ e := by positivity
      rw [hpack, unpack_packedInfinity, if_neg (mt h.abs_value_lt_iff.1 he)]
      cases s <;> simp [Datum.ofUnpacked, UnpackedFloat.Sign.apply, hpos, hpos.le]

end ExactSphere.Binary64
