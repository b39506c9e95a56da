import ExactSphere.Proofs.BigFloat.Expression
import ExactSphere.Proofs.BigFloat.Rounding
import ExactSphere.Proofs.Binary64.Scale
import ExactSphere.Proofs.Binary64.SignBit

/-!
# Exact values as doubles

The conversion of a value to a double rounds its mantissa at the last place of the nearest double
(`roundToDouble_eq`). The mantissa that is left (`Scalable`) is scaled without a further error, so
that the value is rounded once (`toFloat_rounds`).
-/

namespace ExactSphere

open Binary64 (datum nearest ulpExponent isNegative Representable)

/-! ## Rounding a mantissa -/

/-- The last place of the double nearest to a value. -/
theorem ulpExponent_signedInt {m : ℕ} (hm : m ≠ 0) (s : Bool) (e : ℤ) :
    ulpExponent (signedInt s m * 2 ^ e) = max (e + bitLength m - 53) (-1074) := by
  refine le_antisymm ?_ (max_le ?_ (Binary64.min_le_ulpExponent _))
  · refine Binary64.ulpExponent_le (le_max_right _ _) ((abs_signedInt_lt_zpow s m e).trans_le ?_)
    exact zpow_le_zpow_right₀ one_le_two (by omega)
  · refine Binary64.le_ulpExponent ?_
    rw [show e + bitLength m - 53 + 52 = e + bitLength m - 1 by ring]
    exact zpow_le_abs_signedInt hm s e

/-- The double nearest to a value, whose mantissa is longer than that of the double. -/
theorem nearest_signedInt {s : Bool} {m : ℕ} {e u : ℤ}
    (hu : ulpExponent (signedInt s m * 2 ^ e) = u) (heu : e ≤ u) :
    nearest (signedInt s m * 2 ^ e) =
      signedInt s (RoundingMode.tiesEven.shiftRight s m (u - e).toNat) * 2 ^ u := by
  rw [nearest, hu, mul_zpow_div_zpow _ heu, RoundingMode.signedInt_shiftRight]
  rfl

namespace BigFloat

variable {x z : BigFloat} {s : Bool} {m n : ℕ} {e f u : ℤ} {v w : ℚ}

/-! ## The rounded value -/

/-- A canonical value is rounded at the last place of its nearest double. -/
theorem roundToDouble_eq (hx : Canonical ⟨s, .finite m e⟩) :
    roundToDouble ⟨s, .finite m e⟩ =
      .ok (roundTo ⟨s, .finite m e⟩ (ulpExponent (signedInt s m * 2 ^ e)) .tiesEven) := by
  obtain ⟨hodd, -, hmax, -⟩ := hx
  have hulp := ulpExponent_signedInt (show m ≠ 0 by omega) s e
  change (if e + bitLength m ≤ Binary64.minExponent + Binary64.precision then _ else _) = _
  unfold Binary64.minExponent Binary64.precision
  split_ifs with hsmall
  · rw [hulp, max_eq_right (by omega)]
    exact roundToUnit_eq (by decide) (by decide) _ _
  · rw [max_eq_left (by omega)] at hulp
    rw [hulp, roundToPrecision, if_neg (by decide), if_neg (by decide)]
    dsimp only
    split_ifs with hnarrow
    · exact congrArg Except.ok (if_pos (by omega)).symm
    · rw [show e + (bitLength m - (53 : ℕ)) = e + bitLength m - 53 by omega]
      refine roundToUnit_eq ?_ ?_ _ _
      · unfold minExponent maxPrecision
        omega
      · omega

/-- `z` is what is left to scale for a double of the given sign, when the value is rounded to `w`:
a mantissa that a double can have, nothing, or an infinity for a number beyond the doubles. -/
inductive Scalable (s : Bool) : BigFloat → ℚ → Prop
  | zero : Scalable s (zero s) 0
  | finite {n : ℕ} {f : ℤ} (hn : n ≠ 0) (hbits : n < 2 ^ 53) (hf : -1074 ≤ f) :
      Scalable s ⟨s, .finite n f⟩ (signedInt s n * 2 ^ f)
  | infinity {w : ℚ} (hlarge : 2 ^ (1024 : ℤ) ≤ |w|) (hsign : decide (w < 0) = s) :
      Scalable s (infinity s) w

/-- The parts of a rounded value, in whichever range it lies. -/
theorem scalable_ofParts (hn : n ≤ 2 ^ 53) (hu : -1074 ≤ u) :
    Scalable s (ofParts s n u) (signedInt s n * 2 ^ u) := by
  by_cases hzero : n = 0
  · rw [hzero, ofParts, if_pos rfl, signedInt_zero, Int.cast_zero, zero_mul]
    exact .zero
  by_cases hlarge : maxExponent < u + bitLength n
  · rw [ofParts_of_gt s hzero hlarge]
    refine .infinity (le_trans ?_ (zpow_le_abs_signedInt hzero s u))
      (signedInt_mul_zpow_lt_zero hzero s u)
    unfold maxExponent at hlarge
    exact zpow_le_zpow_right₀ one_le_two (by omega)
  have hprecision := precision_ofParts_le (by decide) hn s u
  have hodd := (shiftRight_trailingZeros hzero).1
  have hlength : bitLength n ≤ 54 := bitLength_le_iff.2 (by omega)
  have hshorter := bitLength_eq_add_trailingZeros hzero
  rw [ofParts_of_le hzero (by unfold minExponent; omega) (not_lt.1 hlarge),
    if_neg (by unfold maxPrecision; omega)] at hprecision ⊢
  rw [signedInt_mul_zpow_eq hzero]
  exact .finite (by omega) (bitLength_le_iff.1 hprecision) (by omega)

theorem scalable_roundTo (hm : m ≠ 0) (hu : ulpExponent (signedInt s m * 2 ^ e) = u) :
    Scalable s (roundTo ⟨s, .finite m e⟩ u .tiesEven) (nearest (signedInt s m * 2 ^ e)) := by
  have hmin := Binary64.min_le_ulpExponent (signedInt s m * 2 ^ e)
  have hulp := ulpExponent_signedInt hm s e
  rw [hu] at hmin hulp
  change Scalable s (if u ≤ e then _ else ofParts s _ u) _
  split_ifs with hexact
  · -- the value is a multiple of the last place and needs no rounding
    have hbits : m < 2 ^ 53 := bitLength_le_iff.1 (by omega)
    have hrepresentable : Representable (signedInt s m * 2 ^ e) := by
      refine ⟨e, hmin.trans hexact, ⟨signedInt s m, rfl⟩, ?_⟩
      exact (abs_signedInt_lt_zpow s m e).le.trans (zpow_le_zpow_right₀ one_le_two (by omega))
    rw [Binary64.nearest_eq_self hrepresentable]
    exact .finite hm hbits (hmin.trans hexact)
  · rw [nearest_signedInt hu (by omega)]
    refine scalable_ofParts ((shiftRight_le _ _ _ _).trans ?_) hmin
    have hlt := bitLength_le_iff.1 (show bitLength m ≤ (u - e).toNat + 53 by omega)
    rw [pow_add] at hlt
    exact Nat.div_lt_of_lt_mul hlt

/-! ## The scaled mantissa -/

theorem datum_toFloatUnrounded (hn : n ≠ 0) (hbits : n < 2 ^ 53) (hf : -1074 ≤ f) (s : Bool) :
    datum (toFloatUnrounded ⟨s, .finite n f⟩) = .clip (signedInt s n * 2 ^ f) := by
  have hscale := Binary64.datum_scale hn hbits hf
  unfold toFloatUnrounded signedInt
  cases s with
  | false =>
    simp only [Bool.false_eq_true, if_false, Int.cast_natCast]
    exact hscale
  | true =>
    simp only [if_true, Int.cast_neg, Int.cast_natCast, neg_mul]
    rw [Binary64.datum_neg, hscale, Binary64.Datum.clip_neg]

theorem Scalable.datum_eq (h : Scalable s z w) : datum z.toFloatUnrounded = .clip w := by
  cases h with
  | zero =>
    rw [Binary64.Datum.clip_of_lt (by rw [abs_zero]; positivity)]
    cases s <;> rfl
  | finite hn hbits hf => exact datum_toFloatUnrounded hn hbits hf s
  | infinity hlarge hsign =>
    rw [Binary64.Datum.clip_of_le hlarge, hsign]
    cases s <;> rfl

/-- The double has the sign of the value, also where it is a zero. -/
theorem Scalable.isNegative_eq (h : Scalable s z w) : isNegative z.toFloatUnrounded = s := by
  have hdatum := h.datum_eq
  cases h with
  | zero => cases s <;> decide +kernel
  | @finite n f hn hbits hf =>
    have hsign := signedInt_mul_zpow_lt_zero hn s f
    have hne : (signedInt s n * 2 ^ f : ℚ) ≠ 0 := by
      rw [← abs_pos, abs_signedInt_mul_zpow]
      exact mul_pos (by exact_mod_cast Nat.pos_of_ne_zero hn) (zpow_pos two_pos f)
    unfold Binary64.Datum.clip at hdatum
    split_ifs at hdatum
    · rw [Binary64.isNegative_of_number hdatum hne, hsign]
    · rw [Binary64.isNegative_of_infinity hdatum, hsign]
  | infinity => cases s <;> decide +kernel

/-! ## The conversion -/

theorem exists_toFloat_eq (hx : x.Canonical) (hfinite : x.isFinite = true) :
    ∃ z, x.toFloat = z.toFloatUnrounded ∧ Scalable x.negative z (nearest x.value) := by
  obtain ⟨s, _ | ⟨m, e⟩ | _ | _⟩ := x
  case zero => exact ⟨zero s, rfl, Binary64.nearest_zero.symm ▸ .zero⟩
  case finite =>
    refine ⟨_, ?_, scalable_roundTo hx.mantissa_ne_zero rfl⟩
    rw [toFloat, roundToDouble_eq hx]
  all_goals cases hfinite

/-- A finite value is rounded once to the nearest double. -/
theorem datum_toFloat (hx : x.Canonical) (hfinite : x.isFinite = true) :
    datum x.toFloat = .round x.value := by
  obtain ⟨z, hz, hscalable⟩ := exists_toFloat_eq hx hfinite
  rw [hz, hscalable.datum_eq, Binary64.Datum.round]

theorem isNegative_toFloat (hx : x.Canonical) (hfinite : x.isFinite = true) :
    isNegative x.toFloat = x.negative := by
  obtain ⟨z, hz, hscalable⟩ := exists_toFloat_eq hx hfinite
  rw [hz, hscalable.isNegative_eq]

theorem datum_toFloat_infinity (s : Bool) : datum (infinity s).toFloat = .infinity s := by
  cases s <;> rfl

/-- An integer below `2 ^ 53` is converted without loss. -/
theorem datum_toFloat_ofInt {n : ℤ} (h : n.natAbs < 2 ^ 53) :
    datum (ofInt n).toFloat = .number n := by
  have hlt : |(n : ℚ)| < 2 ^ (53 : ℤ) := by
    rw [← Int.cast_abs, Int.abs_eq_natAbs]
    exact_mod_cast h
  have hwindow : Window 1 (n * 2 ^ (0 : ℤ)) := by
    rw [zpow_zero, mul_one]
    refine ⟨(show Binary64.OnGrid 0 (n : ℚ) from ⟨n, by simp⟩).mono (by norm_num), ?_⟩
    exact hlt.trans_le (zpow_le_zpow_right₀ one_le_two (by norm_num))
  have hvalue : Represents (ofInt n) (n * 2 ^ (0 : ℤ)) := represents_ofScaled (by decide) hwindow
  rw [zpow_zero, mul_one] at hvalue
  have hcanonical : (ofInt n).Canonical := canonical_ofParts _ _ _
  rw [datum_toFloat hcanonical hvalue.isFinite, hvalue.value_eq]
  refine Binary64.Datum.round_of_representable ⟨0, by norm_num, ⟨n, by simp⟩, ?_⟩
    (hlt.trans_le (zpow_le_zpow_right₀ one_le_two (by norm_num)))
  simpa using hlt.le

/-! ## There and back -/

theorem negative_ofFloat {a : Float} (h : (ofFloat a).isNaN = false) :
    (ofFloat a).negative = isNegative a := by
  unfold ofFloat at h ⊢
  dsimp only at h ⊢
  split_ifs at h ⊢
  · rfl
  · rfl
  · exact negative_ofParts h
  · exact negative_ofParts h

/-- A double that is not NaN keeps all its bits on the way to a value and back. -/
theorem toBits_toFloat_ofFloat {a : Float} (h : a.isNaN = false) :
    (ofFloat a).toFloat.toBits = a.toBits := by
  have hnan : datum a ≠ .nan := fun hdatum => by
    rw [Binary64.isNaN_iff.2 hdatum] at h
    cases h
  by_cases hfield : Binary64.magnitudeBits a / 2 ^ 52 = 2047
  · have hbits := Binary64.magnitudeBits_of_infinite hfield hnan
    have hvalue : ofFloat a = infinity (isNegative a) := by
      unfold ofFloat
      exact if_pos hbits
    have hdatum : datum (ofFloat a).toFloat = datum a := by
      rw [hvalue, datum_toFloat_infinity, Binary64.datum_of_infinite_bits hfield, hbits]
      rfl
    refine Binary64.toBits_eq_of_datum hdatum ?_ (hdatum ▸ hnan)
    rw [hvalue, Binary64.isNegative_of_infinity (datum_toFloat_infinity _)]
  · have hdatum := Binary64.datum_of_finite_bits hfield
    have hvalue := represents_ofFloat (Binary64.isFinite_of_datum hdatum)
    have hround : datum (ofFloat a).toFloat = datum a := by
      rw [datum_toFloat (canonical_ofFloat a) hvalue.isFinite, hvalue.value_eq,
        Binary64.Datum.round_of_representable (Binary64.representable_value a)
          (Binary64.abs_value_lt a), hdatum, Binary64.value_of_datum hdatum]
    refine Binary64.toBits_eq_of_datum hround ?_ (hround ▸ hnan)
    rw [isNegative_toFloat (canonical_ofFloat a) hvalue.isFinite,
      negative_ofFloat hvalue.isNaN_eq_false]

/-- A canonical finite value becomes its nearest double, of two nearest ones the even one, with the
sign of the value; from halfway between the largest double and `2 ^ 1024` on, an infinity. The
infinities and zeros keep their sign, and a double that becomes a value comes back. -/
theorem toFloat_rounds :
    (∀ x : BigFloat, x.Canonical → x.isFinite = true →
      datum x.toFloat = .round x.value ∧ isNegative x.toFloat = x.negative ∧
        (datum x.toFloat = .infinity x.negative ↔
          2 ^ (1024 : ℤ) - 2 ^ (970 : ℤ) ≤ |x.value|)) ∧
    (∀ s : Bool, datum (infinity s).toFloat = .infinity s ∧
      datum (zero s).toFloat = .number 0 ∧ isNegative (zero s).toFloat = s) ∧
    ∀ a : Float, a.isNaN = false → (ofFloat a).toFloat.toBits = a.toBits := by
  refine ⟨fun x hx hfinite => ?_, fun s => ⟨datum_toFloat_infinity s, ?_⟩,
    fun a ha => toBits_toFloat_ofFloat ha⟩
  · have hdatum := datum_toFloat hx hfinite
    have hsign := isNegative_toFloat hx hfinite
    refine ⟨hdatum, hsign, ?_⟩
    rw [← Binary64.exists_round_eq_infinity_iff, ← hdatum]
    refine ⟨fun h => ⟨_, h⟩, fun ⟨t, ht⟩ => ?_⟩
    rw [ht, ← hsign, Binary64.isNegative_of_infinity ht]
  · cases s <;> exact ⟨rfl, by decide +kernel⟩

/-- Halfway between two doubles the even one is chosen, a value that underflows keeps its sign, and
the smallest double comes back. -/
theorem toFloat_rounds_halfway :
    Binary64.Datum.round (-9007199254740993) = .number (-9007199254740992) ∧
      isNegative (toFloat ⟨true, .finite 1 (-1080)⟩) = true ∧
      (ofFloat (.ofBits 1)).toFloat.toBits = 1 := by
  obtain ⟨hfinite, -, hback⟩ := toFloat_rounds
  have hhalf : Canonical ⟨true, .finite 9007199254740993 0⟩ := by
    refine ⟨?_, ?_, ?_, ?_⟩ <;> decide +kernel
  have hsmall : Canonical ⟨true, .finite 1 (-1080)⟩ := by
    refine ⟨?_, ?_, ?_, ?_⟩ <;> decide +kernel
  have hround := (hfinite _ hhalf rfl).1
  have hvalue : value ⟨true, .finite 9007199254740993 0⟩ = -9007199254740993 := by
    change ((-9007199254740993 : ℤ) : ℚ) * 2 ^ (0 : ℤ) = _
    norm_num
  rw [hvalue] at hround
  refine ⟨hround.symm.trans ?_, (hfinite _ hsmall rfl).2.1, ?_⟩
  · decide +kernel
  · exact (hback (.ofBits 1) (by decide +kernel)).trans (by decide +kernel)

end BigFloat
end ExactSphere
