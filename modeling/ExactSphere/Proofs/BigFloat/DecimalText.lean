import ExactSphere.Proofs.BigFloat.Arithmetic
import ExactSphere.Proofs.BigFloat.Words
import ExactSphere.Proofs.Decimal.Numeral

/-!
# Decimal texts

A nonzero finite value is an exact decimal. Its text is a numeral of this decimal, rounded once to
the digits that are asked for (`exists_numeral_decimalText`, `toDecimal_rounds`).
-/

namespace ExactSphere.BigFloat

open Decimal (Numeral ofBinary)

variable {x : BigFloat} {m k : ℕ} {digits : UInt64}

theorem value_ofBinary_pos (hm : m ≠ 0) (e : ℤ) : 0 < (ofBinary m e).value := by
  have hpos : (0 : ℚ) < m := by exact_mod_cast Nat.pos_of_ne_zero hm
  rw [Decimal.value_ofBinary]
  positivity

/-- The text of a nonzero finite value is a numeral with a sign. -/
theorem exists_numeral_decimalText (hm : m ≠ 0) (hdigits : digits.toNat = k + 1) (s : Bool)
    (e : ℤ) :
    ∃ (a : Numeral) (top : ℤ),
      decimalText ⟨s, .finite m e⟩ digits = (if s then '-' :: a.text else a.text) ∧
        a.value = ((ofBinary m e).round (k + 1)).value ∧ a.LaidOut digits.toInt64.toInt top := by
  obtain ⟨a, htext, hvalue, hlaidOut⟩ := Decimal.exists_numeral
    (Decimal.value_round_pos (value_ofBinary_pos hm e) k) digits.toInt64.toInt
  refine ⟨a, _, ?_, hvalue, hlaidOut⟩
  rw [htext, ← hdigits]
  cases s <;> rfl

/-- The text of a normal value is a numeral with the sign of the value. Its number is the size of
the value, rounded once to the digits asked for, half to even in the place of the last of them; a
value that has no more digits is not rounded. The numeral is laid out for that many places, without
zeros at the end of a fraction, and without a point if there is none. -/
theorem toDecimal_rounds (hx : x.Canonical) (hnormal : x.isNormal = true)
    (hmin : 1 ≤ digits.toNat) (hmax : digits.toNat < 2 ^ 63) :
    ∃ (a : Numeral) (place top : ℤ),
      x.toDecimal digits = .ok (String.ofList (if x.negative then '-' :: a.text else a.text)) ∧
      LastPlace 10 digits.toNat place |x.value| ∧
      RoundingMode.tiesEven.Picks (FitsDigits 10 digits.toNat) (Multiple (2 * 10 ^ place)) |x.value|
        a.value ∧
      (FitsDigits 10 digits.toNat |x.value| → a.value = |x.value|) ∧
      a.LaidOut digits.toNat top ∧ ('e' ∈ a.text ↔ a.exponent ≠ none) ∧
      ('.' ∈ a.text ↔ a.fraction ≠ []) := by
  obtain ⟨s, m, e, rfl⟩ := exists_of_isNormal hnormal
  obtain ⟨k, hk⟩ := Nat.exists_eq_add_of_le' hmin
  have hm := hx.mantissa_ne_zero
  have hdigits : digits ≠ 0 := by
    rintro rfl
    exact absurd hmin (by decide)
  have hvalue : |value ⟨s, .finite m e⟩| = (ofBinary m e).value :=
    (abs_signedInt_mul_zpow s m e).trans (Decimal.value_ofBinary m e).symm
  have hcoefficient := Decimal.coefficient_ne_zero (value_ofBinary_pos hm e)
  have hpicks := Decimal.picks_round hcoefficient (show digits.toNat ≠ 0 by omega)
  obtain ⟨a, top, htext, hround, hlaidOut⟩ := exists_numeral_decimalText hm hk s e
  rw [toInt_toInt64_of_lt hmax] at hlaidOut
  rw [← hk] at hround
  rw [← hround, ← hvalue] at hpicks
  refine ⟨a, _, top, ?_, hvalue ▸ Decimal.lastPlace_value hcoefficient _, hpicks,
    hpicks.eq_self, hlaidOut, a.letter_mem_text_iff, a.point_mem_text_iff⟩
  rw [toDecimal, if_neg hdigits, htext]

/-- The number 999.5 is a tie. The even one of its neighbours of three digits is the larger one, and
the carry adds a digit, and with it an exponent. -/
theorem toDecimal_rounds_carry :
    toDecimal ⟨true, .finite 1999 (-1)⟩ 3 = .ok "-1e+03" ∧
      RoundingMode.tiesEven.Picks (FitsDigits 10 3) (Multiple 2) (1999 / 2) 1000 := by
  have htext : toDecimal ⟨true, .finite 1999 (-1)⟩ 3 = .ok "-1e+03" := by decide +kernel
  have hx : Canonical ⟨true, .finite 1999 (-1)⟩ := by unfold Canonical; decide
  have hvalue : |value ⟨true, .finite 1999 (-1)⟩| = 1999 / 2 := by
    change |((-1999 : ℤ) : ℚ) * 2 ^ (-1 : ℤ)| = 1999 / 2
    norm_num
  obtain ⟨a, place, -, hnumeral, hplace, hpicks, -⟩ :=
    toDecimal_rounds hx rfl (show 1 ≤ (3 : UInt64).toNat by decide) (by decide)
  rw [hvalue] at hplace hpicks
  have hplace : place = 0 := by
    have hlow := hplace.le.trans_lt (show |(1999 / 2 : ℚ)| < 10 ^ (3 : ℤ) by norm_num)
    have hhigh := (show (10 : ℚ) ^ (2 : ℤ) ≤ |1999 / 2| by norm_num).trans_lt hplace.lt
    rw [Nat.cast_ofNat, zpow_lt_zpow_iff_right₀ (by norm_num)] at hlow hhigh
    change place + 3 - 1 < 3 at hlow
    change 2 < place + 3 at hhigh
    omega
  have hdigits : a.text = ['1', 'e', '+', '0', '3'] := by
    rw [htext] at hnumeral
    exact (List.cons_eq_cons.1 (String.ofList_injective (Except.ok.inj hnumeral.symm))).2
  have hthousand : a.value = 1000 := by
    have ha : a = ⟨['1'], [], some 3, by simp, by simp⟩ :=
      Decimal.Numeral.text_injective (hdigits.trans rfl)
    rw [ha]
    change ((1 : ℕ) : ℚ) * 10 ^ ((3 : ℤ) - (0 : ℕ)) = 1000
    norm_num
  rw [hthousand, hplace, zpow_zero, mul_one] at hpicks
  exact ⟨htext, hpicks⟩

end ExactSphere.BigFloat
