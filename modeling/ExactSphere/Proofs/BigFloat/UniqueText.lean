import ExactSphere.Proofs.BigFloat.DecimalText
import ExactSphere.Proofs.BigFloat.Digits

/-!
# Unique texts

The text of a value with its precision can only be that of this value (`uniqueText_injective`). The
text gives the precision, the sign and a numeral back, and the precision gives the number of digits
that the value was rounded to; rounding to that many digits keeps values of one precision apart
(`value_round_ofBinary_lt`).
-/

namespace ExactSphere.BigFloat

open Binary64 (OnGrid)
open Decimal (Numeral ofBinary)

variable {s t : Bool} {m n k : ℕ} {e f : ℤ}

/-! ## Values of one precision -/

/-- Of two values with as many bits, the larger one is a unit of the smaller one away. -/
theorem add_zpow_le_of_lt (hm : m ≠ 0) (hbits : bitLength m = bitLength n)
    (h : (m * 2 ^ e : ℚ) < n * 2 ^ f) : (m * 2 ^ e + 2 ^ e : ℚ) ≤ n * 2 ^ f := by
  have hlow := zpow_le_abs_signedInt hm false e
  have hhigh := abs_signedInt_lt_zpow false n f
  rw [abs_signedInt_mul_zpow] at hlow hhigh
  have hexponents := (zpow_lt_zpow_iff_right₀ one_lt_two).1 ((hlow.trans_lt h).trans hhigh)
  have hm : OnGrid e (m * 2 ^ e : ℚ) := ⟨m, by simp⟩
  have hn : OnGrid f (n * 2 ^ f : ℚ) := ⟨n, by simp⟩
  exact hm.add_le_of_lt (hn.mono (by omega)) h

/-- Values of one precision keep their order when they are rounded to enough digits. -/
theorem value_round_ofBinary_lt (hm : m ≠ 0) (hbits : bitLength m = bitLength n)
    (hdigits : 2 ^ bitLength m ≤ 10 ^ k) (h : (m * 2 ^ e : ℚ) < n * 2 ^ f) :
    ((ofBinary m e).round (k + 1)).value < ((ofBinary n f).round (k + 1)).value := by
  have hunit : (0 : ℚ) < 2 ^ e := by positivity
  have hmantissa : (m + 1 : ℚ) ≤ 10 ^ k := by
    exact_mod_cast (lt_two_pow_bitLength m).trans_le hdigits
  refine Decimal.value_round_lt hunit ?_ ?_
  · rw [Decimal.value_ofBinary, Decimal.value_ofBinary]
    exact add_zpow_le_of_lt hm hbits h
  · rw [Decimal.value_ofBinary, ← add_one_mul]
    exact mul_le_mul_of_nonneg_right hmantissa hunit.le

/-- Values of one precision that round to the same decimal with enough digits are the same. -/
theorem eq_of_value_round_eq (hm : m % 2 = 1) (hn : n % 2 = 1) (hbits : bitLength m = bitLength n)
    (hdigits : 2 ^ bitLength m ≤ 10 ^ k)
    (h : ((ofBinary m e).round (k + 1)).value = ((ofBinary n f).round (k + 1)).value) :
    m = n ∧ e = f := by
  rcases lt_trichotomy (m * 2 ^ e : ℚ) (n * 2 ^ f) with hlt | heq | hgt
  · exact absurd h (value_round_ofBinary_lt (by omega) hbits hdigits hlt).ne
  · exact finite_inj hm hn heq
  · exact absurd h
      (value_round_ofBinary_lt (by omega) hbits.symm (hbits ▸ hdigits) hgt).ne'

/-! ## Reading texts back -/

/-- A numeral with a sign can be read back. -/
theorem signed_text_injective {a b : Numeral}
    (h : (if s then '-' :: a.text else a.text) = (if t then '-' :: b.text else b.text)) :
    s = t ∧ a = b := by
  have hminus : ∀ (a b : Numeral), '-' :: a.text ≠ b.text := by
    intro a b h
    obtain ⟨c, rest, htext, hdigit⟩ := b.exists_text_eq_cons
    rw [htext] at h
    obtain rfl : '-' = c := (List.cons_eq_cons.1 h).1
    exact absurd hdigit (by decide)
  cases s <;> cases t
  · exact ⟨rfl, Numeral.text_injective h⟩
  · exact absurd h.symm (hminus b a)
  · exact absurd h (hminus a b)
  · exact ⟨rfl, Numeral.text_injective (List.cons_eq_cons.1 h).2⟩

/-- A unique text gives the decimal text and the precision back. -/
theorem decimalText_eq_of_uniqueText_eq {u v : BigFloat} (h : u.uniqueText = v.uniqueText) :
    u.decimalText u.displayDigits = v.decimalText v.displayDigits ∧ u.precision = v.precision := by
  have hmark : ∀ p : ℕ, '<' ∉ ('>' :: (Nat.toDigits 10 p).reverse) := by
    intro p hmem
    rcases List.mem_cons.1 hmem with heq | hmem
    · exact absurd heq (by decide)
    · exact absurd (Nat.isDigit_of_mem_toDigits (by norm_num) le_rfl (List.mem_reverse.1 hmem))
        (by decide)
  have hreverse : ∀ x : BigFloat, x.uniqueText.toList.reverse =
      ('>' :: (Nat.toDigits 10 x.precision).reverse) ++
        '<' :: (x.decimalText x.displayDigits).reverse := by
    intro x
    simp [uniqueText, display]
  have htext := congrArg (·.toList.reverse) h
  simp only [hreverse] at htext
  -- the last mark separates, and the digits of the precision hold none
  obtain ⟨hprecision, hdecimal⟩ :=
    Decimal.eq_of_append_eq (hmark _) (hmark _) (by simp) (by simp) htext
  have hdigits := List.reverse_injective (List.cons_eq_cons.1 hprecision).2
  have hvalue := congrArg (Nat.ofDigitChars 10 · 0) hdigits
  simp only [Nat.ofDigitChars_ten_toDigits] at hvalue
  exact ⟨List.reverse_injective (List.cons_eq_cons.1 hdecimal).2, hvalue⟩

/-- Values of one precision are shown with as many digits. -/
theorem displayDigits_congr {u v : BigFloat} (h : u.precision = v.precision) :
    u.displayDigits = v.displayDigits := by
  rw [displayDigits, displayDigits, h]

/-- Special values with one text are the same, if not both are NaN. -/
theorem eq_of_decimalText_eq_of_special {u v : BigFloat} {digits : UInt64}
    (hu : u.isNormal = false) (hv : v.isNormal = false)
    (hnan : ¬(u.isNaN = true ∧ v.isNaN = true))
    (h : u.decimalText digits = v.decimalText digits) : u = v := by
  obtain ⟨s, _ | ⟨m, e⟩ | _ | _⟩ := u
  case finite => cases hu
  all_goals
    obtain ⟨t, _ | ⟨n, f⟩ | _ | _⟩ := v
    case finite => cases hv
    all_goals cases s <;> cases t <;> simp_all [decimalText, isNaN]

/-- Nonzero finite values of one precision with one text are the same. -/
theorem finite_eq_of_decimalText_eq (hm : m % 2 = 1) (hn : n % 2 = 1)
    (hprecision : bitLength n ≤ maxPrecision) (hbits : bitLength m = bitLength n)
    (h : decimalText ⟨s, .finite m e⟩ (displayDigits ⟨t, .finite n f⟩) =
      decimalText ⟨t, .finite n f⟩ (displayDigits ⟨t, .finite n f⟩)) :
    s = t ∧ m = n ∧ e = f := by
  obtain ⟨k, hdigits, hpower⟩ := exists_displayDigits (x := ⟨t, .finite n f⟩) hprecision
  obtain ⟨a, -, ha, hvalue, -⟩ := exists_numeral_decimalText (m := m) (by omega) hdigits s e
  obtain ⟨b, -, hb, hvalue', -⟩ := exists_numeral_decimalText (m := n) (by omega) hdigits t f
  rw [ha, hb] at h
  obtain ⟨hsign, rfl⟩ := signed_text_injective h
  have hpower' : 2 ^ bitLength m ≤ 10 ^ k := hbits.symm ▸ hpower
  exact ⟨hsign, eq_of_value_round_eq hm hn hbits hpower' (hvalue.symm.trans hvalue')⟩

/-- Different values, if not both NaN, have different unique texts. -/
theorem uniqueText_injective {u v : BigFloat} (hu : u.Canonical) (hv : v.Canonical)
    (hnan : ¬(u.isNaN = true ∧ v.isNaN = true)) (h : u.uniqueText = v.uniqueText) : u = v := by
  obtain ⟨htext, hprecision⟩ := decimalText_eq_of_uniqueText_eq h
  rw [displayDigits_congr hprecision] at htext
  have hspecial : ∀ {x : BigFloat}, x.Canonical → x.precision = 0 → x.isNormal = false := by
    rintro ⟨s, _ | ⟨m, e⟩ | _ | _⟩ hx hzero
    case finite => exact absurd hzero (bitLength_pos (Canonical.mantissa_ne_zero hx)).ne'
    all_goals rfl
  by_cases hzero : u.precision = 0
  · exact eq_of_decimalText_eq_of_special (hspecial hu hzero)
      (hspecial hv (hprecision.symm.trans hzero)) hnan htext
  obtain ⟨s, _ | ⟨m, e⟩ | _ | _⟩ := u
  case finite =>
    obtain ⟨t, _ | ⟨n, f⟩ | _ | _⟩ := v
    case finite =>
      obtain ⟨rfl, rfl, rfl⟩ :=
        finite_eq_of_decimalText_eq hu.1 hv.1 hv.2.2.2 hprecision htext
      rfl
    all_goals exact absurd hprecision hzero
  all_goals exact absurd rfl hzero

/-- The double nearest to a tenth, told by its text. -/
theorem uniqueText_injective_tenth :
    (ofFloat 0.1).uniqueText = "0.10000000000000001<52>" ∧
      ofFloat 0.1 = ⟨false, .finite 3602879701896397 (-55)⟩ := by
  have hfloat : (ofFloat 0.1).uniqueText = "0.10000000000000001<52>" := by decide +kernel
  have htext : uniqueText ⟨false, .finite 3602879701896397 (-55)⟩ = "0.10000000000000001<52>" := by
    decide +kernel
  exact ⟨hfloat, uniqueText_injective (canonical_ofFloat 0.1)
    ⟨by decide, by decide +kernel, by decide +kernel, by decide +kernel⟩ (by decide +kernel)
    (hfloat.trans htext.symm)⟩

end ExactSphere.BigFloat
