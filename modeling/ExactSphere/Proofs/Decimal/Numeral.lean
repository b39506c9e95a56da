import ExactSphere.Proofs.Decimal.Rounding
import Mathlib.Data.List.DropRight

/-!
# Decimal numerals

A text that is laid out for a value is a numeral (`Numeral.text_layOut`) of that value
(`Numeral.value_layOut`), and a numeral can be read back from its text (`Numeral.text_injective`).
Whether it has an exponent depends on the place of its first digit only (`Numeral.LaidOut`).
-/

namespace ExactSphere.Decimal

/-! ## Digits -/

theorem ofDigitChars_append_zeros (digits : List Char) (k : ℕ) :
    Nat.ofDigitChars 10 (digits ++ List.replicate k '0') 0 =
      Nat.ofDigitChars 10 digits 0 * 10 ^ k := by
  rw [Nat.ofDigitChars_append, Nat.ofDigitChars_replicate_zero, mul_comm]

theorem ofDigitChars_zeros_append (k : ℕ) (digits : List Char) :
    Nat.ofDigitChars 10 (List.replicate k '0' ++ digits) 0 = Nat.ofDigitChars 10 digits 0 := by
  rw [Nat.ofDigitChars_append, Nat.ofDigitChars_replicate_zero, mul_zero]

theorem isDigit_of_mem_zeros {k : ℕ} {c : Char} (h : c ∈ List.replicate k '0') : c.isDigit := by
  rw [List.eq_of_mem_replicate h]
  rfl

theorem exponentText_injective {e f : ℤ} (h : exponentText e = exponentText f) : e = f := by
  unfold exponentText at h
  obtain ⟨hsign, hdigits⟩ := List.cons_eq_cons.1 h
  have hvalue := congrArg (Nat.ofDigitChars 10 · 0) hdigits
  simp only [ofDigitChars_zeros_append, Nat.ofDigitChars_ten_toDigits] at hvalue
  split_ifs at hsign
  · omega
  · cases hsign
  · cases hsign
  · omega

theorem point_notMem_exponentText (e : ℤ) : '.' ∉ exponentText e := by
  intro hmem
  rcases List.mem_cons.1 hmem with hsign | hdigits
  · split_ifs at hsign <;> cases hsign
  · rcases List.mem_append.1 hdigits with hzeros | hdigits
    · cases isDigit_of_mem_zeros hzeros
    · cases Nat.isDigit_of_mem_toDigits (by norm_num) le_rfl hdigits

/-! ## Numerals -/

/-- Texts that stop at the first mark in them fall into the same two parts. -/
theorem eq_of_append_eq {mark : Char} {x y s t : List Char} (hx : mark ∉ x) (hy : mark ∉ y)
    (hs : ∀ c ∈ s.head?, c = mark) (ht : ∀ c ∈ t.head?, c = mark) (h : x ++ s = y ++ t) :
    x = y ∧ s = t := by
  have hfront : ∀ {z r : List Char}, mark ∉ z → (∀ c ∈ r.head?, c = mark) →
      (z ++ r).takeWhile (· != mark) = z := by
    intro z r hz hr
    have hall : ∀ c ∈ z, (c != mark) = true := fun c hc =>
      bne_iff_ne.2 (ne_of_mem_of_not_mem hc hz)
    rw [List.takeWhile_append_of_pos hall]
    cases r with
    | nil => exact List.append_nil z
    | cons c r => rw [hr c rfl, List.takeWhile_cons_of_neg (by simp), List.append_nil]
  have hxy : x = y := by rw [← hfront hx hs, h, hfront hy ht]
  rw [hxy] at h
  exact ⟨hxy, List.append_cancel_left h⟩

/-- A decimal numeral: digits before the point, digits after it, and a power of ten. -/
structure Numeral where
  whole : List Char
  fraction : List Char
  exponent : Option ℤ
  whole_ne_nil : whole ≠ []
  isDigit_of_mem : ∀ c ∈ whole ++ fraction, c.isDigit

namespace Numeral

/-- The digits, with a point if there are any after it. -/
def digitsText (n : Numeral) : List Char :=
  n.whole ++ if n.fraction.isEmpty then [] else '.' :: n.fraction

/-- The text of a numeral. -/
def text (n : Numeral) : List Char :=
  n.digitsText ++ n.exponent.elim [] ('e' :: exponentText ·)

/-- The number that a numeral stands for. -/
def value (n : Numeral) : ℚ :=
  Nat.ofDigitChars 10 (n.whole ++ n.fraction) 0 * 10 ^ (n.exponent.getD 0 - n.fraction.length)

theorem isDigit_of_mem_digitsText {n : Numeral} {c : Char} (h : c ∈ n.digitsText) :
    c.isDigit ∨ c = '.' := by
  rcases List.mem_append.1 h with hwhole | htail
  · exact .inl (n.isDigit_of_mem c (List.mem_append_left _ hwhole))
  · split_ifs at htail
    · cases htail
    · rcases List.mem_cons.1 htail with hpoint | hfraction
      · exact .inr hpoint
      · exact .inl (n.isDigit_of_mem c (List.mem_append_right _ hfraction))

/-- The text starts with a digit. -/
theorem exists_text_eq_cons (n : Numeral) : ∃ c rest, n.text = c :: rest ∧ c.isDigit := by
  obtain ⟨c, rest, hwhole⟩ := List.exists_cons_of_ne_nil n.whole_ne_nil
  refine ⟨c, _, by rw [text, digitsText, hwhole]; rfl, n.isDigit_of_mem c ?_⟩
  rw [hwhole]
  exact List.mem_cons_self

theorem point_notMem_whole (n : Numeral) : '.' ∉ n.whole := fun h =>
  absurd (n.isDigit_of_mem _ (List.mem_append_left _ h)) (by decide)

theorem letter_notMem_digitsText (n : Numeral) : 'e' ∉ n.digitsText := fun h => by
  rcases isDigit_of_mem_digitsText h with hdigit | hpoint
  · cases hdigit
  · cases hpoint

/-- A text has the letter of an exponent if there is one. -/
theorem letter_mem_text_iff (n : Numeral) : 'e' ∈ n.text ↔ n.exponent ≠ none := by
  unfold text
  cases n.exponent with
  | none => simp [n.letter_notMem_digitsText]
  | some e => simp

/-- A text has a point if digits follow it. -/
theorem point_mem_text_iff (n : Numeral) : '.' ∈ n.text ↔ n.fraction ≠ [] := by
  have hexponent : '.' ∉ n.exponent.elim [] ('e' :: exponentText ·) := by
    cases n.exponent with
    | none => exact List.not_mem_nil
    | some e => simp [point_notMem_exponentText]
  unfold text digitsText
  cases n.fraction with
  | nil => simp [n.point_notMem_whole, hexponent]
  | cons c rest => simp

theorem text_injective {a b : Numeral} (h : a.text = b.text) : a = b := by
  obtain ⟨hdigits, hexponent⟩ := eq_of_append_eq a.letter_notMem_digitsText
    b.letter_notMem_digitsText (by cases a.exponent <;> simp) (by cases b.exponent <;> simp) h
  obtain ⟨hwhole, hfraction⟩ := eq_of_append_eq a.point_notMem_whole b.point_notMem_whole
    (by split_ifs <;> simp) (by split_ifs <;> simp) hdigits
  obtain ⟨aw, af, ae, _, _⟩ := a
  obtain ⟨bw, bf, be, _, _⟩ := b
  obtain rfl : aw = bw := hwhole
  obtain rfl : af = bf := by
    cases af <;> cases bf <;> simp_all
  obtain rfl : ae = be := by
    cases ae with
    | none => cases be <;> simp_all
    | some e =>
      cases be with
      | none => simp at hexponent
      | some f => rw [exponentText_injective (List.cons_eq_cons.1 hexponent).2]
  rfl

variable {digits : List Char} {point limit : ℤ}

/-- The numeral that `Decimal.layOut` writes. -/
def layOut (digits : List Char) (point limit : ℤ) (hne : digits ≠ [])
    (hdigits : ∀ c ∈ digits, c.isDigit) : Numeral :=
  if point ≤ -4 ∨ limit < point then
    { whole := digits.take 1
      fraction := digits.drop 1
      exponent := some (point - 1)
      whole_ne_nil := by simp [hne]
      isDigit_of_mem := by rwa [List.take_append_drop] }
  else if hpoint : 0 < point then
    { whole := digits.take point.toNat ++ List.replicate (point.toNat - digits.length) '0'
      fraction := digits.drop point.toNat
      exponent := none
      whole_ne_nil := by
        have : point.toNat ≠ 0 := by omega
        simp [hne, this]
      isDigit_of_mem := by
        simp only [List.mem_append]
        rintro c ((hc | hc) | hc)
        · exact hdigits c (List.mem_of_mem_take hc)
        · exact isDigit_of_mem_zeros hc
        · exact hdigits c (List.mem_of_mem_drop hc) }
  else
    { whole := ['0']
      fraction := List.replicate (-point).toNat '0' ++ digits
      exponent := none
      whole_ne_nil := List.cons_ne_nil _ _
      isDigit_of_mem := by
        simp only [List.mem_append, List.mem_singleton]
        rintro c (rfl | hc | hc)
        · rfl
        · exact isDigit_of_mem_zeros hc
        · exact hdigits c hc }

theorem text_layOut (hne : digits ≠ []) (hdigits : ∀ c ∈ digits, c.isDigit) :
    (layOut digits point limit hne hdigits).text = Decimal.layOut digits point limit := by
  unfold layOut Decimal.layOut
  split_ifs with hexponent hpoint
  · rfl
  · simp [text, digitsText]
  · simp [text, digitsText, hne]

theorem value_layOut (hne : digits ≠ []) (hdigits : ∀ c ∈ digits, c.isDigit) :
    (layOut digits point limit hne hdigits).value =
      Nat.ofDigitChars 10 digits 0 * 10 ^ (point - digits.length) := by
  have hlength := List.length_pos_iff.2 hne
  unfold layOut value
  split_ifs with hexponent hpoint
  · dsimp only
    rw [List.take_append_drop, List.length_drop, Option.getD_some]
    congr 2
    omega
  · dsimp only
    rcases le_total point.toNat digits.length with hle | hle
    · rw [Nat.sub_eq_zero_of_le hle, List.replicate_zero, List.append_nil, List.take_append_drop,
        List.length_drop, Option.getD_none]
      congr 2
      omega
    · rw [List.take_of_length_le hle, List.drop_of_length_le hle, List.append_nil,
        ofDigitChars_append_zeros, Option.getD_none, List.length_nil, Nat.cast_mul, Nat.cast_pow,
        Nat.cast_ofNat, mul_assoc, ← zpow_natCast, ← zpow_add₀ (by norm_num)]
      congr 2
      omega
  · have hzeros : ['0'] ++ (List.replicate (-point).toNat '0' ++ digits) =
        List.replicate ((-point).toNat + 1) '0' ++ digits := rfl
    dsimp only
    rw [hzeros, ofDigitChars_zeros_append, Option.getD_none, List.length_append,
      List.length_replicate]
    congr 2
    omega

/-- The shape of a numeral whose first digit stands for `10 ^ top`: a very small one, and one of
more than `limit` places, has an exponent, and a single digit before the point. The digits after the
point do not end in a zero. -/
structure LaidOut (limit top : ℤ) (n : Numeral) : Prop where
  le : 10 ^ top ≤ n.value
  lt : n.value < 10 ^ (top + 1)
  exponent : n.exponent = if top < -4 ∨ limit ≤ top then some top else none
  whole : n.exponent ≠ none → n.whole.length = 1
  fraction : n.fraction.getLast? ≠ some '0'

theorem exponent_layOut (hne : digits ≠ []) (hdigits : ∀ c ∈ digits, c.isDigit) :
    (layOut digits point limit hne hdigits).exponent =
      if point - 1 < -4 ∨ limit ≤ point - 1 then some (point - 1) else none := by
  have hiff : (point ≤ -4 ∨ limit < point) ↔ point - 1 < -4 ∨ limit ≤ point - 1 := by omega
  unfold layOut
  simp only [hiff]
  split_ifs <;> rfl

theorem whole_layOut (hne : digits ≠ []) (hdigits : ∀ c ∈ digits, c.isDigit)
    (h : (layOut digits point limit hne hdigits).exponent ≠ none) :
    (layOut digits point limit hne hdigits).whole.length = 1 := by
  unfold layOut at h ⊢
  split_ifs at h ⊢
  · have := List.length_pos_iff.2 hne
    rw [List.length_take]
    omega
  · exact absurd rfl h
  · exact absurd rfl h

theorem fraction_layOut (hne : digits ≠ []) (hdigits : ∀ c ∈ digits, c.isDigit)
    (hlast : digits.getLast? ≠ some '0') :
    (layOut digits point limit hne hdigits).fraction.getLast? ≠ some '0' := by
  have hdrop : ∀ k, (digits.drop k).getLast? ≠ some '0' := fun k => by
    rw [List.getLast?_drop]
    split_ifs
    · nofun
    · exact hlast
  unfold layOut
  split_ifs
  · exact hdrop 1
  · exact hdrop point.toNat
  · dsimp only
    rwa [List.getLast?_append_of_ne_nil _ hne]

end Numeral

/-! ## The digits of a decimal -/

/-- The digits that are kept are all but the zeros at the end. -/
theorem exists_toDigits_eq (d : Decimal) :
    ∃ zeros, Nat.toDigits 10 d.coefficient = d.significand.1 ++ List.replicate zeros '0' := by
  have hsplit := List.rdropWhile_append_rtakeWhile (p := (· == '0'))
    (l := Nat.toDigits 10 d.coefficient)
  refine ⟨_, hsplit.symm.trans (congrArg _ (List.eq_replicate_of_mem fun c hc => ?_))⟩
  exact beq_iff_eq.1 (List.mem_rtakeWhile_imp (p := (· == '0')) hc)

theorem isDigit_of_mem_significand {d : Decimal} {c : Char} (h : c ∈ d.significand.1) :
    c.isDigit := by
  obtain ⟨zeros, hdigits⟩ := exists_toDigits_eq d
  refine Nat.isDigit_of_mem_toDigits (n := d.coefficient) (by norm_num) le_rfl ?_
  rw [hdigits]
  exact List.mem_append_left _ h

theorem ofDigitChars_significand (d : Decimal) :
    (Nat.ofDigitChars 10 d.significand.1 0 : ℚ) *
      10 ^ (d.significand.2 - d.significand.1.length) = d.value := by
  obtain ⟨zeros, hdigits⟩ := exists_toDigits_eq d
  have hpoint : d.significand.2 = d.exponent + (Nat.toDigits 10 d.coefficient).length := rfl
  have hvalue := Nat.ofDigitChars_ten_toDigits (n := d.coefficient)
  have hexponent : d.significand.2 - d.significand.1.length = zeros + d.exponent := by
    rw [hpoint, hdigits, List.length_append, List.length_replicate]
    push_cast
    ring
  rw [hdigits, ofDigitChars_append_zeros] at hvalue
  rw [hexponent, zpow_add₀ (by norm_num), zpow_natCast, ← mul_assoc, value, ← hvalue]
  push_cast
  rfl

theorem significand_ne_nil {d : Decimal} (hd : 0 < d.value) : d.significand.1 ≠ [] := by
  intro hnil
  have hvalue := ofDigitChars_significand d
  rw [hnil, Nat.ofDigitChars_nil, Nat.cast_zero, zero_mul] at hvalue
  exact hd.ne hvalue

theorem getLast?_significand (d : Decimal) : d.significand.1.getLast? ≠ some '0' := by
  intro hlast
  have hne : d.significand.1 ≠ [] := by
    intro hnil
    rw [hnil] at hlast
    cases hlast
  rw [List.getLast?_eq_some_getLast hne, Option.some_inj] at hlast
  exact List.rdropWhile_last_not (· == '0') (Nat.toDigits 10 d.coefficient) hne
    (beq_iff_eq.2 hlast)

/-- The first digit of a decimal is not zero. -/
theorem significand_bounds {d : Decimal} (hd : d.coefficient ≠ 0) :
    10 ^ (d.significand.2 - 1) ≤ d.value ∧ d.value < 10 ^ d.significand.2 := by
  have hpoint : d.significand.2 = d.exponent + digitCount d.coefficient := by
    rw [← length_toDigits hd]
    rfl
  obtain ⟨hlow, hhigh⟩ := lastPlace_value hd 0
  rw [abs_of_nonneg d.value_nonneg, Nat.cast_ofNat, sub_add_cancel, ← hpoint] at hlow hhigh
  exact ⟨hlow, hhigh⟩

/-- The significand of a positive decimal is laid out as a numeral of its value. -/
theorem exists_numeral {d : Decimal} (hd : 0 < d.value) (limit : ℤ) :
    ∃ n : Numeral, n.text = layOut d.significand.1 d.significand.2 limit ∧ n.value = d.value ∧
      n.LaidOut limit (d.significand.2 - 1) := by
  have hne := significand_ne_nil hd
  have hdigits : ∀ c ∈ d.significand.1, c.isDigit := fun _ => isDigit_of_mem_significand
  have hvalue : (Numeral.layOut _ d.significand.2 limit hne hdigits).value = d.value :=
    (Numeral.value_layOut hne hdigits).trans (ofDigitChars_significand d)
  obtain ⟨hlow, hhigh⟩ := significand_bounds (coefficient_ne_zero hd)
  exact ⟨_, Numeral.text_layOut hne hdigits, hvalue, hvalue ▸ hlow, by rwa [hvalue, sub_add_cancel],
    Numeral.exponent_layOut hne hdigits, Numeral.whole_layOut hne hdigits,
    Numeral.fraction_layOut hne hdigits (getLast?_significand d)⟩

end ExactSphere.Decimal
