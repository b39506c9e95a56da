import ExactSphere.Proofs.Decimal.Numeral

/-!
# Rounding a string of digits

The significant digits of a decimal can be found without a division: the string of its digits is
cut off, the digits behind the cut decide whether the last digit that is left goes up by one, and a
carry runs through nines to the front. These are the digits of the rounded decimal
(`digitString_eq`), of which there are no more than asked for (`length_digitString_le`).
-/

namespace ExactSphere

/-- A remainder rounds a quotient up if it is above half of the divisor, or half of it with an odd
quotient. -/
theorem roundsUp_ofRemainder {d : ℕ} (hd : 0 < d) (r : ℕ) (odd : Bool) :
    RoundingMode.tiesEven.roundsUp false odd (.ofRemainder r d) =
      (decide (d < 2 * r) || decide (2 * r = d) && odd) := by
  unfold Discarded.ofRemainder
  split_ifs with hzero hbelow hhalf
  · simp [RoundingMode.roundsUp, hzero, hd.ne]
  · simp [RoundingMode.roundsUp, hbelow.ne, hbelow.not_gt]
  · simp [RoundingMode.roundsUp, hhalf]
  · have habove : d < 2 * r := by omega
    simp [RoundingMode.roundsUp, habove]

namespace Decimal

variable {d : Decimal} {digit k n : ℕ}

/-! ## Carries -/

/-- Adds one to a number whose last digit comes first. -/
def incrementReversed : List Char → List Char
  | [] => ['1']
  | digit :: rest =>
    if digit < '9' then .ofNat (digit.toNat + 1) :: rest else '0' :: incrementReversed rest

/-- Adds one to the number that the digits stand for. -/
def increment (digits : List Char) : List Char := (incrementReversed digits.reverse).reverse

/-- A digit below nine goes up, and a nine passes the carry on. -/
theorem increment_append (digits : List Char) (hdigit : digit < 10) :
    increment (digits ++ [digit.digitChar]) =
      if digit < 9 then digits ++ [(digit + 1).digitChar] else increment digits ++ ['0'] := by
  have hnine : digit.digitChar < '9' ↔ digit < 9 := by
    interval_cases digit <;> decide
  have hnext : digit < 9 → Char.ofNat (digit.digitChar.toNat + 1) = (digit + 1).digitChar := by
    interval_cases digit <;> decide
  unfold increment
  rw [List.reverse_append, List.reverse_singleton, List.singleton_append, incrementReversed]
  simp only [hnine]
  split_ifs with hlt
  · rw [hnext hlt, List.reverse_cons, List.reverse_reverse]
  · rw [List.reverse_cons]

theorem increment_toDigits (n : ℕ) : increment (Nat.toDigits 10 n) = Nat.toDigits 10 (n + 1) := by
  -- The carry goes from `n` to `n / 10`, whose digits are those of `n` without the last one.
  induction n using Nat.strong_induction_on with
  | _ n ih =>
    by_cases hsmall : n < 10
    · interval_cases n <;> decide
    · have hlast := increment_append (Nat.toDigits 10 (n / 10)) (Nat.mod_lt n (by norm_num))
      rw [Nat.toDigits_of_base_le (by norm_num) (not_lt.1 hsmall), hlast,
        Nat.toDigits_of_base_le (by norm_num) (show 10 ≤ n + 1 by omega)]
      split_ifs with hnine
      · rw [show (n + 1) / 10 = n / 10 by omega, show (n + 1) % 10 = n % 10 + 1 by omega]
      · rw [ih (n / 10) (by omega), show (n + 1) / 10 = n / 10 + 1 by omega,
          show (n + 1) % 10 = 0 by omega]
        rfl

/-! ## The digits behind the cut -/

/-- The last `k` digits of a number. -/
def lastDigits (n : ℕ) : (k : ℕ) → List Char
  | 0 => []
  | k + 1 => (n / 10 ^ k % 10).digitChar :: lastDigits n k

@[simp] theorem length_lastDigits (n k : ℕ) : (lastDigits n k).length = k := by
  induction k with
  | zero => rfl
  | succ k ih => rw [lastDigits, List.length_cons, ih]

theorem toDigits_eq_append (h : 10 ^ k ≤ n) :
    Nat.toDigits 10 n = Nat.toDigits 10 (n / 10 ^ k) ++ lastDigits n k := by
  induction k with
  | zero => rw [pow_zero, Nat.div_one, lastDigits, List.append_nil]
  | succ k ih =>
    rw [pow_succ'] at h
    have hquotient : 10 ≤ n / 10 ^ k := (Nat.le_div_iff_mul_le (by positivity)).2 h
    rw [ih (by omega), Nat.toDigits_of_base_le (by norm_num) hquotient, Nat.div_div_eq_div_mul,
      ← pow_succ, List.append_assoc, List.singleton_append, lastDigits]

/-- The last digits are zeros if the power of ten divides the number. -/
theorem any_lastDigits (n k : ℕ) :
    (lastDigits n k).any (· != '0') = decide (n % 10 ^ k ≠ 0) := by
  induction k with
  | zero => simp [lastDigits, Nat.mod_one]
  | succ k ih =>
    have hdigit : n / 10 ^ k % 10 < 10 := Nat.mod_lt _ (by norm_num)
    have hpower : 0 < 10 ^ k := by positivity
    rw [lastDigits, List.any_cons, ih, Nat.mod_pow_succ]
    generalize n / 10 ^ k % 10 = digit at hdigit
    have hzero : (digit.digitChar != '0') = decide (digit ≠ 0) := by
      interval_cases digit <;> decide
    rw [hzero, ← Bool.decide_or, decide_eq_decide]
    simp only [ne_eq, Nat.add_eq_zero_iff, mul_eq_zero, hpower.ne', false_or]
    tauto

/-- Whether the digits `dropped` behind the digits `kept` round these up. -/
def roundsUp (kept dropped : List Char) : Bool :=
  match dropped with
  | [] => false
  | first :: rest =>
    '5' < first ||
      first == '5' && (kept.getLast?.any (·.toNat % 2 == 1) || rest.any (· != '0'))

/-- The parity of a number is that of the code of its last digit. -/
theorem odd_getLast?_toDigits (n : ℕ) :
    (Nat.toDigits 10 n).getLast?.any (·.toNat % 2 == 1) = (n % 2 == 1) := by
  have hlast : (Nat.toDigits 10 n).getLast? = some (n % 10).digitChar := by
    rw [Nat.toDigits_eq_if (by norm_num)]
    split_ifs with hsmall
    · rw [Nat.mod_eq_of_lt hsmall, List.getLast?_singleton]
    · rw [List.getLast?_concat]
  have hdigit : n % 10 < 10 := Nat.mod_lt _ (by norm_num)
  rw [hlast, Option.any_some, ← Nat.mod_mod_of_dvd n (show 2 ∣ 10 by norm_num)]
  generalize n % 10 = digit at hdigit
  interval_cases digit <;> decide

/-- The digits behind the cut round up where the remainder does. -/
theorem roundsUp_lastDigits (n k q : ℕ) :
    roundsUp (Nat.toDigits 10 q) (lastDigits n k) =
      RoundingMode.tiesEven.roundsUp false (q % 2 == 1) (.ofRemainder (n % 10 ^ k) (10 ^ k)) := by
  cases k with
  | zero =>
    rw [pow_zero, Nat.mod_one]
    rfl
  | succ k =>
    have hdigit : n / 10 ^ k % 10 < 10 := Nat.mod_lt _ (by norm_num)
    have hrest : n % 10 ^ k < 10 ^ k := Nat.mod_lt _ (by positivity)
    rw [roundsUp_ofRemainder (by positivity), lastDigits, roundsUp, any_lastDigits,
      odd_getLast?_toDigits, Nat.mod_pow_succ, pow_succ]
    generalize n / 10 ^ k % 10 = digit at hdigit
    generalize n % 10 ^ k = rest at hrest
    have habove : ('5' < digit.digitChar) ↔ 5 < digit := by
      interval_cases digit <;> decide
    have hhalf : (digit.digitChar == '5') = decide (digit = 5) := by
      interval_cases digit <;> decide
    simp only [habove, hhalf]
    generalize 10 ^ k = power at hrest
    rcases lt_trichotomy digit 5 with hlt | rfl | hgt
    · have hlow : power * digit ≤ power * 4 := Nat.mul_le_mul_left power (by omega)
      simp [hlt.not_gt, hlt.ne, show ¬power * 10 < 2 * (rest + power * digit) by omega,
        show ¬2 * (rest + power * digit) = power * 10 by omega]
    · have hlarge : power * 10 < 2 * (rest + power * 5) ↔ rest ≠ 0 := by omega
      have hequal : 2 * (rest + power * 5) = power * 10 ↔ rest = 0 := by omega
      simp only [hlarge, hequal]
      by_cases hzero : rest = 0 <;> simp [hzero]
    · have hhigh : power * 6 ≤ power * digit := Nat.mul_le_mul_left power (by omega)
      simp [hgt, show power * 10 < 2 * (rest + power * digit) by omega]

/-! ## Digit strings -/

/-- The digits of a decimal rounded, half to even, to at most `limit` of them, and its exponent. -/
def roundedDigits (d : Decimal) (limit : ℕ) : List Char × ℤ :=
  let digits := Nat.toDigits 10 d.coefficient
  if digits.length ≤ limit then (digits, d.exponent)
  else
    let (kept, dropped) := digits.splitAt limit
    (if roundsUp kept dropped then increment kept else kept,
      d.exponent + (digits.length - limit : ℕ))

/-- The significant digits of a decimal rounded to at most `limit` digits, and the exponent `p` that
places it at `0.digits * 10 ^ p`. -/
def digitString (d : Decimal) (limit : ℕ) : List Char × ℤ :=
  let (digits, exponent) := d.roundedDigits limit
  let trailing := (digits.reverse.takeWhile (· == '0')).length
  let significant := digits.take (digits.length - trailing)
  (significant, exponent + trailing + significant.length)

theorem length_toDigits_le (hk : k ≠ 0) (h : n < 10 ^ k) : (Nat.toDigits 10 n).length ≤ k :=
  (Nat.length_toDigits_le_iff (by norm_num) (Nat.pos_of_ne_zero hk)).2 h

/-- The digits are cut into those of the quotient and those of the remainder. -/
theorem splitAt_toDigits {excess : ℕ} (hk : k ≠ 0) (h : digitCount n = k + excess) :
    (Nat.toDigits 10 n).splitAt k =
      (Nat.toDigits 10 (n / 10 ^ excess), lastDigits n excess) := by
  have hn : n ≠ 0 := ne_zero_of_lt_digitCount (show 0 < digitCount n by omega)
  have hpower : 10 ^ excess ≤ n :=
    (Nat.pow_le_pow_right (by norm_num) (by omega)).trans (ten_pow_digitCount_le hn)
  have hcut := toDigits_eq_append hpower
  have hlength := length_toDigits hn
  rw [hcut, List.length_append, length_lastDigits] at hlength
  rw [List.splitAt_eq, hcut, List.take_left' (by omega), List.drop_left' (by omega)]

/-- Cutting the string off and carrying rounds the coefficient. -/
theorem roundedDigits_eq (d : Decimal) (hk : k ≠ 0) :
    d.roundedDigits k = (Nat.toDigits 10 (d.round k).coefficient, (d.round k).exponent) := by
  rcases le_or_gt (digitCount d.coefficient) k with hle | hlt
  · rw [round_of_le hle]
    exact if_pos (length_toDigits_le hk (lt_ten_pow_of_digitCount_le hle))
  · obtain ⟨excess, hexcess⟩ := Nat.exists_eq_add_of_le hlt.le
    have hlength := length_toDigits (ne_zero_of_lt_digitCount hlt)
    unfold roundedDigits
    dsimp only
    rw [if_neg (by omega), splitAt_toDigits hk hexcess, round_of_excess hexcess (by omega),
      hlength, hexcess, Nat.add_sub_cancel_left]
    dsimp only
    rw [roundsUp_lastDigits, RoundingMode.divide, increment_toDigits, apply_ite (Nat.toDigits 10)]

theorem digitString_eq (d : Decimal) (hk : k ≠ 0) : d.digitString k = (d.round k).significand := by
  unfold digitString significand
  rw [roundedDigits_eq d hk]
  dsimp only
  generalize Nat.toDigits 10 (d.round k).coefficient = digits
  have hsplit := List.rdropWhile_append_rtakeWhile (p := (· == '0')) (l := digits)
  have hzeros : (digits.reverse.takeWhile (· == '0')).length =
      (digits.rtakeWhile (· == '0')).length := List.length_reverse.symm
  have hlength := congrArg List.length hsplit
  rw [List.length_append] at hlength
  have htake : (digits.rdropWhile (· == '0') ++ digits.rtakeWhile (· == '0')).take
      (digits.length - (digits.rtakeWhile (· == '0')).length) = digits.rdropWhile (· == '0') :=
    List.take_left' (by omega)
  rw [hsplit] at htake
  rw [hzeros, htake]
  refine Prod.ext rfl ?_
  dsimp only
  omega

theorem coefficient_round_le (d : Decimal) (k : ℕ) : (d.round k).coefficient ≤ 10 ^ k := by
  rcases le_or_gt (digitCount d.coefficient) k with hle | hlt
  · rw [round_of_le hle]
    exact (lt_ten_pow_of_digitCount_le hle).le
  · obtain ⟨excess, hexcess⟩ := Nat.exists_eq_add_of_le hlt.le
    have hhigh := lt_ten_pow_of_digitCount_le hexcess.le
    rw [pow_add] at hhigh
    have hquotient : d.coefficient / 10 ^ excess < 10 ^ k :=
      (Nat.div_lt_iff_lt_mul (by positivity)).2 hhigh
    rw [round_of_excess hexcess (by omega), RoundingMode.divide]
    dsimp only
    split_ifs <;> omega

/-- A carry can add a digit, but this leaves a zero at the end, which goes. -/
theorem length_digitString_le (d : Decimal) (hk : k ≠ 0) : (d.digitString k).1.length ≤ k := by
  rw [digitString_eq d hk]
  change ((Nat.toDigits 10 _).rdropWhile (· == '0')).length ≤ k
  rcases (coefficient_round_le d k).lt_or_eq with hlt | hcarry
  · exact (List.rdropWhile_prefix _ _).length_le.trans (length_toDigits_le hk hlt)
  · obtain ⟨k, rfl⟩ := Nat.exists_eq_succ_of_ne_zero hk
    have hpower : 10 ^ k < 10 ^ (k + 1) := Nat.pow_lt_pow_right (by norm_num) (Nat.lt_succ_self k)
    have hten : 10 ≤ 10 ^ (k + 1) := Nat.le_self_pow (Nat.succ_ne_zero k) 10
    rw [hcarry, Nat.toDigits_of_base_le (by norm_num) hten, pow_succ,
      Nat.mul_div_cancel _ (by norm_num), Nat.mul_mod_left,
      List.rdropWhile_concat_pos _ _ _ (by rfl)]
    exact (List.rdropWhile_prefix _ _).length_le.trans
      (length_toDigits_le (Nat.succ_ne_zero k) hpower)

theorem digitString_ne_nil (hd : 0 < d.value) (hk : k ≠ 0) : (d.digitString k).1 ≠ [] := by
  rw [digitString_eq d hk]
  obtain ⟨k, rfl⟩ := Nat.exists_eq_succ_of_ne_zero hk
  exact significand_ne_nil (value_round_pos hd k)

end Decimal
end ExactSphere
