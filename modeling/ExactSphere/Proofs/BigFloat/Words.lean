import ExactSphere.Proofs.BigFloat.Value

/-!
# The words of exact arithmetic

Exponents and bit counts are signed 32-bit words. Canonical values leave room in them: no sum,
difference or product of canonical values comes to an exponent or a bit count beyond a word, and
the results are canonical again.
-/

namespace ExactSphere

/-! ## Bit counts of sums and products -/

theorem bitLength_le_iff {n k : ℕ} : bitLength n ≤ k ↔ n < 2 ^ k := by
  constructor
  · intro h
    exact (lt_two_pow_bitLength n).trans_le (Nat.pow_le_pow_right two_pos h)
  · intro h
    by_cases hn : n = 0
    · simp [hn]
    · have := (Nat.pow_lt_pow_iff_right one_lt_two).1 ((two_pow_le_of_bitLength hn).trans_lt h)
      omega

theorem bitLength_mul_le (m n : ℕ) : bitLength (m * n) ≤ bitLength m + bitLength n := by
  rw [bitLength_le_iff, pow_add]
  exact Nat.mul_lt_mul'' (lt_two_pow_bitLength m) (lt_two_pow_bitLength n)

theorem bitLength_natAbs_add_le (i j : ℤ) :
    bitLength (i + j).natAbs ≤ max (bitLength i.natAbs) (bitLength j.natAbs) + 1 := by
  rw [bitLength_le_iff, Nat.pow_succ]
  have hi := bitLength_le_iff.1 (le_max_left (bitLength i.natAbs) (bitLength j.natAbs))
  have hj := bitLength_le_iff.1 (le_max_right (bitLength i.natAbs) (bitLength j.natAbs))
  have := Int.natAbs_add_le i j
  omega

theorem trailingZeros_le_bitLength (n : ℕ) : trailingZeros n ≤ bitLength n := by
  by_cases hn : n = 0
  · subst hn
    decide
  · rw [bitLength_eq_add_trailingZeros hn]
    exact Nat.le_add_left _ _

namespace BigFloat

/-! ## Canonical results -/

variable {x y : BigFloat} {s t : Bool} {m n : ℕ} {e f : ℤ}

theorem canonical_ofParts (s : Bool) (n : ℕ) (e : ℤ) : (ofParts s n e).Canonical := by
  by_cases hn : n = 0
  · simp [ofParts, hn, zero, Canonical]
  by_cases hlow : e + bitLength n < minExponent
  · simp [ofParts, hn, hlow, zero, Canonical]
  by_cases hhigh : maxExponent < e + bitLength n
  · simp [ofParts, hn, hlow, hhigh, infinity, Canonical]
  rw [ofParts_of_le hn (not_lt.1 hlow) (not_lt.1 hhigh)]
  split_ifs with hwide
  · exact trivial
  · have hbits := bitLength_eq_add_trailingZeros hn
    exact ⟨(shiftRight_trailingZeros hn).1, by omega, by omega, not_lt.1 hwide⟩

theorem canonical_addAligned (s : Bool) (m : ℕ) (e : ℤ) (t : Bool) (n : ℕ) (f : ℤ) :
    (addAligned s m e t n f).Canonical := by
  unfold addAligned
  split_ifs
  · exact trivial
  · exact canonical_ofParts _ _ _

theorem canonical_add (hx : x.Canonical) (hy : y.Canonical) : (x + y).Canonical := by
  obtain ⟨s, _ | ⟨m, e⟩ | _ | _⟩ := x <;> obtain ⟨t, _ | ⟨n, f⟩ | _ | _⟩ := y
  case finite.finite =>
    change (if e < f then addAligned t n f s m e else addAligned s m e t n f).Canonical
    split_ifs <;> exact canonical_addAligned _ _ _ _ _ _
  case infinity.infinity =>
    change (if s = t then (infinity s) else nan).Canonical
    split_ifs <;> exact trivial
  all_goals first | exact hx | exact hy

theorem canonical_neg (hx : x.Canonical) : (-x).Canonical := hx

theorem canonical_abs (hx : x.Canonical) : x.abs.Canonical := hx

theorem canonical_sub (hx : x.Canonical) (hy : y.Canonical) : (x - y).Canonical := by
  change (if y.isNaN then x + y else x + -y).Canonical
  split_ifs
  · exact canonical_add hx hy
  · exact canonical_add hx (canonical_neg hy)

theorem canonical_mul (hx : x.Canonical) (hy : y.Canonical) : (x * y).Canonical := by
  obtain ⟨s, _ | ⟨m, e⟩ | _ | _⟩ := x <;> obtain ⟨t, _ | ⟨n, f⟩ | _ | _⟩ := y
  case finite.finite =>
    change (if maxPrecision < bitLength m + bitLength n - 1 then nan
      else ofParts (s != t) (m * n) (e + f)).Canonical
    split_ifs
    · exact trivial
    · exact canonical_ofParts _ _ _
  all_goals exact trivial

theorem canonical_ofFloat (x : Float) : (ofFloat x).Canonical := by
  unfold ofFloat
  dsimp only
  split_ifs
  · exact trivial
  · exact trivial
  · exact canonical_ofParts _ _ _
  · exact canonical_ofParts _ _ _

/-! ## Words -/

/-- Whether a signed 32-bit word holds the integer. -/
def fitsWord (i : ℤ) : Bool := -2147483648 ≤ i ∧ i < 2147483648

theorem fitsWord_iff {i : ℤ} : fitsWord i = true ↔ -2147483648 ≤ i ∧ i < 2147483648 :=
  decide_eq_true_iff

/-- An unsigned word is the signed one of its number if it has a bit to spare. -/
theorem toInt_toInt64_of_lt {word : UInt64} (h : word.toNat < 2 ^ 63) :
    word.toInt64.toInt = word.toNat :=
  BitVec.toInt_eq_toNat_of_lt (x := word.toBitVec) (show 2 * word.toNat < 2 ^ 64 by omega)

/-- Whether words hold the parts of a value and what `ofParts` computes from them. -/
def partsFit (mantissa : ℕ) (exponent : ℤ) : Bool :=
  fitsWord exponent && fitsWord (bitLength mantissa) && fitsWord (trailingZeros mantissa) &&
    fitsWord (exponent + trailingZeros mantissa)

/-- Whether words hold what `addAligned` computes: the upper end of the second value, the shift of
the first, and the parts of the sum. -/
def alignedFits (s : Bool) (m : ℕ) (e : ℤ) (t : Bool) (n : ℕ) (f : ℤ) : Bool :=
  fitsWord (f + bitLength n) && fitsWord (e - f) &&
    partsFit (signedInt s (m <<< (e - f).toNat) + signedInt t n).natAbs f

/-- Whether words hold what a sum computes. -/
def sumFits (x y : BigFloat) : Bool :=
  match x.magnitude, y.magnitude with
  | .finite m e, .finite n f =>
    if e < f then alignedFits y.negative n f x.negative m e
    else alignedFits x.negative m e y.negative n f
  | _, _ => true

/-- Whether words hold what a product computes: the precisions and the exponents are added. -/
def productFits (x y : BigFloat) : Bool :=
  match x.magnitude, y.magnitude with
  | .finite m e, .finite n f =>
    fitsWord (bitLength m + bitLength n) && fitsWord (e + f) && partsFit (m * n) (e + f)
  | _, _ => true

/-- Whether words hold what the conversion of a double computes. -/
def conversionFits (x : Float) : Bool :=
  let bits := Binary64.magnitudeBits x
  let fraction := bits &&& 0xFFFFFFFFFFFFF
  let biased := bits >>> 52
  if Binary64.infinityBits ≤ bits then true
  else if biased = 0 then partsFit fraction Binary64.minExponent
  else partsFit (fraction ||| 0x10000000000000) (biased - 1075)

theorem partsFit_of_le (hmin : -1073741824 ≤ e) (hmax : e ≤ 536870912)
    (hbits : bitLength n ≤ 1073741824) : partsFit n e = true := by
  have := trailingZeros_le_bitLength n
  simp only [partsFit, fitsWord, Bool.and_eq_true, decide_eq_true_eq]
  omega

/-- The exponent of a canonical value. -/
theorem Canonical.exponent_le (h : Canonical ⟨s, .finite m e⟩) :
    -267108864 ≤ e ∧ e ≤ 200000000 ∧ bitLength m ≤ 67108864 := by
  obtain ⟨-, hmin, hmax, hbits⟩ := h
  unfold minExponent at hmin
  unfold maxExponent at hmax
  unfold maxPrecision at hbits
  omega

theorem alignedFits_of_canonical (hx : Canonical ⟨s, .finite m e⟩)
    (hy : Canonical ⟨t, .finite n f⟩) (hfe : f ≤ e) : alignedFits s m e t n f = true := by
  have hsum := bitLength_natAbs_add_le (signedInt s (m <<< (e - f).toNat)) (signedInt t n)
  rw [signedInt_natAbs, signedInt_natAbs, Nat.shiftLeft_eq] at hsum
  have hshift := bitLength_mul_le m (2 ^ (e - f).toNat)
  have hpow : bitLength (2 ^ (e - f).toNat) ≤ (e - f).toNat + 1 :=
    bitLength_le_iff.2 (Nat.pow_lt_pow_right one_lt_two (Nat.lt_succ_self _))
  have := hx.exponent_le
  have := hy.exponent_le
  have hparts : partsFit (signedInt s (m <<< (e - f).toNat) + signedInt t n).natAbs f = true := by
    rw [Nat.shiftLeft_eq]
    exact partsFit_of_le (by omega) (by omega) (by omega)
  rw [alignedFits, hparts]
  simp only [fitsWord, Bool.and_true, Bool.and_eq_true, decide_eq_true_eq]
  omega

theorem sumFits_of_canonical (hx : x.Canonical) (hy : y.Canonical) : sumFits x y = true := by
  obtain ⟨s, _ | ⟨m, e⟩ | _ | _⟩ := x <;> obtain ⟨t, _ | ⟨n, f⟩ | _ | _⟩ := y
  case finite.finite =>
    dsimp only [sumFits]
    split_ifs with hlt
    · exact alignedFits_of_canonical hy hx hlt.le
    · exact alignedFits_of_canonical hx hy (not_lt.1 hlt)
  all_goals rfl

theorem productFits_of_canonical (hx : x.Canonical) (hy : y.Canonical) :
    productFits x y = true := by
  obtain ⟨s, _ | ⟨m, e⟩ | _ | _⟩ := x <;> obtain ⟨t, _ | ⟨n, f⟩ | _ | _⟩ := y
  case finite.finite =>
    have := bitLength_mul_le m n
    have := hx.exponent_le
    have := hy.exponent_le
    have hparts : partsFit (m * n) (e + f) = true :=
      partsFit_of_le (by omega) (by omega) (by omega)
    dsimp only [productFits]
    rw [hparts]
    simp only [fitsWord, Bool.and_true, Bool.and_eq_true, decide_eq_true_eq]
    omega
  all_goals rfl

theorem conversionFits_eq (x : Float) : conversionFits x = true := by
  have hfraction : Binary64.magnitudeBits x &&& 0xFFFFFFFFFFFFF < 2 ^ 52 :=
    Nat.and_lt_two_pow _ (by norm_num)
  unfold conversionFits
  dsimp only
  split_ifs with hinfinite hsubnormal
  · rfl
  · have := bitLength_le_iff.2 hfraction
    exact partsFit_of_le (by decide) (by decide) (by omega)
  · have hor : Binary64.magnitudeBits x &&& 0xFFFFFFFFFFFFF ||| 0x10000000000000 < 2 ^ 53 :=
      Nat.or_lt_two_pow (hfraction.trans (by norm_num)) (by norm_num)
    have := bitLength_le_iff.2 hor
    have hbiased : Binary64.magnitudeBits x >>> 52 ≤ 2047 := by
      rw [Nat.shiftRight_eq_div_pow]
      unfold Binary64.infinityBits at hinfinite
      omega
    exact partsFit_of_le (by omega) (by omega) (by omega)

end BigFloat
end ExactSphere
