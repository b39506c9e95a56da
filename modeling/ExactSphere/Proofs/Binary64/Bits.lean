import ExactSphere.Binary64
import ExactSphere.Bits
import ExactSphere.Proofs.Binary64.Native

/-!
# The bits of doubles

What a double stands for is read off its sign, its exponent field and its fraction
(`datum_of_normal_bits` and the lemmas beside it), and what a double made from bits stands for is
read off these bits (`datum_ofBits_of_normal`).
-/

namespace ExactSphere.Binary64

open Float.Model (UnpackedFloat Format)
open Float.Model.UnpackedFloat hiding Sign

/-! ## Words -/

section Words

variable (b : UInt64)

theorem toNat_unpackMantissa :
    (@unpackMantissa .binary64 b.toBitVec).toNat = b.toNat % signBit % 2 ^ 52 := by
  change b.toNat >>> 0 % 2 ^ 52 = _
  rw [Nat.shiftRight_zero, signBit]
  omega

theorem toNat_unpackExponent :
    (@unpackExponent .binary64 b.toBitVec).toNat = b.toNat % signBit / 2 ^ 52 := by
  change b.toNat >>> 52 % 2 ^ 11 = _
  rw [Nat.shiftRight_eq_div_pow, signBit]
  omega

theorem apply_unpackSign (n : ℕ) :
    (UnpackedFloat.Sign.ofBitVec (@unpackSign .binary64 b.toBitVec)).apply n =
      signedInt (decide (signBit ≤ b.toNat)) n := by
  have hlt : b.toNat < 2 ^ 64 := b.toNat_lt
  have htoNat : (@unpackSign .binary64 b.toBitVec).toNat = b.toNat / 2 ^ 63 := by
    change b.toNat >>> 63 % 2 ^ 1 = _
    rw [Nat.shiftRight_eq_div_pow]
    omega
  by_cases hsign : signBit ≤ b.toNat
  · have hne : @unpackSign .binary64 b.toBitVec ≠ 0#1 := by
      intro h
      rw [h, BitVec.toNat_ofNat] at htoNat
      unfold signBit at hsign
      omega
    rw [UnpackedFloat.Sign.ofBitVec, if_neg hne, decide_eq_true hsign]
    rfl
  · have heq : @unpackSign .binary64 b.toBitVec = 0#1 := by
      apply BitVec.eq_of_toNat_eq
      unfold signBit at hsign
      rw [htoNat, BitVec.toNat_ofNat]
      omega
    rw [UnpackedFloat.Sign.ofBitVec, if_pos heq, decide_eq_false hsign]
    rfl

variable {b}

theorem ofUnpacked_of_subnormal (h : b.toNat % signBit / 2 ^ 52 = 0) :
    Datum.ofUnpacked (unpack .binary64 b.toBitVec) =
      .number (signedInt (decide (signBit ≤ b.toNat)) (b.toNat % signBit % 2 ^ 52) *
        2 ^ (-1074 : ℤ)) := by
  rw [← toNat_unpackExponent] at h
  have hones : @unpackExponent .binary64 b.toBitVec ≠ -1#11 := by
    intro hones
    rw [hones] at h
    exact absurd h (by decide)
  have hzero : @unpackExponent .binary64 b.toBitVec = 0#11 := BitVec.eq_of_toNat_eq h
  rw [← toNat_unpackMantissa, ← apply_unpackSign]
  unfold unpack
  dsimp only
  rw [if_neg hones, if_pos hzero]
  split_ifs with hfraction
  · rw [hfraction]
    cases UnpackedFloat.Sign.ofBitVec (@unpackSign .binary64 b.toBitVec) <;>
      simp [Datum.ofUnpacked, UnpackedFloat.Sign.apply]
  · rw [Datum.ofUnpacked, h]
    rfl

theorem ofUnpacked_of_normal (hmin : b.toNat % signBit / 2 ^ 52 ≠ 0)
    (hmax : b.toNat % signBit / 2 ^ 52 ≠ 2047) :
    Datum.ofUnpacked (unpack .binary64 b.toBitVec) =
      .number (signedInt (decide (signBit ≤ b.toNat)) (2 ^ 52 + b.toNat % signBit % 2 ^ 52) *
        2 ^ ((b.toNat % signBit / 2 ^ 52 : ℕ) - 1075 : ℤ)) := by
  rw [← toNat_unpackExponent] at hmin hmax
  have hones : @unpackExponent .binary64 b.toBitVec ≠ -1#11 := fun h => hmax (by rw [h]; rfl)
  have hzero : @unpackExponent .binary64 b.toBitVec ≠ 0#11 := fun h => hmin (by rw [h]; rfl)
  have happend : (1#1 ++ @unpackMantissa .binary64 b.toBitVec).toNat =
      2 ^ 52 + (@unpackMantissa .binary64 b.toBitVec).toNat := by
    rw [BitVec.toNat_append, ← Nat.shiftLeft_add_eq_or_of_lt (BitVec.isLt _)]
    rfl
  rw [← toNat_unpackExponent, ← toNat_unpackMantissa, ← apply_unpackSign]
  unfold unpack
  dsimp only
  rw [if_neg hones, if_neg hzero, Datum.ofUnpacked, happend]
  rfl

end Words

/-! ## Doubles -/

theorem not_isFinite_of_bits {x : Float} (h : magnitudeBits x / 2 ^ 52 = 2047) :
    x.isFinite = false := by
  have hones : @unpackExponent .binary64 x.toModel.toBits.toBitVec = -1#11 :=
    BitVec.eq_of_toNat_eq ((toNat_unpackExponent x.toBits).trans h)
  unfold Float.isFinite Float.Model.isFinite Float.Model.unpack unpack
  dsimp only
  rw [if_pos hones]
  split_ifs <;> rfl

theorem datum_of_subnormal_bits {x : Float} (h : magnitudeBits x / 2 ^ 52 = 0) :
    datum x = .number (signedInt (isNegative x) (magnitudeBits x % 2 ^ 52) * 2 ^ (-1074 : ℤ)) :=
  ofUnpacked_of_subnormal (b := x.toBits) h

theorem datum_of_normal_bits {x : Float} (hmin : magnitudeBits x / 2 ^ 52 ≠ 0)
    (hmax : magnitudeBits x / 2 ^ 52 ≠ 2047) :
    datum x = .number (signedInt (isNegative x) (2 ^ 52 + magnitudeBits x % 2 ^ 52) *
      2 ^ ((magnitudeBits x / 2 ^ 52 : ℕ) - 1075 : ℤ)) :=
  ofUnpacked_of_normal (b := x.toBits) hmin hmax

/-- The double made from a sign, a mantissa with its hidden bit and the exponent of its last bit. -/
theorem datum_ofBits_of_normal {s : Bool} {units : ℕ} {unit : ℤ} (hlow : 2 ^ 52 ≤ units)
    (hhigh : units < 2 ^ 53) (hmin : -1074 ≤ unit) (hmax : unit ≤ 971) :
    datum (.ofBits (.ofNat ((if s then signBit else 0) +
        ((unit + 1074).toNat * 2 ^ 52 + units)))) = .number (signedInt s units * 2 ^ unit) := by
  obtain ⟨field, rfl⟩ : ∃ field : ℕ, unit = field - 1074 := ⟨(unit + 1074).toNat, by omega⟩
  rw [show ((field : ℤ) - 1074 + 1074).toNat = field by omega]
  have hmagnitude : field * 2 ^ 52 + units < signBit := by
    unfold signBit
    omega
  generalize hword : (if s then signBit else 0) + (field * 2 ^ 52 + units) = word
  have hsign : decide (signBit ≤ word) = s := by
    cases s <;> simp at hword ⊢ <;> omega
  have hlt : word < 2 ^ 64 := by
    unfold signBit at *
    cases s <;> simp at hword <;> omega
  have hmod : word % signBit = field * 2 ^ 52 + units := by
    rw [← hword]
    cases s
    · rw [if_neg Bool.false_ne_true, Nat.zero_add, Nat.mod_eq_of_lt hmagnitude]
    · rw [if_pos rfl, Nat.add_mod_left, Nat.mod_eq_of_lt hmagnitude]
  have htoNat : (UInt64.ofNat word).toNat = word := by
    rw [UInt64.toNat_ofNat', Nat.mod_eq_of_lt hlt]
  have hfield : word % signBit / 2 ^ 52 = field + 1 := by omega
  have hfraction : 2 ^ 52 + word % signBit % 2 ^ 52 = units := by omega
  have hnormal := ofUnpacked_of_normal (b := .ofNat word) (by rw [htoNat]; omega)
    (by rw [htoNat]; omega)
  rw [htoNat, hfield, hfraction, hsign] at hnormal
  have habs : |(signedInt s units : ℚ)| = units := by cases s <;> simp [signedInt]
  have hbelow : |(signedInt s units : ℚ) * 2 ^ ((field : ℤ) - 1074)| < 2 ^ (1024 : ℤ) := by
    rw [abs_mul, habs, abs_of_pos (zpow_pos two_pos _)]
    calc (units : ℚ) * 2 ^ ((field : ℤ) - 1074) < 2 ^ (53 : ℤ) * 2 ^ ((field : ℤ) - 1074) :=
          mul_lt_mul_of_pos_right (by exact_mod_cast hhigh) (zpow_pos two_pos _)
      _ = 2 ^ (53 + ((field : ℤ) - 1074)) := (zpow_add₀ two_ne_zero _ _).symm
      _ ≤ 2 ^ (1024 : ℤ) := zpow_le_zpow_right₀ one_le_two (by omega)
  have hexponent : ((field + 1 : ℕ) : ℤ) - 1075 = field - 1074 := by omega
  rw [datum_ofBits, hnormal, hexponent]
  exact if_pos hbelow

end ExactSphere.Binary64
