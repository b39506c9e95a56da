import ExactSphere.Proofs.Binary64.Bits
import ExactSphere.Proofs.BigFloat.Value
import Mathlib.Order.Monotone.Basic

/-!
# The sign bit, and the bits of a double

The sign bit of a double is the sign of what the double stands for, except that a zero has one too.
The bits below it count the finite magnitudes upwards (`strictMono_units`). So the bits of a double
are determined by what it stands for and its sign bit (`toBits_eq_of_datum`).
-/

namespace ExactSphere.Binary64

open Float.Model (UnpackedFloat Format)
open Float.Model.UnpackedFloat hiding Sign

variable {x y : Float} {v : ℚ} {s : Bool}

/-! ## Infinities and NaN -/

theorem isNaN_iff : x.isNaN = true ↔ datum x = .nan := by
  unfold Float.isNaN Float.Model.isNaN datum
  cases x.toModel.unpack <;> simp [UnpackedFloat.isNaN, Datum.ofUnpacked]

theorem ofUnpacked_of_infinite {b : UInt64} (hfield : b.toNat % signBit / 2 ^ 52 = 2047) :
    Datum.ofUnpacked (unpack .binary64 b.toBitVec) =
      if b.toNat % signBit % 2 ^ 52 = 0 then .infinity (decide (signBit ≤ b.toNat)) else .nan := by
  have hones : @unpackExponent .binary64 b.toBitVec = -1#11 :=
    BitVec.eq_of_toNat_eq ((toNat_unpackExponent b).trans hfield)
  have hsign := apply_unpackSign b 1
  rw [← toNat_unpackMantissa]
  unfold unpack
  dsimp only
  rw [if_pos hones]
  by_cases hfraction : @unpackMantissa .binary64 b.toBitVec = 0#52
  · rw [if_pos hfraction, if_pos (by rw [hfraction]; rfl)]
    cases hcase : UnpackedFloat.Sign.ofBitVec (@unpackSign .binary64 b.toBitVec) <;>
      cases hbit : decide (signBit ≤ b.toNat) <;> rw [hcase, hbit] at hsign <;>
      first | rfl | exact absurd hsign (by decide)
  · have hne : (@unpackMantissa .binary64 b.toBitVec).toNat ≠ 0 := fun hzero =>
      hfraction (BitVec.eq_of_toNat_eq hzero)
    rw [if_neg hfraction, if_neg hne]
    rfl

/-- A double above the finite ones is an infinity or NaN. -/
theorem datum_of_infinite_bits (h : magnitudeBits x / 2 ^ 52 = 2047) :
    datum x = if magnitudeBits x % 2 ^ 52 = 0 then .infinity (isNegative x) else .nan :=
  ofUnpacked_of_infinite (b := x.toBits) h

/-! ## Magnitudes -/

/-- The magnitude of a finite double with the given bits below the sign, in units of the smallest
double. -/
def units (bits : ℕ) : ℕ :=
  if bits / 2 ^ 52 = 0 then bits % 2 ^ 52 else (2 ^ 52 + bits % 2 ^ 52) * 2 ^ (bits / 2 ^ 52 - 1)

theorem strictMono_units : StrictMono units := by
  refine strictMono_nat_of_lt_succ fun bits => ?_
  unfold units
  -- the next magnitude is in the same binade, or it is the first one of the next binade
  have hcarry : (bits + 1) / 2 ^ 52 = bits / 2 ^ 52 ∧ (bits + 1) % 2 ^ 52 = bits % 2 ^ 52 + 1 ∨
      (bits + 1) / 2 ^ 52 = bits / 2 ^ 52 + 1 ∧ (bits + 1) % 2 ^ 52 = 0 ∧
        bits % 2 ^ 52 = 2 ^ 52 - 1 := by omega
  generalize bits / 2 ^ 52 = field at *
  generalize bits % 2 ^ 52 = fraction at *
  rcases hcarry with ⟨hfield, hfraction⟩ | ⟨hfield, hfraction, hlast⟩
  · rw [hfield, hfraction]
    split_ifs
    · omega
    · exact Nat.mul_lt_mul_of_pos_right (by omega) (by positivity)
  · rw [hfield, hfraction, hlast, if_neg (Nat.succ_ne_zero field), Nat.add_sub_cancel]
    split_ifs with hzero
    · rw [hzero]
      norm_num
    · obtain ⟨k, rfl⟩ := Nat.exists_eq_succ_of_ne_zero hzero
      rw [Nat.succ_sub_one, Nat.pow_succ]
      have : 0 < 2 ^ k := by positivity
      omega

/-- A finite double counts the units of its bits, with the sign of its sign bit. -/
theorem datum_of_finite_bits (h : magnitudeBits x / 2 ^ 52 ≠ 2047) :
    datum x = .number (signedInt (isNegative x) (units (magnitudeBits x)) * 2 ^ (-1074 : ℤ)) := by
  unfold units
  split_ifs with hfield
  · exact datum_of_subnormal_bits hfield
  · have hexponent : ((magnitudeBits x / 2 ^ 52 - 1 : ℕ) : ℤ) + -1074 =
        (magnitudeBits x / 2 ^ 52 : ℕ) - 1075 := by omega
    rw [datum_of_normal_bits hfield h, ← Nat.shiftLeft_eq, signedInt_shiftLeft, Int.cast_mul,
      Int.cast_pow, mul_assoc, ← zpow_natCast, Int.cast_ofNat, ← zpow_add₀ two_ne_zero, hexponent]

/-! ## The sign bit -/

/-- A double that stands for a number other than zero has the sign of that number. -/
theorem isNegative_of_number (h : datum x = .number v) (hv : v ≠ 0) :
    isNegative x = decide (v < 0) := by
  by_cases hfield : magnitudeBits x / 2 ^ 52 = 2047
  · rw [datum_of_infinite_bits hfield] at h
    split_ifs at h
  · rw [datum_of_finite_bits hfield, Datum.number.injEq] at h
    have hpos : (0 : ℚ) < 2 ^ (-1074 : ℤ) := by positivity
    subst h
    have hunits : (0 : ℚ) < units (magnitudeBits x) := by
      rw [Nat.cast_pos, Nat.pos_iff_ne_zero]
      intro hzero
      rw [hzero] at hv
      cases hsign : isNegative x <;> simp [hsign, signedInt] at hv
    have hproduct := mul_pos hunits hpos
    cases isNegative x
    · exact (decide_eq_false (not_lt.2 hproduct.le)).symm
    · refine (decide_eq_true ?_).symm
      simpa [signedInt] using hproduct

theorem isNegative_of_infinity (h : datum x = .infinity s) : isNegative x = s := by
  by_cases hfield : magnitudeBits x / 2 ^ 52 = 2047
  · rw [datum_of_infinite_bits hfield] at h
    split_ifs at h
    exact Datum.infinity.inj h
  · rw [datum_of_finite_bits hfield] at h
    cases h

/-! ## The bits -/

theorem toNat_toBits (x : Float) :
    x.toBits.toNat = (if isNegative x then signBit else 0) + magnitudeBits x := by
  have hlt := x.toBits.toNat_lt
  unfold isNegative magnitudeBits signBit
  split_ifs with hsign <;> simp only [decide_eq_true_eq] at hsign <;> omega

theorem magnitudeBits_of_infinite (h : magnitudeBits x / 2 ^ 52 = 2047) (hnan : datum x ≠ .nan) :
    magnitudeBits x = infinityBits := by
  rw [datum_of_infinite_bits h] at hnan
  split_ifs at hnan with hfraction
  · unfold infinityBits
    omega
  · exact absurd rfl hnan

theorem magnitudeBits_eq_of_datum (h : datum x = datum y) (hnan : datum x ≠ .nan) :
    magnitudeBits x = magnitudeBits y := by
  by_cases hxfield : magnitudeBits x / 2 ^ 52 = 2047 <;>
    by_cases hyfield : magnitudeBits y / 2 ^ 52 = 2047
  · rw [magnitudeBits_of_infinite hxfield hnan, magnitudeBits_of_infinite hyfield (h ▸ hnan)]
  · rw [datum_of_infinite_bits hxfield, datum_of_finite_bits hyfield] at h
    split_ifs at h
  · rw [datum_of_finite_bits hxfield, datum_of_infinite_bits hyfield] at h
    split_ifs at h
  · rw [datum_of_finite_bits hxfield, datum_of_finite_bits hyfield, Datum.number.injEq] at h
    have habs := congrArg (fun z : ℚ => |z|) h
    simp only [abs_signedInt_mul_zpow] at habs
    have hunits : (units (magnitudeBits x) : ℚ) = units (magnitudeBits y) :=
      mul_right_cancel₀ (by positivity) habs
    exact strictMono_units.injective (by exact_mod_cast hunits)

/-- What a double stands for and its sign bit determine all its bits, if it is not NaN. -/
theorem toBits_eq_of_datum (h : datum x = datum y) (hsign : isNegative x = isNegative y)
    (hnan : datum x ≠ .nan) : x.toBits = y.toBits := by
  apply UInt64.toNat_inj.1
  rw [toNat_toBits, toNat_toBits, hsign, magnitudeBits_eq_of_datum h hnan]

end ExactSphere.Binary64
