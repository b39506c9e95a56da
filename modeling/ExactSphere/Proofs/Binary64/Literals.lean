import ExactSphere.Proofs.Binary64.Native

/-!
# The values of the doubles that formulas mention

Small integers and powers of two are doubles, so a literal stands for itself.
-/

namespace ExactSphere.Binary64

open Float.Model (UnpackedFloat)

theorem datum_of_unpack {x : Float} {m : ℕ} {e : ℤ} {hm : 0 < m}
    (h : x.toModel.unpack = .finite .positive m e hm) : datum x = .number (m * 2 ^ e) := by
  rw [datum, h, Datum.ofUnpacked]
  simp [UnpackedFloat.Sign.apply]

/-- A double with the mantissa of one is a power of two. -/
theorem datum_of_unpack_one {x : Float} {e : ℤ} {hm : 0 < 2 ^ 52}
    (h : x.toModel.unpack = .finite .positive (2 ^ 52) e hm) :
    datum x = .number (2 ^ (52 + e)) := by
  rw [datum_of_unpack h, zpow_add₀ two_ne_zero]
  norm_num

theorem datum_ofNat {n : ℕ} (hn : n < 2 ^ 53) : datum (Float.ofNat n) = .number n := by
  have hround := Datum.round_natCast_mul_zpow (e := 0) hn.le (by norm_num) le_rfl
  rw [zpow_zero, mul_one] at hround
  have hinteger : datum n.toUInt64.toFloat = .number n := by
    obtain ⟨hcanonical, hvalue⟩ := normalize_eq n.toUInt64.toNat 0 .positive
    have hn64 : n.toUInt64.toNat = n := by
      simp only [Nat.toUInt64, UInt64.toNat_ofNat']
      exact Nat.mod_eq_of_lt (hn.trans (by norm_num))
    refine (ofUnpacked_unpack_pack hcanonical).trans ?_
    rw [hvalue, hn64]
    simpa [Datum.clipped, Datum.round] using hround
  have hone : datum (Float.ofBits 0x3FF0000000000000) = .number 1 := by
    rw [datum_of_unpack_one (x := .ofBits 0x3FF0000000000000) (e := -52) rfl]
    norm_num
  have hofNat : Float.ofNat n = n.toUInt64.toFloat * Float.ofBits 0x3FF0000000000000 := by
    change Float.ofScientific n false 0 = _
    unfold Float.ofScientific
    rw [dif_pos ⟨hn, by norm_num⟩]
    rfl
  rw [hofNat, datum_mul, hinteger, hone, Datum.mul_number, mul_one, hround]

@[simp] theorem datum_zero : datum 0 = .number 0 := rfl

@[simp] theorem datum_one : datum 1 = .number 1 := datum_ofNat (n := 1) (by norm_num)

theorem beq_zero_iff {x : Float} : (x == 0) = true ↔ datum x = .number 0 := by
  rw [beq_iff_datum_eq, datum_zero, and_iff_left_of_imp]
  rintro h
  rw [h]
  exact nofun

@[simp] theorem value_zero : value 0 = 0 := value_of_datum datum_zero

@[simp] theorem value_one : value 1 = 1 := value_of_datum datum_one

@[simp] theorem value_two : value 2 = 2 := value_of_datum (datum_ofNat (n := 2) (by norm_num))

@[simp] theorem value_four : value 4 = 4 := value_of_datum (datum_ofNat (n := 4) (by norm_num))

@[simp] theorem value_half : value 0.5 = 1 / 2 := by
  have hbits : (0.5 : Float) = .ofBits 0x3FE0000000000000 := by decide +kernel
  rw [hbits, value_of_datum (datum_of_unpack_one (e := -53) rfl)]
  norm_num

@[simp] theorem value_quarter : value 0.25 = 1 / 4 := by
  have hbits : (0.25 : Float) = .ofBits 0x3FD0000000000000 := by decide +kernel
  rw [hbits, value_of_datum (datum_of_unpack_one (e := -54) rfl)]
  norm_num

theorem datum_unitRoundoff : datum unitRoundoff = .number (2 ^ (-53 : ℤ)) :=
  datum_of_unpack_one (e := -105) rfl

theorem datum_minNormal : datum minNormal = .number (2 ^ (-1022 : ℤ)) :=
  datum_of_unpack_one (e := -1074) rfl

theorem datum_sqrtTwo : datum sqrtTwo = .number (6369051672525773 * 2 ^ (-52 : ℤ)) :=
  datum_of_unpack (m := 6369051672525773) rfl

theorem datum_log10Two : datum log10Two = .number (5422874305198591 * 2 ^ (-54 : ℤ)) :=
  datum_of_unpack (m := 5422874305198591) rfl

end ExactSphere.Binary64
