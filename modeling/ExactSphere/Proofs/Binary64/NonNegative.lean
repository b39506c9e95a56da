import ExactSphere.Proofs.Binary64.Literals

/-!
# Doubles that are not negative

Sums and products of data that are not below zero are not below zero, and neither is the quotient
of two positive doubles, whose sign bit is clear. NaN counts as such a datum, as it compares with
nothing.
-/

namespace ExactSphere.Binary64

open Float.Model (UnpackedFloat Format)
open Float.Model.UnpackedFloat hiding Sign

namespace Datum

/-- A number that is not negative, the positive infinity or NaN. -/
inductive NonNegative : Datum → Prop
  | number {x : ℚ} (h : 0 ≤ x) : NonNegative (number x)
  | infinity : NonNegative (infinity false)
  | nan : NonNegative nan

namespace NonNegative

variable {d e : Datum} {x : ℚ}

theorem round (h : 0 ≤ x) : NonNegative (Datum.round x) := by
  unfold Datum.round clip
  split_ifs
  · exact .number (nearest_nonneg h)
  · rw [decide_eq_false (nearest_nonneg h).not_gt]
    exact .infinity

theorem abs (d : Datum) : NonNegative d.abs := by
  cases d with
  | number x => exact .number (abs_nonneg x)
  | infinity s => exact .infinity
  | nan => exact .nan

theorem add (hd : NonNegative d) (he : NonNegative e) : NonNegative (d + e) := by
  cases hd with
  | nan =>
    rw [nan_add]
    exact .nan
  | infinity => cases he <;> first | exact .infinity | exact .nan
  | number hx =>
    cases he with
    | nan => exact .nan
    | infinity => exact .infinity
    | number hy => exact .round (add_nonneg hx hy)

theorem mul (hd : NonNegative d) (he : NonNegative e) : NonNegative (d * e) := by
  have hmixed : ∀ {x : ℚ}, 0 ≤ x → NonNegative (Datum.number x * Datum.infinity false) := by
    intro x hx
    rcases hx.eq_or_lt with rfl | hx
    · rw [zero_mul_infinity]
      exact .nan
    · rw [number_mul_infinity hx]
      exact .infinity
  cases hd with
  | nan =>
    rw [nan_mul]
    exact .nan
  | infinity =>
    cases he with
    | nan => exact .nan
    | infinity => exact .infinity
    | number hy =>
      rw [mul_comm]
      exact hmixed hy
  | number hx =>
    cases he with
    | nan => exact .nan
    | infinity => exact hmixed hx
    | number hy => exact .round (mul_nonneg hx hy)

/-- A product is a number only if its factors are. -/
theorem mul_of_not_number (hd : NonNegative d) (he : NonNegative e)
    (h : ∀ x, e ≠ Datum.number x) : d * e = Datum.infinity false ∨ d * e = Datum.nan := by
  cases hproduct : d * e with
  | number z =>
    obtain ⟨-, y, -, hy, -⟩ := mul_eq_number_iff.1 hproduct
    exact absurd hy (h y)
  | infinity s =>
    have hsign := hd.mul he
    rw [hproduct] at hsign
    cases hsign
    exact .inl rfl
  | nan => exact .inr rfl

end NonNegative
end Datum

/-! ## The sign bit -/

/-- A double whose sign bit is clear is not negative. -/
theorem nonNegative_of_unpackSign {b : BitVec Format.binary64.numBits}
    (h : UnpackedFloat.Sign.ofBitVec (@unpackSign .binary64 b) = .positive) :
    (Datum.ofUnpacked (unpack .binary64 b)).NonNegative := by
  unfold unpack
  dsimp only
  rw [h]
  split_ifs
  · exact .infinity
  · exact .nan
  · exact .number le_rfl
  all_goals
    refine .number (mul_nonneg ?_ (by positivity))
    exact Int.cast_nonneg (Int.natCast_nonneg _)

/-- Packing keeps a clear sign bit. -/
theorem unpackSign_pack_positive {u : UnpackedFloat}
    (h : u = .zero .positive ∨ ∃ m e hm, u = .finite .positive m e hm) :
    UnpackedFloat.Sign.ofBitVec (@unpackSign .binary64 (pack .binary64 u)) = .positive := by
  rcases h with rfl | ⟨m, e, hm, rfl⟩
  · rfl
  · unfold pack
    dsimp only
    split_ifs
    · rfl
    · rw [unpackSign_packComponents, ofBitVec_toBitVec]
    · rw [unpackSign_packComponents, ofBitVec_toBitVec]

theorem roundWithAccuracy_positive (m : ℕ) (e : ℤ) (a : Accuracy) :
    roundWithAccuracy .binary64 .positive m e a = .zero .positive ∨
      ∃ n f hn, roundWithAccuracy .binary64 .positive m e a = .finite .positive n f hn := by
  unfold roundWithAccuracy
  dsimp only
  split_ifs with hzero
  · exact .inl rfl
  · exact .inr ⟨_, _, Nat.pos_of_ne_zero hzero, rfl⟩

theorem unpack_of_pos {x : Float} {v : ℚ} (h : datum x = .number v) (hv : 0 < v) :
    ∃ m e hm, x.toModel.unpack = .finite .positive m e hm := by
  unfold datum at h
  cases hx : x.toModel.unpack with
  | notANumber | infinity s =>
    rw [hx] at h
    cases h
  | zero s =>
    rw [hx] at h
    cases h
    exact absurd hv (lt_irrefl 0)
  | finite s m e hm =>
    rw [hx] at h
    cases h
    cases s with
    | positive => exact ⟨m, e, hm, rfl⟩
    | negative =>
      have hpos : (0 : ℚ) < m * 2 ^ e := by positivity
      simp only [UnpackedFloat.Sign.apply, Int.cast_neg, Int.cast_natCast, neg_mul] at hv
      linarith

/-- The quotient of two positive doubles is not negative. -/
theorem nonNegative_div {a b : Float} {x y : ℚ} (ha : datum a = .number x) (hx : 0 < x)
    (hb : datum b = .number y) (hy : 0 < y) : (datum (a / b)).NonNegative := by
  obtain ⟨m, e, hm, ha⟩ := unpack_of_pos ha hx
  obtain ⟨n, f, hn, hb⟩ := unpack_of_pos hb hy
  refine nonNegative_of_unpackSign (unpackSign_pack_positive ?_)
  rw [ha, hb]
  exact roundWithAccuracy_positive _ _ _

end ExactSphere.Binary64
