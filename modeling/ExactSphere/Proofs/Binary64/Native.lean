import ExactSphere.Proofs.Binary64.Model

/-!
# The operations of doubles on what they stand for

`datum` reads a double. Sums, differences, products, negation, absolute value and comparisons of
doubles are those of their data (`datum_add` and the lemmas after it), so that no later proof
opens the bits of a double.
-/

namespace ExactSphere.Binary64

open Float.Model (UnpackedFloat Format totalExponent)
open Float.Model.UnpackedFloat hiding Sign

/-- What a double stands for. -/
def datum (x : Float) : Datum := .ofUnpacked x.toModel.unpack

/-- The number that a finite double is; zero for the others. -/
def value (x : Float) : ℚ := (datum x).value

/-! ## The doubles that are numbers -/

theorem canonical_unpack_bits (b : BitVec Format.binary64.numBits) :
    Canonical (unpack .binary64 b) ∧
      ∀ s m e hm, unpack .binary64 b = .finite s m e hm → e ≤ 971 := by
  have hmantissa : (@unpackMantissa .binary64 b).toNat < 2 ^ 52 := BitVec.isLt _
  have hexponent : (@unpackExponent .binary64 b).toNat < 2 ^ 11 := BitVec.isLt _
  unfold unpack
  dsimp only
  split_ifs with hones hzero hsub hzero
  · exact ⟨trivial, fun _ _ _ _ h => by cases h⟩
  · exact ⟨trivial, fun _ _ _ _ h => by cases h⟩
  · exact ⟨trivial, fun _ _ _ _ h => by cases h⟩
  · -- a subnormal double
    have hexp : (@unpackExponent .binary64 b).toNat = 0 := by rw [hsub]; rfl
    refine ⟨⟨by omega, ?_, .inr ?_⟩, ?_⟩
    · simp only [hexp, Format.exponentBias]
      norm_num
    · simp only [hexp, Format.exponentBias]
      norm_num
    · rintro s m e _ h
      cases h
      simp only [hexp, Format.exponentBias]
      norm_num
  · -- a normal double
    have happend : (1#1 ++ @unpackMantissa .binary64 b).toNat =
        2 ^ 52 + (@unpackMantissa .binary64 b).toNat := by
      rw [BitVec.toNat_append, ← Nat.shiftLeft_add_eq_or_of_lt (BitVec.isLt _)]
      rfl
    have hpos : (@unpackExponent .binary64 b).toNat ≠ 0 :=
      fun h => hsub (BitVec.eq_of_toNat_eq h)
    have hmax : (@unpackExponent .binary64 b).toNat ≠ 2047 :=
      fun h => hones (BitVec.eq_of_toNat_eq h)
    refine ⟨⟨?_, ?_, .inl ?_⟩, ?_⟩
    · rw [happend]
      omega
    · simp only [Format.exponentBias]
      norm_num
      omega
    · rw [happend]
      omega
    · rintro s m e _ h
      cases h
      simp only [Format.exponentBias]
      norm_num
      omega

theorem canonical_unpack (x : Float.Model) :
    Canonical x.unpack ∧ ∀ s m e hm, x.unpack = .finite s m e hm → e ≤ 971 :=
  canonical_unpack_bits x.toBits.toBitVec

theorem Canonical.representable {u : UnpackedFloat} {x : ℚ} (h : Canonical u)
    (hx : Datum.ofUnpacked u = .number x) : Representable x := by
  cases u with
  | notANumber => cases hx
  | infinity s => cases hx
  | zero s =>
    cases hx
    exact .zero
  | finite s m e hm =>
    cases hx
    obtain ⟨hlt, hmin, _⟩ := h
    refine ⟨e, hmin, ⟨s.apply m, rfl⟩, ?_⟩
    have habs : |(s.apply m : ℚ)| = m := by cases s <;> simp [UnpackedFloat.Sign.apply]
    rw [abs_mul, abs_of_pos (by positivity : (0 : ℚ) < 2 ^ e), habs, zpow_add₀ two_ne_zero,
      mul_comm]
    exact mul_le_mul_of_nonneg_left (by exact_mod_cast hlt.le) (by positivity)

theorem representable_of_datum {x : Float} {v : ℚ} (h : datum x = .number v) : Representable v :=
  (canonical_unpack x.toModel).1.representable h

theorem abs_lt_of_datum {x : Float} {v : ℚ} (h : datum x = .number v) :
    |v| < 2 ^ (1024 : ℤ) := by
  obtain ⟨hcanonical, hmax⟩ := canonical_unpack x.toModel
  unfold datum at h
  revert h hcanonical hmax
  cases x.toModel.unpack with
  | notANumber => intro h; cases h
  | infinity s => intro h; cases h
  | zero s =>
    intro h
    cases h
    simp
  | finite s m e hm =>
    rintro h hcanonical hmax
    cases h
    exact hcanonical.abs_value_lt_iff.2 (hmax s m e hm rfl)

theorem representable_value (x : Float) : Representable (value x) := by
  unfold value
  cases h : datum x with
  | number v => exact representable_of_datum h
  | infinity s => exact .zero
  | nan => exact .zero

theorem abs_value_lt (x : Float) : |value x| < 2 ^ (1024 : ℤ) := by
  unfold value
  cases h : datum x with
  | number v => exact abs_lt_of_datum h
  | infinity s => simp [Datum.value]
  | nan => simp [Datum.value]

theorem isFinite_iff {x : Float} : x.isFinite = true ↔ datum x = .number (value x) := by
  unfold value datum Float.isFinite Float.Model.isFinite
  cases x.toModel.unpack <;> simp [UnpackedFloat.isFinite, Datum.ofUnpacked, Datum.value]

theorem isFinite_of_datum {x : Float} {v : ℚ} (h : datum x = .number v) : x.isFinite = true := by
  rw [isFinite_iff, value, h]
  rfl

theorem value_of_datum {x : Float} {v : ℚ} (h : datum x = .number v) : value x = v := by
  rw [value, h]
  rfl

/-! ## Arithmetic -/

theorem decreaseExponent_eq {m : ℕ} {e t : ℤ} :
    ((decreaseExponent m e t).1 : ℚ) * 2 ^ (decreaseExponent m e t).2 = m * 2 ^ e := by
  simp only [decreaseExponent, Nat.shiftLeft_eq, Nat.cast_mul, Nat.cast_pow, Nat.cast_ofNat]
  rw [← zpow_natCast, mul_assoc, ← zpow_add₀ two_ne_zero]
  congr 2
  ring

theorem round_eq (s : UnpackedFloat.Sign) {m : ℕ} (hm : 0 < m) (e : ℤ) :
    Canonical (UnpackedFloat.round .binary64 s m e) ∧
      Datum.ofUnpacked (UnpackedFloat.round .binary64 s m e) =
        .number (nearest (s.apply m * 2 ^ e)) := by
  unfold UnpackedFloat.round
  rw [targetExponent_eq hm]
  set d := decreaseExponent m e (ulpExponent (m * 2 ^ e)) with hd
  have hvalue : (d.1 : ℚ) * 2 ^ d.2 = m * 2 ^ e := decreaseExponent_eq
  have hpos : 0 < d.1 := by
    simp only [hd, decreaseExponent, Nat.shiftLeft_eq]
    positivity
  have hle : d.2 ≤ ulpExponent (d.1 * 2 ^ d.2) := by
    rw [hvalue]
    simp only [hd, decreaseExponent]
    omega
  have hsigned : (s.apply d.1 : ℚ) * 2 ^ d.2 = s.apply m * 2 ^ e := by
    cases s <;>
      simp only [UnpackedFloat.Sign.apply, Int.cast_neg, Int.cast_natCast, neg_mul, hvalue]
  rw [← hsigned]
  exact roundWithAccuracy_eq s hpos hle

theorem normalize_eq (m : ℤ) (e : ℤ) (s : UnpackedFloat.Sign) :
    Canonical (UnpackedFloat.normalize .binary64 m e s) ∧
      Datum.ofUnpacked (UnpackedFloat.normalize .binary64 m e s) =
        .number (nearest (m * 2 ^ e)) := by
  unfold UnpackedFloat.normalize
  rcases lt_trichotomy m 0 with hlt | rfl | hgt
  · have h := round_eq .negative (by omega : 0 < (-m).toNat) e
    have happly : UnpackedFloat.Sign.negative.apply ((-m).toNat : ℤ) = m := by
      simp only [UnpackedFloat.Sign.apply]
      omega
    rw [happly] at h
    rw [Int.compare_eq_lt.2 hlt]
    exact h
  · rw [show compare (0 : ℤ) 0 = .eq from rfl]
    exact ⟨trivial, by simp [Datum.ofUnpacked]⟩
  · have h := round_eq .positive (by omega : 0 < m.toNat) e
    have happly : UnpackedFloat.Sign.positive.apply (m.toNat : ℤ) = m := by
      simp only [UnpackedFloat.Sign.apply]
      omega
    rw [happly] at h
    rw [Int.compare_eq_gt.2 hgt]
    exact h

private theorem apply_decreaseExponent (s : UnpackedFloat.Sign) {m : ℕ} {e t : ℤ} (h : t ≤ e) :
    (s.apply (decreaseExponent m e t).1 : ℚ) * 2 ^ t = s.apply m * 2 ^ e := by
  have hexp : (decreaseExponent m e t).2 = t := by
    simp only [decreaseExponent]
    omega
  have hvalue := @decreaseExponent_eq m e t
  rw [hexp] at hvalue
  cases s <;> simp only [UnpackedFloat.Sign.apply, Int.cast_neg, Int.cast_natCast, neg_mul, hvalue]

theorem clipped_of_canonical {u : UnpackedFloat} {x : ℚ} (h : Canonical u)
    (hx : Datum.ofUnpacked u = .number x) : (Datum.ofUnpacked u).clipped = Datum.round x := by
  rw [hx, Datum.clipped, Datum.round, nearest_eq_self (h.representable hx)]

private theorem add_unpacked {u v : UnpackedFloat} (hu : Canonical u) (hv : Canonical v) :
    Canonical (UnpackedFloat.add .binary64 u v) ∧
      (Datum.ofUnpacked (UnpackedFloat.add .binary64 u v)).clipped =
        Datum.ofUnpacked u + Datum.ofUnpacked v := by
  cases u with
  | notANumber => exact ⟨trivial, (Datum.nan_add _).symm⟩
  | infinity s =>
    cases v with
    | infinity t => cases s <;> cases t <;> exact ⟨trivial, rfl⟩
    | _ => exact ⟨trivial, rfl⟩
  | zero s =>
    cases v with
    | zero t =>
      have hzero : Datum.ofUnpacked (UnpackedFloat.add .binary64 (.zero s) (.zero t)) =
          .number 0 := by cases s <;> cases t <;> rfl
      refine ⟨by cases s <;> cases t <;> trivial, ?_⟩
      rw [hzero]
      simp [Datum.ofUnpacked, Datum.add_number, Datum.round, Datum.clipped]
    | finite t m e hm =>
      refine ⟨hv, (clipped_of_canonical hv rfl).trans ?_⟩
      simp [Datum.ofUnpacked, Datum.add_number]
    | _ => exact ⟨trivial, rfl⟩
  | finite s m e hm =>
    cases v with
    | zero t =>
      refine ⟨hu, (clipped_of_canonical hu rfl).trans ?_⟩
      simp [Datum.ofUnpacked, Datum.add_number]
    | finite t n f hn =>
      obtain ⟨hcanonical, hvalue⟩ := normalize_eq
        (s.apply (decreaseExponent m e (min e f)).1 + t.apply (decreaseExponent n f (min e f)).1)
        (min e f) .positive
      rw [Int.cast_add, add_mul, apply_decreaseExponent s (min_le_left e f),
        apply_decreaseExponent t (min_le_right e f)] at hvalue
      exact ⟨hcanonical, congrArg Datum.clipped hvalue⟩
    | _ => exact ⟨trivial, rfl⟩

private theorem datum_pack {u : UnpackedFloat} (h : Canonical u) :
    datum (.ofModel (.pack u)) = (Datum.ofUnpacked u).clipped :=
  ofUnpacked_unpack_pack h

/-- The double of given bits. -/
theorem datum_ofBits (b : UInt64) :
    datum (.ofBits b) = (Datum.ofUnpacked (unpack .binary64 b.toBitVec)).clipped :=
  datum_pack (canonical_unpack_bits b.toBitVec).1

theorem datum_add (a b : Float) : datum (a + b) = datum a + datum b := by
  obtain ⟨hcanonical, hvalue⟩ :=
    add_unpacked (canonical_unpack a.toModel).1 (canonical_unpack b.toModel).1
  exact (datum_pack hcanonical).trans hvalue

theorem apply_neg (s : UnpackedFloat.Sign) (n : ℤ) : (-s).apply n = -s.apply n := by
  cases s
  · exact (Int.neg_neg n).symm
  · rfl

theorem apply_mul (s t : UnpackedFloat.Sign) (n m : ℤ) :
    (s * t).apply (n * m) = s.apply n * t.apply m := by
  cases s <;> cases t
  · exact (Int.neg_mul_neg n m).symm
  · exact (Int.neg_mul n m).symm
  · exact (Int.mul_neg n m).symm
  · rfl

theorem canonical_neg {u : UnpackedFloat} (h : Canonical u) : Canonical u.neg := by
  cases u <;> exact h

theorem canonical_abs {u : UnpackedFloat} (h : Canonical u) : Canonical u.abs := by
  cases u <;> exact h

theorem ofUnpacked_neg (u : UnpackedFloat) : Datum.ofUnpacked u.neg = -Datum.ofUnpacked u := by
  cases u with
  | notANumber => rfl
  | infinity s => cases s <;> rfl
  | zero s => simp [UnpackedFloat.neg, Datum.ofUnpacked, Datum.neg_number]
  | finite s m e hm =>
    rw [UnpackedFloat.neg, Datum.ofUnpacked, Datum.ofUnpacked, Datum.neg_number, apply_neg,
      Int.cast_neg, neg_mul]

theorem ofUnpacked_abs (u : UnpackedFloat) :
    Datum.ofUnpacked u.abs = (Datum.ofUnpacked u).abs := by
  cases u with
  | notANumber => rfl
  | infinity s => rfl
  | zero s => simp [UnpackedFloat.abs, Datum.ofUnpacked, Datum.abs]
  | finite s m e hm =>
    have hpos : (0 : ℚ) < 2 ^ e := by positivity
    rw [UnpackedFloat.abs, Datum.ofUnpacked, Datum.ofUnpacked, Datum.abs, abs_mul, abs_of_pos hpos]
    cases s <;> simp [UnpackedFloat.Sign.apply]

private theorem clipped_datum (x : Float) : (datum x).clipped = datum x := by
  cases h : datum x with
  | number v => rw [Datum.clipped, Datum.clip, if_pos (abs_lt_of_datum h)]
  | infinity s => rfl
  | nan => rfl

theorem datum_neg (a : Float) : datum (-a) = -datum a := by
  refine (datum_pack (canonical_neg (canonical_unpack a.toModel).1)).trans ?_
  have hclipped := clipped_datum a
  rw [ofUnpacked_neg]
  change (-datum a).clipped = -datum a
  cases h : datum a with
  | number v =>
    rw [Datum.neg_number, Datum.clipped, Datum.clip, abs_neg, if_pos (abs_lt_of_datum h)]
  | infinity s => rfl
  | nan => rfl

theorem value_neg (a : Float) : value (-a) = -value a := by
  unfold value
  rw [datum_neg]
  cases datum a with
  | number v => rfl
  | infinity s => simp [Datum.neg_infinity, Datum.value]
  | nan => simp [Datum.neg_nan, Datum.value]

theorem datum_abs (a : Float) : datum a.abs = (datum a).abs := by
  refine (datum_pack (canonical_abs (canonical_unpack a.toModel).1)).trans ?_
  rw [ofUnpacked_abs]
  change (datum a).abs.clipped = (datum a).abs
  cases h : datum a with
  | number v => rw [Datum.abs, Datum.clipped, Datum.clip, abs_abs, if_pos (abs_lt_of_datum h)]
  | infinity s => rfl
  | nan => rfl

private theorem sub_unpacked (u v : UnpackedFloat) :
    UnpackedFloat.sub .binary64 u v = UnpackedFloat.add .binary64 u v.neg := by
  cases u with
  | finite s m e hm =>
    cases v with
    | finite t n f hn =>
      have happly : ∀ k : ℕ, s.apply (decreaseExponent m e (min e f)).1 - t.apply k =
          s.apply (decreaseExponent m e (min e f)).1 + (-t).apply k := by
        intro k
        rw [apply_neg, sub_eq_add_neg]
      simp only [UnpackedFloat.sub, UnpackedFloat.add, UnpackedFloat.neg, happly]
    | _ => rfl
  | _ => cases v <;> rfl

theorem datum_sub (a b : Float) : datum (a - b) = datum a + -datum b := by
  obtain ⟨hcanonical, hvalue⟩ := add_unpacked (canonical_unpack a.toModel).1
    (canonical_neg (canonical_unpack b.toModel).1)
  rw [← sub_unpacked] at hcanonical hvalue
  exact (datum_pack hcanonical).trans (hvalue.trans (congrArg _ (ofUnpacked_neg _)))

/-- The exact product of two mantissas has room for the rounding. -/
private theorem add_exponent_le {s t : UnpackedFloat.Sign} {m n : ℕ} {e f : ℤ} {hm : 0 < m}
    {hn : 0 < n} (hu : Canonical (.finite s m e hm)) (hv : Canonical (.finite t n f hn)) :
    e + f ≤ ulpExponent ((m * n : ℕ) * 2 ^ (e + f)) := by
  by_cases hfull : 2 ^ 52 ≤ m * n
  · refine le_ulpExponent ?_
    rw [abs_of_pos (by positivity), zpow_add₀ two_ne_zero _ 52, mul_comm]
    exact mul_le_mul_of_nonneg_right (by exact_mod_cast hfull) (by positivity)
  · have hmn : m ≤ m * n := Nat.le_mul_of_pos_right m hn
    have hnm : n ≤ m * n := Nat.le_mul_of_pos_left n hm
    have he := hu.2.2.resolve_left (by omega)
    have hf := hv.2.2.resolve_left (by omega)
    have := min_le_ulpExponent ((m * n : ℕ) * 2 ^ (e + f))
    omega

private theorem mul_infinity (s t : UnpackedFloat.Sign) {n : ℕ} (f : ℤ) (hn : 0 < n) :
    Datum.ofUnpacked (.infinity (s * t)) =
      .infinity (s matches .negative) * .number (t.apply n * 2 ^ f) := by
  have hpos : (0 : ℚ) < n * 2 ^ f := by positivity
  change _ = ite _ _ _
  cases t
  · have hneg : (UnpackedFloat.Sign.negative.apply n : ℚ) * 2 ^ f < 0 := by
      simpa [UnpackedFloat.Sign.apply] using hpos
    rw [if_neg hneg.ne, decide_eq_true hneg]
    cases s <;> rfl
  · have hpos' : (0 : ℚ) < (UnpackedFloat.Sign.positive.apply n : ℚ) * 2 ^ f := by
      simpa [UnpackedFloat.Sign.apply] using hpos
    rw [if_neg hpos'.ne', decide_eq_false hpos'.not_gt]
    cases s <;> rfl

private theorem sign_mul_comm (s t : UnpackedFloat.Sign) : s * t = t * s := by
  cases s <;> cases t <;> rfl

private theorem mul_unpacked {u v : UnpackedFloat} (hu : Canonical u) (hv : Canonical v) :
    Canonical (UnpackedFloat.mul .binary64 u v) ∧
      (Datum.ofUnpacked (UnpackedFloat.mul .binary64 u v)).clipped =
        Datum.ofUnpacked u * Datum.ofUnpacked v := by
  have hzero : ∀ x : ℚ, x = 0 → Datum.clipped (.number 0) = Datum.round x := by
    rintro x rfl
    simp [Datum.round, Datum.clipped]
  cases u with
  | notANumber => exact ⟨trivial, (Datum.nan_mul _).symm⟩
  | infinity s =>
    cases v with
    | notANumber => exact ⟨trivial, rfl⟩
    | infinity t => cases s <;> cases t <;> exact ⟨trivial, rfl⟩
    | zero t => exact ⟨trivial, rfl⟩
    | finite t n f hn => exact ⟨trivial, mul_infinity s t f hn⟩
  | zero s =>
    cases v with
    | notANumber => exact ⟨trivial, rfl⟩
    | infinity t => exact ⟨trivial, rfl⟩
    | zero t => exact ⟨trivial, hzero _ (zero_mul 0)⟩
    | finite t n f hn => exact ⟨trivial, hzero _ (zero_mul _)⟩
  | finite s m e hm =>
    cases v with
    | notANumber => exact ⟨trivial, rfl⟩
    | infinity t =>
      refine ⟨trivial, ?_⟩
      rw [Datum.mul_comm]
      exact (congrArg (Datum.ofUnpacked <| .infinity ·) (sign_mul_comm s t)).trans
        (mul_infinity t s e hm)
    | zero t => exact ⟨trivial, hzero _ (mul_zero _)⟩
    | finite t n f hn =>
      obtain ⟨hcanonical, hvalue⟩ :=
        roundWithAccuracy_eq (s * t) (Nat.mul_pos hm hn) (add_exponent_le hu hv)
      refine ⟨hcanonical, (congrArg Datum.clipped hvalue).trans ?_⟩
      have hproduct : ((s * t).apply (m * n : ℕ) : ℚ) * 2 ^ (e + f) =
          s.apply m * 2 ^ e * (t.apply n * 2 ^ f) := by
        rw [zpow_add₀ two_ne_zero, Nat.cast_mul, apply_mul, Int.cast_mul]
        ring
      rw [hproduct]
      rfl

theorem datum_mul (a b : Float) : datum (a * b) = datum a * datum b := by
  obtain ⟨hcanonical, hvalue⟩ :=
    mul_unpacked (canonical_unpack a.toModel).1 (canonical_unpack b.toModel).1
  exact (datum_pack hcanonical).trans hvalue

/-! ## Comparisons -/

/-- Canonical magnitudes are ordered by their exponents, then by their mantissas. -/
private theorem compare_magnitudes {s t : UnpackedFloat.Sign} {m n : ℕ} {e f : ℤ} {hm : 0 < m}
    {hn : 0 < n} (hu : Canonical (.finite s m e hm)) (hv : Canonical (.finite t n f hn)) :
    (compare e f).then (compare m n) = compare ((m : ℚ) * 2 ^ e) (n * 2 ^ f) := by
  have hstep : ∀ {m n : ℕ} {e f : ℤ}, m < 2 ^ 53 → 2 ^ 52 ≤ n ∨ f = -1074 → -1074 ≤ e → e < f →
      (m : ℚ) * 2 ^ e < n * 2 ^ f := by
    intro m n e f hm hn he hef
    have hfull : 2 ^ 52 ≤ n := hn.resolve_right (by omega)
    calc (m : ℚ) * 2 ^ e < 2 ^ 53 * 2 ^ e :=
          mul_lt_mul_of_pos_right (by exact_mod_cast hm) (by positivity)
      _ = 2 ^ 52 * 2 ^ (e + 1) := by rw [zpow_add_one₀ two_ne_zero]; ring
      _ ≤ n * 2 ^ f := mul_le_mul (by exact_mod_cast hfull)
          (zpow_le_zpow_right₀ one_le_two (by omega)) (by positivity) (by positivity)
  obtain ⟨hm53, hemin, hmfull⟩ := hu
  obtain ⟨hn53, hfmin, hnfull⟩ := hv
  rcases lt_trichotomy e f with hef | rfl | hef
  · rw [compare_lt_iff_lt.2 hef, compare_lt_iff_lt.2 (hstep hm53 hnfull hemin hef)]
    rfl
  · have hpos : (0 : ℚ) < 2 ^ e := by positivity
    rw [compare_eq_iff_eq.2 rfl, Ordering.eq_then]
    rcases lt_trichotomy m n with h | rfl | h
    · rw [compare_lt_iff_lt.2 h, eq_comm, compare_lt_iff_lt]
      exact mul_lt_mul_of_pos_right (by exact_mod_cast h) hpos
    · rw [compare_eq_iff_eq.2 rfl, eq_comm, compare_eq_iff_eq]
    · rw [compare_gt_iff_gt.2 h, eq_comm, compare_gt_iff_gt]
      exact mul_lt_mul_of_pos_right (by exact_mod_cast h) hpos
  · rw [compare_gt_iff_gt.2 hef, compare_gt_iff_gt.2 (hstep hn53 hmfull hfmin hef)]
    rfl

private theorem apply_negative (m : ℕ) (e : ℤ) :
    (UnpackedFloat.Sign.negative.apply m : ℚ) * 2 ^ e = -(m * 2 ^ e) := by
  simp [UnpackedFloat.Sign.apply]

private theorem apply_positive (m : ℕ) (e : ℤ) :
    (UnpackedFloat.Sign.positive.apply m : ℚ) * 2 ^ e = m * 2 ^ e := by
  simp [UnpackedFloat.Sign.apply]

private theorem compare_neg_neg (x y : ℚ) : compare (-x) (-y) = (compare x y).swap := by
  rcases lt_trichotomy x y with h | rfl | h
  · rw [compare_gt_iff_gt.2 (neg_lt_neg h), compare_lt_iff_lt.2 h]
    rfl
  · rw [compare_eq_iff_eq.2 rfl, compare_eq_iff_eq.2 rfl]
    rfl
  · rw [compare_lt_iff_lt.2 (neg_lt_neg h), compare_gt_iff_gt.2 h]
    rfl

private theorem compare_unpacked {u v : UnpackedFloat} (hu : Canonical u) (hv : Canonical v) :
    UnpackedFloat.compare u v = (Datum.ofUnpacked u).compare? (Datum.ofUnpacked v) := by
  cases u with
  | notANumber => cases v <;> rfl
  | infinity s => cases s <;> cases v with
    | infinity t => cases t <;> rfl
    | _ => rfl
  | zero s => cases v with
    | notANumber => rfl
    | infinity t => cases t <;> rfl
    | zero t => simp [UnpackedFloat.compare, Datum.compare?, Datum.ofUnpacked]
    | finite t n f hn =>
      have hpos : (0 : ℚ) < n * 2 ^ f := by positivity
      refine (show _ = some (compare 0 ((t.apply n : ℚ) * 2 ^ f)) from ?_)
      cases t
      · rw [apply_negative, compare_gt_iff_gt.2 (neg_lt_zero.2 hpos)]
        rfl
      · rw [apply_positive, compare_lt_iff_lt.2 hpos]
        rfl
  | finite s m e hm =>
    have hmpos : (0 : ℚ) < m * 2 ^ e := by positivity
    cases v with
    | notANumber => cases s <;> rfl
    | infinity t => cases s <;> cases t <;> rfl
    | zero t =>
      refine (show _ = some (compare ((s.apply m : ℚ) * 2 ^ e) 0) from ?_)
      cases s
      · rw [apply_negative, compare_lt_iff_lt.2 (neg_lt_zero.2 hmpos)]
        rfl
      · rw [apply_positive, compare_gt_iff_gt.2 hmpos]
        rfl
    | finite t n f hn =>
      have hnpos : (0 : ℚ) < n * 2 ^ f := by positivity
      have hmagnitudes := compare_magnitudes hu hv
      refine (show _ = some (compare ((s.apply m : ℚ) * 2 ^ e) (t.apply n * 2 ^ f)) from ?_)
      cases s <;> cases t
      · rw [apply_negative, apply_negative, compare_neg_neg, ← hmagnitudes]
        rfl
      · rw [apply_negative, apply_positive, compare_lt_iff_lt.2 (by linarith)]
        rfl
      · rw [apply_positive, apply_negative, compare_gt_iff_gt.2 (by linarith)]
        rfl
      · rw [apply_positive, apply_positive, ← hmagnitudes]
        rfl

private theorem compare_datum (a b : Float) :
    a.toModel.unpack.compare b.toModel.unpack = (datum a).compare? (datum b) :=
  compare_unpacked (canonical_unpack a.toModel).1 (canonical_unpack b.toModel).1

theorem lt_iff (a b : Float) : a < b ↔ (datum a).compare? (datum b) = some .lt := by
  rw [← compare_datum]
  change decide (a.toModel < b.toModel) = true ↔ _
  rw [decide_eq_true_iff]
  change (a.toModel.unpack.compare b.toModel.unpack == some .lt) = true ↔ _
  rw [beq_iff_eq]

theorem lt_iff_value {a b : Float} (ha : a.isFinite = true) (hb : b.isFinite = true) :
    a < b ↔ value a < value b := by
  rw [lt_iff, isFinite_iff.1 ha, isFinite_iff.1 hb, Datum.number_compare?_number,
    Option.some.injEq, compare_lt_iff_lt]

theorem le_iff (a b : Float) :
    a ≤ b ↔ ((datum a).compare? (datum b)).any (·.isLE) = true := by
  rw [← compare_datum]
  change decide (a.toModel ≤ b.toModel) = true ↔ _
  rw [decide_eq_true_iff]
  rfl

theorem le_iff_value {a b : Float} (ha : a.isFinite = true) (hb : b.isFinite = true) :
    a ≤ b ↔ value a ≤ value b := by
  rw [le_iff, isFinite_iff.1 ha, isFinite_iff.1 hb, Datum.number_compare?_number, Option.any_some,
    Ordering.isLE_iff_ne_gt, ← compare_le_iff_le]

theorem le_of_less {a b : Float} (h : a < b) : a ≤ b := by
  rw [le_iff, (lt_iff a b).1 h]
  rfl

/-- What lies between finite doubles is finite. -/
theorem isFinite_of_between {a b x : Float} (ha : a.isFinite = true) (hb : b.isFinite = true)
    (hax : a ≤ x) (hxb : x ≤ b) : x.isFinite = true := by
  rw [le_iff, isFinite_iff.1 ha] at hax
  rw [le_iff, isFinite_iff.1 hb] at hxb
  cases hx : datum x with
  | number v => exact isFinite_of_datum hx
  | infinity negative =>
    rw [hx] at hax hxb
    cases negative with
    | false => cases hxb
    | true => cases hax
  | nan =>
    rw [hx, Datum.compare?_nan] at hax
    cases hax

theorem beq_iff (a b : Float) : (a == b) = true ↔ (datum a).compare? (datum b) = some .eq := by
  rw [← compare_datum]
  change (a.toModel.unpack.compare b.toModel.unpack == some .eq) = true ↔ _
  rw [beq_iff_eq]

theorem compare?_eq (a b : Float) : compare? a b = (datum a).compare? (datum b) := by
  have hswap := Datum.compare?_swap (datum a) (datum b)
  unfold compare?
  simp only [lt_iff, beq_iff, hswap]
  rcases (datum a).compare? (datum b) with _ | _ | _ | _ <;> simp

theorem beq_iff_datum_eq (a b : Float) : (a == b) = true ↔ datum a = datum b ∧ datum a ≠ .nan := by
  rw [beq_iff, Datum.compare?_eq_some_eq_iff]

theorem compare?_of_finite {a b : Float} (ha : a.isFinite = true) (hb : b.isFinite = true) :
    compare? a b = some (compare (value a) (value b)) := by
  rw [compare?_eq, isFinite_iff.1 ha, isFinite_iff.1 hb, Datum.number_compare?_number]

theorem beq_of_finite {a b : Float} (ha : a.isFinite = true) (hb : b.isFinite = true) :
    (a == b) = true ↔ value a = value b := by
  rw [beq_iff, ← compare?_eq, compare?_of_finite ha hb, Option.some.injEq, compare_eq_iff_eq]

/-! ## Operations with a finite result -/

section Finite

variable {a b : Float} {x y z : ℚ}

/-- A finite sum is the rounded sum of finite terms. -/
theorem number_of_add (h : datum (a + b) = .number z) :
    ∃ x y, datum a = .number x ∧ datum b = .number y ∧ z = nearest (x + y) := by
  rw [datum_add] at h
  exact Datum.rounds_add.exists_nearest h

theorem number_of_sub (h : datum (a - b) = .number z) :
    ∃ x y, datum a = .number x ∧ datum b = .number y ∧ z = nearest (x - y) := by
  rw [datum_sub] at h
  exact Datum.rounds_sub.exists_nearest h

theorem number_of_mul (h : datum (a * b) = .number z) :
    ∃ x y, datum a = .number x ∧ datum b = .number y ∧ z = nearest (x * y) := by
  rw [datum_mul] at h
  exact Datum.rounds_mul.exists_nearest h

theorem finite_of_add (h : (a + b).isFinite = true) :
    a.isFinite = true ∧ b.isFinite = true ∧ value (a + b) = nearest (value a + value b) := by
  obtain ⟨x, y, hx, hy, hsum⟩ := number_of_add (isFinite_iff.1 h)
  rw [value_of_datum hx, value_of_datum hy]
  exact ⟨isFinite_of_datum hx, isFinite_of_datum hy, hsum⟩

theorem finite_of_sub (h : (a - b).isFinite = true) :
    a.isFinite = true ∧ b.isFinite = true ∧ value (a - b) = nearest (value a - value b) := by
  obtain ⟨x, y, hx, hy, hdifference⟩ := number_of_sub (isFinite_iff.1 h)
  rw [value_of_datum hx, value_of_datum hy]
  exact ⟨isFinite_of_datum hx, isFinite_of_datum hy, hdifference⟩

theorem datum_add_of_lt (ha : datum a = .number x) (hb : datum b = .number y)
    (h : |nearest (x + y)| < 2 ^ (1024 : ℤ)) : datum (a + b) = .number (nearest (x + y)) := by
  rw [datum_add, ha, hb]
  exact Datum.rounds_add.of_lt h

theorem datum_sub_of_lt (ha : datum a = .number x) (hb : datum b = .number y)
    (h : |nearest (x - y)| < 2 ^ (1024 : ℤ)) : datum (a - b) = .number (nearest (x - y)) := by
  rw [datum_sub, ha, hb]
  exact Datum.rounds_sub.of_lt h

theorem datum_mul_of_lt (ha : datum a = .number x) (hb : datum b = .number y)
    (h : |nearest (x * y)| < 2 ^ (1024 : ℤ)) : datum (a * b) = .number (nearest (x * y)) := by
  rw [datum_mul, ha, hb]
  exact Datum.rounds_mul.of_lt h

end Finite

end ExactSphere.Binary64
