import ExactSphere.ErrorFree
import ExactSphere.Proofs.Binary64.Literals

/-!
# The halves of a double

`split` cuts a double of 53 bits into words of 26 bits, the sign of the lower one included
(`halves_highPart`), also if the double is subnormal: the exponent of a `Scaled` number has no lower
limit. It does so unless its first product overflows, which leaves NaN (`datum_split`).
-/

namespace ExactSphere.ErrorFree

open Binary64

variable {x : ℚ} {a : Float}

/-! ## Words of 26 bits -/

/-- `x` is a number of 53 bits above `2 ^ e`, where `e` has no lower limit. -/
structure Scaled (e : ℤ) (x : ℚ) : Prop where
  grid : OnGrid e x
  lt : |x| < 2 ^ (e + 53)
  le : x ≠ 0 → 2 ^ (e + 52) ≤ |x|

theorem Scaled.zero (e : ℤ) : Scaled e 0 where
  grid := .zero e
  lt := by
    rw [abs_zero]
    positivity
  le h := (h rfl).elim

theorem exists_scaled (hx : Representable x) : ∃ e, Scaled e x := by
  rcases eq_or_ne x 0 with rfl | h0
  · exact ⟨0, .zero 0⟩
  · have hpos : 0 < |x| := abs_pos.2 h0
    have hle : 2 ^ (Int.log 2 |x| - 52 + 52) ≤ |x| := by
      rw [sub_add_cancel]
      exact_mod_cast Int.zpow_log_le_self one_lt_two hpos
    refine ⟨Int.log 2 |x| - 52, hx.onGrid_of_le hle, ?_, fun _ => hle⟩
    rw [show Int.log 2 |x| - 52 + 53 = Int.log 2 |x| + 1 by ring]
    exact_mod_cast Int.lt_zpow_succ_log_self one_lt_two |x|

theorem exists_scaled_le (hx : Representable x) {k : ℤ} (h : |x| < 2 ^ (k + 53)) :
    ∃ e ≤ k, Scaled e x := by
  rcases eq_or_ne x 0 with rfl | h0
  · exact ⟨k, le_rfl, .zero k⟩
  · obtain ⟨e, he⟩ := exists_scaled hx
    have hlt := (he.le h0).trans_lt h
    rw [zpow_lt_zpow_iff_right₀ one_lt_two] at hlt
    exact ⟨e, by omega, he⟩

/-- Two words of 26 bits, the sign of the lower one included in its range. -/
structure Halves (e : ℤ) (x hi lo : ℚ) : Prop where
  add : hi + lo = x
  gridHi : OnGrid (e + 27) hi
  leHi : |hi| ≤ 2 ^ (e + 53)
  gridLo : OnGrid e lo
  leLo : |lo| ≤ 2 ^ (e + 26)

/-- What `split` computes for the high word. -/
def highPart (x : ℚ) : ℚ :=
  nearest (nearest (134217729 * x) - nearest (nearest (134217729 * x) - x))

/-- The product with the splitter is exact at the lower end of a binade, and its error is small
elsewhere. Removing the number again gives a multiple of `2 ^ (e + 27)` close to `2 ^ 27 x`. -/
theorem abs_nearest_splitter_sub {e : ℤ} (hx : Representable x) (h : Scaled e x) (h0 : x ≠ 0) :
    2 ^ (e + 79) ≤ |nearest (134217729 * x) - x| ∧
      |nearest (134217729 * x) - x| ≤ 2 ^ (e + 80) := by
  have hgrid : OnGrid (-1074) (134217729 * x) := by
    simpa using OnGrid.mul (e := 0) (x := 134217729) ⟨134217729, by norm_num⟩ hx.onGrid
  have hpos : (0 : ℚ) < 2 ^ e := by positivity
  have habs : |134217729 * x| = 134217729 * |x| := by rw [abs_mul]; norm_num
  have hlower := h.le h0
  have hupper := h.grid.abs.add_le_of_lt ((OnGrid.zpow (e + 53)).mono (by omega)) h.lt
  have herror : |nearest (134217729 * x) - 134217729 * x| ≤ 2 ^ (e + 27) := by
    have hle : |134217729 * x| ≤ 2 ^ (e + 28 + 53) := by
      rw [habs, add_assoc, zpow_add₀ two_ne_zero]
      rw [zpow_add₀ two_ne_zero] at hupper
      norm_num at hupper ⊢
      linarith
    simpa [add_sub_assoc] using abs_nearest_sub_le_of_onGrid hgrid hle
  have hsplit : nearest (134217729 * x) - x =
      134217728 * x + (nearest (134217729 * x) - 134217729 * x) := by ring
  have habs' : |134217728 * x| = 134217728 * |x| := by rw [abs_mul]; norm_num
  have hlo := abs_sub_abs_le_abs_add (134217728 * x) (nearest (134217729 * x) - 134217729 * x)
  have hhi := abs_add_le (134217728 * x) (nearest (134217729 * x) - 134217729 * x)
  rw [← hsplit, habs'] at hlo hhi
  refine ⟨?_, ?_⟩
  · rcases hlower.eq_or_lt with heq | hlt
    · have hexact : Representable (134217729 * x) := by
        have hx' : OnGrid (e + 52) x := by
          rcases abs_choice x with hx' | hx' <;> rw [hx'] at heq
          · rw [← heq]
            exact .zpow _
          · rw [← neg_neg x, ← heq]
            exact (OnGrid.zpow _).neg
        have hmul : OnGrid (e + 52) (134217729 * x) := by
          simpa using OnGrid.mul (e := 0) (x := 134217729) ⟨134217729, by norm_num⟩ hx'
        refine representable_of_onGrid hmul hgrid ?_
        rw [habs, add_assoc, zpow_add₀ two_ne_zero]
        rw [zpow_add₀ two_ne_zero] at hupper
        norm_num at hupper ⊢
        linarith
      have hdouble : nearest (134217729 * x) - x = 134217728 * x := by
        rw [nearest_eq_self hexact]
        ring
      rw [hdouble, habs', ← heq, zpow_add₀ two_ne_zero, zpow_add₀ two_ne_zero]
      norm_num
      linarith
    · have hgap := ((OnGrid.zpow (e + 52)).mono (by omega)).add_le_of_lt h.grid.abs hlt
      rw [zpow_add₀ two_ne_zero] at hgap herror ⊢
      norm_num at hgap herror ⊢
      linarith
  · rw [zpow_add₀ two_ne_zero] at hupper herror ⊢
    norm_num at hupper herror ⊢
    linarith

theorem halves_highPart {e : ℤ} (hx : Representable x) (h : Scaled e x) :
    Halves e x (highPart x) (nearest (x - highPart x)) := by
  rcases eq_or_ne x 0 with rfl | h0
  · have hzero : highPart 0 = 0 := by simp [highPart, nearest_zero]
    rw [hzero, sub_zero, nearest_zero]
    exact ⟨add_zero 0, .zero _, by rw [abs_zero]; positivity, .zero _,
      by rw [abs_zero]; positivity⟩
  obtain ⟨hlower, hupper⟩ := abs_nearest_splitter_sub hx h h0
  have hpos : (0 : ℚ) < 2 ^ e := by positivity
  have hgap := h.grid.abs.add_le_of_lt ((OnGrid.zpow (e + 53)).mono (by omega)) h.lt
  set c := nearest (134217729 * x) with hc
  have hcrep : Representable c := representable_nearest _
  have hcgrid : OnGrid (e + 27) c := by
    refine onGrid_nearest_of_le ?_
    have habs : |134217729 * x| = 134217729 * |x| := by rw [abs_mul]; norm_num
    have hle := h.le h0
    rw [habs, add_assoc, zpow_add₀ two_ne_zero]
    rw [zpow_add₀ two_ne_zero] at hle
    norm_num at hle ⊢
    linarith
  set big := nearest (c - x) with hbig
  have hbiggrid : OnGrid (e + 27) big :=
    onGrid_nearest_of_le (hlower.trans_eq' (by rw [add_assoc]; norm_num))
  have hloss : |big - (c - x)| ≤ 2 ^ (e + 26) := by
    have hle : |c - x| ≤ 2 ^ (e + 27 + 53) := by
      rw [add_assoc]
      exact hupper
    simpa [add_sub_assoc] using abs_nearest_sub_le_of_onGrid (hcrep.onGrid.sub hx.onGrid) hle
  have hdifference : |c - big| ≤ 2 ^ (e + 53) := by
    by_contra! hgt
    have hfar := ((OnGrid.zpow (e + 53)).mono (by omega)).add_le_of_lt
      (hcgrid.sub hbiggrid).abs hgt
    have htri := abs_add_le x (-(big - (c - x)))
    rw [show x + -(big - (c - x)) = c - big by ring, abs_neg] at htri
    rw [zpow_add₀ two_ne_zero] at hgap hloss hfar
    rw [zpow_add₀ two_ne_zero] at hfar
    norm_num at hgap hloss hfar
    linarith
  have hbigrep : Representable big := representable_nearest _
  have hexact : highPart x = c - big := by
    refine nearest_eq_self (representable_of_onGrid (hcgrid.sub hbiggrid)
      (hcrep.onGrid.sub hbigrep.onGrid) (hdifference.trans ?_))
    exact zpow_le_zpow_right₀ one_le_two (by omega)
  have hlow : nearest (x - highPart x) = big - (c - x) := by
    rw [hexact, show x - (c - big) = big - (c - x) by ring]
    refine nearest_eq_self (representable_of_onGrid
      ((hbiggrid.mono (by omega)).sub ((hcgrid.mono (by omega)).sub h.grid))
      (hbigrep.onGrid.sub (hcrep.onGrid.sub hx.onGrid)) (hloss.trans ?_))
    exact zpow_le_zpow_right₀ one_le_two (by omega)
  rw [hlow, hexact]
  exact ⟨by ring, hcgrid.sub hbiggrid, hdifference,
    (hbiggrid.mono (by omega)).sub ((hcgrid.mono (by omega)).sub h.grid), hloss⟩

theorem datum_splitter : datum splitter = .number 134217729 :=
  datum_ofNat (n := 134217729) (by norm_num)

/-- If the low word is a number, so are the double and the high word. -/
theorem number_of_split {l : ℚ} (h : datum (split a).2 = .number l) :
    ∃ x, datum a = .number x ∧ datum (split a).1 = .number (highPart x) ∧
      l = nearest (x - highPart x) := by
  obtain ⟨x, hi, hx, hhi, rfl⟩ := number_of_sub h
  obtain ⟨c, big, hc, hbig, rfl⟩ := number_of_sub hhi
  obtain ⟨c', x', hc', hx', rfl⟩ := number_of_sub hbig
  cases hc.symm.trans hc'
  cases hx.symm.trans hx'
  obtain ⟨k, x', hk, hx', rfl⟩ := number_of_mul hc
  cases hx.symm.trans hx'
  cases datum_splitter.symm.trans hk
  exact ⟨x, hx, hhi, rfl⟩

/-! ## Overflow -/

/-- The split of a double is finite if its first product is. -/
theorem datum_split_of_lt (ha : datum a = .number x)
    (hlt : |nearest (134217729 * x)| < 2 ^ (1024 : ℤ)) :
    datum (split a).1 = .number (highPart x) ∧
      datum (split a).2 = .number (nearest (x - highPart x)) := by
  have hrep := representable_of_datum ha
  have hc := datum_mul_of_lt datum_splitter ha hlt
  have hx : |x| < 2 ^ (945 + 53 : ℤ) := by
    by_contra! hge
    have hlarge : 2 ^ (1025 : ℤ) ≤ |134217729 * x| := by
      rw [abs_mul, show (1025 : ℤ) = 27 + (945 + 53) by norm_num, zpow_add₀ two_ne_zero]
      exact mul_le_mul (by norm_num) hge (by positivity) (abs_nonneg _)
    have hle := (zpow_le_abs_nearest (by norm_num) hlarge).trans_lt hlt
    rw [zpow_lt_zpow_iff_right₀ one_lt_two] at hle
    omega
  obtain ⟨e, he, hs⟩ := exists_scaled_le hrep hx
  have hhalves := halves_highPart hrep hs
  have hsmall : ∀ {z : ℚ} {k : ℤ}, |z| ≤ 2 ^ (e + k) → k ≤ 53 → |z| < 2 ^ (1024 : ℤ) :=
    fun hz hk => lt_zpow_of_le hz (by omega)
  -- the product has the sign of the number, so that their difference is not larger
  have hbig : |nearest (nearest (134217729 * x) - x)| < 2 ^ (1024 : ℤ) := by
    have hle : |nearest (134217729 * x) - x| ≤ |nearest (134217729 * x)| := by
      rcases le_total 0 x with h0 | h0
      · have := nearest_mono (show x ≤ 134217729 * x by linarith)
        rw [nearest_eq_self hrep] at this
        rw [abs_of_nonneg (by linarith), abs_of_nonneg (by linarith)]
        linarith
      · have := nearest_mono (show 134217729 * x ≤ x by linarith)
        rw [nearest_eq_self hrep] at this
        rw [abs_of_nonpos (by linarith), abs_of_nonpos (by linarith)]
        linarith
    refine (abs_nearest_mono hle).trans_lt ?_
    rwa [← abs_nearest, nearest_eq_self (representable_nearest _)]
  have hhi := datum_sub_of_lt hc (datum_sub_of_lt hc ha hbig) (hsmall hhalves.leHi le_rfl)
  exact ⟨hhi, datum_sub_of_lt ha hhi (hsmall hhalves.leLo (by norm_num))⟩

/-- The split of a finite double is finite, or it overflows and is undefined. -/
theorem datum_split (ha : datum a = .number x) :
    datum (split a).1 = .number (highPart x) ∧
        datum (split a).2 = .number (nearest (x - highPart x)) ∨
      datum (split a).2 = .nan := by
  rcases lt_or_ge |nearest (134217729 * x)| (2 ^ (1024 : ℤ)) with hlt | hge
  · exact .inl (datum_split_of_lt ha hlt)
  · have hinfinity : datum (splitter * a) = .infinity (nearest (134217729 * x) < 0) := by
      rw [datum_mul, datum_splitter, ha, Datum.mul_number, Datum.round, Datum.clip,
        if_neg hge.not_gt]
    refine .inr ?_
    have hhi : datum (split a).1 = .nan := by
      change datum (splitter * a - (splitter * a - a)) = _
      rw [datum_sub, datum_sub, hinfinity, ha]
      exact Datum.Lost.add_lost (.inl rfl) ((Datum.Lost.add (.inl rfl) _).neg)
    change datum (a - (split a).1) = _
    rw [datum_sub, hhi, Datum.neg_nan, Datum.add_nan]

end ExactSphere.ErrorFree
