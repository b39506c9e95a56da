import ExactSphere.Proofs.Binary64.NonNegative
import ExactSphere.Proofs.Tracked.Double
import ExactSphere.Proofs.Tracked.DoubleWord

/-!
# Magnitudes over doubles that are not finite

An infinity or NaN among the leaves takes the computed magnitude out of the numbers, with one
exception: a product with a factor of magnitude zero has magnitude zero whatever the other factor
is. `Expression.Vanishes` and `Expression.Exposed` describe the two cases by the leaves alone. What
both rounded arithmetics have in common is stated once (`MagnitudeLaws`).
-/

namespace ExactSphere

/-! ## Magnitudes read off the leaves -/

namespace Expression

/-- The magnitude of the formula is zero. -/
def Vanishes : Expression → Prop
  | leaf x => (x == 0) = true
  | add e f | sub e f => e.Vanishes ∧ f.Vanishes
  | mul e f => e.Vanishes ∨ f.Vanishes
  | neg e | abs e => e.Vanishes

/-- A leaf that is not finite counts: no factor beside it vanishes. -/
def Exposed : Expression → Prop
  | leaf x => x.isFinite = false
  | add e f | sub e f => e.Exposed ∨ f.Exposed
  | mul e f => ¬e.Vanishes ∧ ¬f.Vanishes ∧ (e.Exposed ∨ f.Exposed)
  | neg e | abs e => e.Exposed

instance decidableVanishes : (e : Expression) → Decidable e.Vanishes
  | leaf x => inferInstanceAs (Decidable ((x == 0) = true))
  | add e f | sub e f =>
    have := decidableVanishes e
    have := decidableVanishes f
    inferInstanceAs (Decidable (e.Vanishes ∧ f.Vanishes))
  | mul e f =>
    have := decidableVanishes e
    have := decidableVanishes f
    inferInstanceAs (Decidable (e.Vanishes ∨ f.Vanishes))
  | neg e | abs e => decidableVanishes e

/-- The value of a formula that vanishes is zero. -/
theorem Vanishes.value_eq_zero {e : Expression} (h : e.Vanishes) : e.value = 0 := by
  induction e with
  | leaf x => exact Binary64.value_of_datum (Binary64.beq_zero_iff.1 h)
  | add e f ihe ihf => rw [value, ihe h.1, ihf h.2, add_zero]
  | sub e f ihe ihf => rw [value, ihe h.1, ihf h.2, sub_zero]
  | mul e f ihe ihf =>
    rcases h with h | h
    · rw [value, ihe h, zero_mul]
    · rw [value, ihf h, mul_zero]
  | neg e ih => rw [value, ih h, neg_zero]
  | abs e ih => rw [value, ih h, abs_zero]

/-- A formula does not vanish if a leaf counts that is not finite. -/
theorem Exposed.not_vanishes {e : Expression} (h : e.Exposed) : ¬e.Vanishes := by
  induction e with
  | leaf x =>
    intro hzero
    have hfinite : x.isFinite = true := Binary64.isFinite_of_datum (Binary64.beq_zero_iff.1 hzero)
    exact absurd (hfinite.symm.trans h) (by decide)
  | add e f ihe ihf | sub e f ihe ihf =>
    rintro ⟨he, hf⟩
    rcases h with h | h
    · exact ihe h he
    · exact ihf h hf
  | mul e f ihe ihf => exact not_or.2 ⟨h.1, h.2.1⟩
  | neg e ih | abs e ih => exact ih h

end Expression

namespace Tracked

/-- No sign: the test is undecided, or its budget has no coefficient. -/
def uncertain (budget : ℕ) : Except Fault (Option Sign) :=
  if budget + 2 < depthLimit then .ok none else .error .depthSum

/-! ## The laws of computed magnitudes -/

/-- How the magnitudes of a rounded arithmetic behave, also beyond the numbers. -/
class MagnitudeLaws (α : Type) [WorkingFloat α] where
  /-- A zero, a positive number, or what has left the numbers. -/
  IsMagnitude : α → Prop
  /-- The magnitude has not left the numbers. -/
  IsNumber : α → Prop
  abs_zero : WorkingFloat.abs (WorkingFloat.ofFloat 0 : α) = WorkingFloat.ofFloat 0
  isMagnitude_leaf (x : Float) : IsMagnitude (WorkingFloat.abs (WorkingFloat.ofFloat x))
  isFinite_of_leaf {x : Float} :
    IsNumber (WorkingFloat.abs (WorkingFloat.ofFloat x)) → x.isFinite = true
  isZero_leaf {x : Float} :
    WorkingFloat.isZero (WorkingFloat.abs (WorkingFloat.ofFloat x : α)) = true ↔ (x == 0) = true
  isMagnitude_add {a b : α} : IsMagnitude a → IsMagnitude b → IsMagnitude (a + b)
  isNumber_of_add {a b : α} :
    IsMagnitude a → IsMagnitude b → IsNumber (a + b) → IsNumber a ∧ IsNumber b
  isZero_add {a b : α} : IsMagnitude a → IsMagnitude b →
    (WorkingFloat.isZero (a + b) = true ↔
      WorkingFloat.isZero a = true ∧ WorkingFloat.isZero b = true)
  isMagnitude_mul {a b : α} : IsMagnitude a → IsMagnitude b →
    WorkingFloat.isZero a = false → WorkingFloat.isZero b = false →
    IsMagnitude (a * b + WorkingFloat.underflowMargin)
  isNumber_of_mul {a b : α} : IsMagnitude a → IsMagnitude b →
    IsNumber (a * b + WorkingFloat.underflowMargin) → IsNumber a ∧ IsNumber b
  isZero_mul {a b : α} : IsMagnitude a → IsMagnitude b →
    WorkingFloat.isZero a = false → WorkingFloat.isZero b = false →
    WorkingFloat.isZero (a * b + WorkingFloat.underflowMargin) = false
  not_less {a x : α} {n : ℕ} : IsMagnitude a → ¬IsNumber a → 0 < n → n < depthLimit →
    let error := WorkingFloat.ofFloat (errorFactor n (WorkingFloat.unitRoundoff α)) * a
    WorkingFloat.less error x = false ∧ WorkingFloat.less x (-error) = false

namespace MagnitudeLaws

variable {α : Type} [WorkingFloat α] [MagnitudeLaws α]

theorem isMagnitude_eval (e : Expression) : IsMagnitude (e.eval (Tracked α)).magnitude := by
  induction e with
  | leaf x => exact isMagnitude_leaf x
  | add e f ihe ihf | sub e f ihe ihf => exact isMagnitude_add ihe ihf
  | mul e f ihe ihf =>
    change IsMagnitude (if WorkingFloat.isZero (e.eval (Tracked α)).magnitude ||
      WorkingFloat.isZero (f.eval (Tracked α)).magnitude then _ else _)
    split_ifs with hzero
    · rw [← abs_zero]
      exact isMagnitude_leaf 0
    · rw [Bool.not_eq_true, Bool.or_eq_false_iff] at hzero
      exact isMagnitude_mul ihe ihf hzero.1 hzero.2
  | neg e ih | abs e ih => exact ih

/-- The computed magnitude is zero if and only if the leaves make it so. -/
theorem isZero_eval_iff (e : Expression) :
    WorkingFloat.isZero (e.eval (Tracked α)).magnitude = true ↔ e.Vanishes := by
  induction e with
  | leaf x => exact isZero_leaf
  | add e f ihe ihf | sub e f ihe ihf =>
    exact (isZero_add (isMagnitude_eval e) (isMagnitude_eval f)).trans (and_congr ihe ihf)
  | mul e f ihe ihf =>
    rw [Expression.Vanishes, ← ihe, ← ihf, ← Bool.or_eq_true]
    change WorkingFloat.isZero (if WorkingFloat.isZero (e.eval (Tracked α)).magnitude ||
      WorkingFloat.isZero (f.eval (Tracked α)).magnitude then WorkingFloat.ofFloat 0
      else _) = true ↔ _
    split_ifs with hzero
    · refine iff_of_true ?_ hzero
      rw [← abs_zero]
      exact isZero_leaf.2 rfl
    · refine iff_of_false ?_ hzero
      rw [Bool.not_eq_true, Bool.or_eq_false_iff] at hzero
      rw [isZero_mul (isMagnitude_eval e) (isMagnitude_eval f) hzero.1 hzero.2]
      exact Bool.false_ne_true
  | neg e ih | abs e ih => exact ih

/-- A leaf that counts takes the magnitude out of the numbers. -/
theorem not_isNumber_eval {e : Expression} (h : e.Exposed) :
    ¬IsNumber (e.eval (Tracked α)).magnitude := by
  induction e with
  | leaf x =>
    intro hnumber
    have hfinite : x.isFinite = true := isFinite_of_leaf hnumber
    exact absurd (hfinite.symm.trans h) (by decide)
  | add e f ihe ihf | sub e f ihe ihf =>
    intro hnumber
    obtain ⟨he, hf⟩ := isNumber_of_add (isMagnitude_eval e) (isMagnitude_eval f) hnumber
    rcases h with h | h
    · exact ihe h he
    · exact ihf h hf
  | mul e f ihe ihf =>
    obtain ⟨he0, hf0, h⟩ := h
    rw [← isZero_eval_iff (α := α)] at he0 hf0
    change ¬IsNumber (if WorkingFloat.isZero (e.eval (Tracked α)).magnitude ||
      WorkingFloat.isZero (f.eval (Tracked α)).magnitude then _ else _)
    rw [if_neg (by rw [Bool.or_eq_true, not_or]; exact ⟨he0, hf0⟩)]
    intro hnumber
    obtain ⟨he, hf⟩ := isNumber_of_mul (isMagnitude_eval e) (isMagnitude_eval f) hnumber
    rcases h with h | h
    · exact ihe h he
    · exact ihf h hf
  | neg e ih | abs e ih => exact ih h

variable {e : Expression} {budget : ℕ}

/-- A sign test certifies a zero if and only if the magnitude is zero. -/
theorem run_sign?_eq_zero_iff (hdepth : e.depth ≤ budget) :
    ((e.eval (Tracked α)).sign? budget).run = .ok (some .zero) ↔ e.Vanishes := by
  rw [← isZero_eval_iff (α := α)]
  by_cases hbudget : budget + 2 < depthLimit
  · rw [Tracked.run_sign? (e.depth_eval.trans_le hdepth) hbudget]
    dsimp only
    split_ifs with hzero
    · exact iff_of_true rfl hzero
    all_goals exact iff_of_false nofun hzero
  · rw [run_sign?_of_limit_le (e.depth_eval.trans_le hdepth) (not_lt.1 hbudget)]
    split_ifs with hzero
    · exact iff_of_true rfl hzero
    · exact iff_of_false nofun hzero

/-- A sign test answers nothing if its comparisons fail. -/
theorem run_sign?_eq_uncertain (hvanishes : ¬e.Vanishes) (hdepth : e.depth ≤ budget)
    (hless : budget + 2 < depthLimit →
      let error : α := WorkingFloat.ofFloat (errorFactor (budget + 2)
        (WorkingFloat.unitRoundoff α)) * (e.eval (Tracked α)).magnitude
      WorkingFloat.less error (e.eval (Tracked α)).value = false ∧
        WorkingFloat.less (e.eval (Tracked α)).value (-error) = false) :
    ((e.eval (Tracked α)).sign? budget).run = uncertain budget := by
  have hzero := mt (isZero_eval_iff (α := α) e).1 hvanishes
  unfold uncertain
  by_cases hbudget : budget + 2 < depthLimit
  · obtain ⟨habove, hbelow⟩ := hless hbudget
    rw [Tracked.run_sign? (e.depth_eval.trans_le hdepth) hbudget, if_neg hzero, if_pos hbudget]
    dsimp only
    rw [habove, hbelow]
    rfl
  · rw [run_sign?_of_limit_le (e.depth_eval.trans_le hdepth) (not_lt.1 hbudget), if_neg hzero,
      if_neg hbudget]

/-- Nothing is certain if a leaf that is not finite counts. -/
theorem run_sign?_of_exposed (h : e.Exposed) (hdepth : e.depth ≤ budget) :
    ((e.eval (Tracked α)).sign? budget).run = uncertain budget :=
  run_sign?_eq_uncertain h.not_vanishes hdepth fun hbudget =>
    not_less (isMagnitude_eval e) (not_isNumber_eval h) (Nat.succ_pos (budget + 1)) hbudget

end MagnitudeLaws

/-! ## Doubles -/

namespace Double

open Binary64 Datum

variable {a b : Float}

theorem datum_add_eq_zero_iff (ha : (datum a).NonNegative) (hb : (datum b).NonNegative) :
    datum (a + b) = .number 0 ↔ datum a = .number 0 ∧ datum b = .number 0 := by
  rw [datum_add]
  constructor
  · intro h
    obtain ⟨x, y, hx, hy, hround⟩ := add_eq_number_iff.1 h
    have hnearest : 0 = nearest (x + y) := (round_eq_number_iff.1 hround).2
    have herror := abs_nearest_add_sub_le (representable_of_datum hx) (representable_of_datum hy)
    rw [← hnearest, zero_sub, abs_neg] at herror
    have hsum : x + y = 0 := by
      have hnonneg := abs_nonneg (x + y)
      have hlt := unit_lt_one
      exact abs_eq_zero.1 (by nlinarith)
    rw [hx] at ha
    rw [hy] at hb
    cases ha with
    | number hx0 =>
      cases hb with
      | number hy0 =>
        rw [hx, hy]
        constructor <;> congr 1 <;> linarith
  · rintro ⟨ha, hb⟩
    rw [ha, hb, add_number, add_zero, Datum.round_of_representable .zero (by norm_num)]

/-- With the margin, a product is not zero. -/
theorem datum_mul_add_margin_ne_zero (ha : (datum a).NonNegative) (hb : (datum b).NonNegative) :
    datum (a * b + minNormal) ≠ .number 0 := by
  rw [datum_add, datum_mul, datum_minNormal]
  intro h
  obtain ⟨p, η, hp, hη, hround⟩ := add_eq_number_iff.1 h
  have hproduct := ha.mul hb
  rw [hp] at hproduct
  cases hη
  cases hproduct with
  | number hp0 =>
    have hmargin : (2 : ℚ) ^ (-1022 : ℤ) ≤ nearest (p + 2 ^ (-1022 : ℤ)) := by
      calc (2 : ℚ) ^ (-1022 : ℤ) = nearest (2 ^ (-1022 : ℤ)) :=
            (nearest_eq_self (.zpow (by norm_num))).symm
        _ ≤ nearest (p + 2 ^ (-1022 : ℤ)) := nearest_mono (by linarith)
    rw [← (round_eq_number_iff.1 hround).2] at hmargin
    exact absurd hmargin (not_le.2 (by positivity))

/-- An error coefficient is not negative, whatever the budget. -/
theorem nonNegative_errorFactor {n : ℕ} (hn : 0 < n) (hlt : n < depthLimit) :
    (datum (errorFactor n unitRoundoff)).NonNegative := by
  have hlt' : n < 2 ^ 32 := hlt
  have hunits := datum_ofNat_mul_unitRoundoff (n := n) (by omega)
  have hpos : 0 < n * unit := mul_pos (by exact_mod_cast hn) (by unfold unit; positivity)
  have hsmall : n * unit ≤ 1 / 2 := by
    have hn32 : (n : ℚ) ≤ 4294967296 := by exact_mod_cast hlt'.le
    unfold unit
    norm_num
    linarith
  have hrest : 1 / 2 ≤ nearest (1 - n * unit) := by
    have hhalf : nearest (1 / 2) = 1 / 2 := by
      rw [show (1 / 2 : ℚ) = 2 ^ (-1 : ℤ) by norm_num]
      exact nearest_eq_self (.zpow (by norm_num))
    calc 1 / 2 = nearest (1 / 2) := hhalf.symm
      _ ≤ nearest (1 - n * unit) := nearest_mono (by linarith)
  have hrest' : nearest (1 - n * unit) ≤ 1 := by
    have hone : nearest 1 = 1 := by
      rw [show (1 : ℚ) = 2 ^ (0 : ℤ) by norm_num]
      exact nearest_eq_self (.zpow (by norm_num))
    calc nearest (1 - n * unit) ≤ nearest 1 := nearest_mono (by linarith)
      _ = 1 := hone
  have hdifference : datum (1 - Float.ofNat n * unitRoundoff) =
      .number (nearest (1 - n * unit)) := by
    refine datum_sub_of_lt datum_one hunits ?_
    rw [abs_of_nonneg (by linarith)]
    exact hrest'.trans_lt (one_lt_zpow₀ one_lt_two (by norm_num))
  exact nonNegative_div hunits hpos hdifference (by linarith)

/-- Nothing lies beyond an error bound that has left the numbers. -/
theorem not_less_of_not_number {c a : Float} (hc : (datum c).NonNegative)
    (ha : (datum a).NonNegative) (h : ∀ x, datum a ≠ .number x) (x : Float) :
    ¬c * a < x ∧ ¬x < -(c * a) := by
  rw [lt_iff, lt_iff, datum_neg, datum_mul]
  rcases hc.mul_of_not_number ha h with hbound | hbound <;> rw [hbound] <;>
    cases datum x with
    | infinity s => cases s <;> exact ⟨by decide, by decide⟩
    | _ => exact ⟨nofun, nofun⟩

instance : MagnitudeLaws Float where
  IsMagnitude a := (datum a).NonNegative
  IsNumber a := ∃ x, datum a = .number x
  abs_zero := rfl
  isMagnitude_leaf x := by
    change (datum x.abs).NonNegative
    rw [datum_abs]
    exact .abs _
  isFinite_of_leaf {x} h := by
    obtain ⟨v, h⟩ := h
    change datum x.abs = _ at h
    rw [datum_abs] at h
    cases hx : datum x with
    | number w => exact isFinite_of_datum hx
    | infinity s | nan =>
      rw [hx] at h
      cases h
  isZero_leaf {x} := by
    change (x.abs == 0) = true ↔ _
    rw [beq_zero_iff, beq_zero_iff, datum_abs]
    cases datum x with
    | number w => simp [Datum.abs]
    | infinity s | nan => simp [Datum.abs]
  isMagnitude_add ha hb := by
    rw [datum_add]
    exact ha.add hb
  isNumber_of_add _ _ h := by
    obtain ⟨z, h⟩ := h
    obtain ⟨x, y, hx, hy, -⟩ := number_of_add h
    exact ⟨⟨x, hx⟩, y, hy⟩
  isZero_add ha hb := by
    change (_ == (0 : Float)) = true ↔ (_ == (0 : Float)) = true ∧ (_ == (0 : Float)) = true
    rw [beq_zero_iff, beq_zero_iff, beq_zero_iff]
    exact datum_add_eq_zero_iff ha hb
  isMagnitude_mul ha hb _ _ := by
    change (datum (_ * _ + minNormal)).NonNegative
    rw [datum_add, datum_mul, datum_minNormal]
    exact (ha.mul hb).add (.number (by positivity))
  isNumber_of_mul _ _ h := by
    obtain ⟨z, h⟩ := h
    obtain ⟨p, η, hp, -, -⟩ := number_of_add h
    obtain ⟨x, y, hx, hy, -⟩ := number_of_mul hp
    exact ⟨⟨x, hx⟩, y, hy⟩
  isZero_mul ha hb _ _ := by
    rw [← Bool.not_eq_true]
    exact fun h => datum_mul_add_margin_ne_zero ha hb (beq_zero_iff.1 h)
  not_less {a x n} ha hnumber hn hlt := by
    obtain ⟨habove, hbelow⟩ := not_less_of_not_number (nonNegative_errorFactor hn hlt) ha
      (not_exists.1 hnumber) x
    exact ⟨decide_eq_false habove, decide_eq_false hbelow⟩

end Double

/-! ## Double-words -/

namespace DoubleWord

open Binary64 ErrorFree

variable {a b : DoubleWord} {r s t : ℚ}

/-- A number that is not negative, unless the high word is infinite or NaN. -/
def IsMagnitude (a : DoubleWord) : Prop :=
  ∀ h, datum a.hi = .number h → ∃ r, a.IsNumber r ∧ 0 ≤ r

theorem IsMagnitude.normalised (h : IsMagnitude a) : a.Normalised := fun z hz =>
  (h z hz).imp fun _ hr => hr.1

theorem IsMagnitude.nonneg (h : IsMagnitude a) (hr : a.IsNumber r) : 0 ≤ r := by
  obtain ⟨r', hr', hnonneg⟩ := h _ hr.hi
  rwa [hr.unique hr']

/-- A magnitude bounds itself. -/
theorem IsMagnitude.magnitude (h : IsMagnitude a) (hr : a.IsNumber r) : Magnitude r 0 a :=
  fun _ _ => ⟨r, hr, .refl (h.nonneg hr)⟩

/-- The high word of an absolute value is a number only if the word is. -/
theorem exists_of_abs_hi {x : Float} {z : ℚ} (h : datum (DoubleWord.ofFloat x).abs.hi = .number z) :
    ∃ v, datum x = .number v := by
  unfold DoubleWord.abs at h
  split_ifs at h
  · change datum (-x) = _ at h
    rw [datum_neg] at h
    exact ⟨_, Datum.neg_eq_number_iff.1 h⟩
  · exact ⟨z, h⟩

theorem hi_of_isZero (h : WorkingFloat.isZero a = true) : datum a.hi = .number 0 :=
  beq_zero_iff.1 (Bool.and_eq_true_iff.1 h).1

theorem isZero_iff (hr : a.IsNumber r) : WorkingFloat.isZero a = true ↔ r = 0 := hr.eq_zero_iff

/-- A sum of magnitudes is a number only if they are, and vanishes only with both. -/
theorem exists_of_add (ha : IsMagnitude a) (hb : IsMagnitude b) {z : ℚ}
    (hz : datum (a + b).hi = .number z) :
    ∃ r s t, a.IsNumber r ∧ b.IsNumber s ∧ (a + b).IsNumber t ∧ 0 ≤ t ∧ (t = 0 ↔ r + s = 0) := by
  rcases DoubleWord.add_spec ha.normalised hb.normalised with hnan | ⟨r, s, hr, hs, -⟩
  · cases hnan.symm.trans hz
  · obtain ⟨t, ht, hlower⟩ :=
      (ha.magnitude hr).add (ha.nonneg hr) (hb.nonneg hs) (hb.magnitude hs) z hz
    exact ⟨r, s, t, hr, hs, ht, hlower.nonneg, hlower.eq_zero_iff⟩

theorem isNumber_of_mul_add {z : ℚ} (ha : IsMagnitude a) (hb : IsMagnitude b)
    (hz : datum (a * b + WorkingFloat.underflowMargin).hi = .number z) :
    ∃ r s, a.IsNumber r ∧ b.IsNumber s := by
  rcases DoubleWord.add_spec (ha.normalised.mul hb.normalised)
    isNumber_underflowMargin.normalised with hnan | ⟨p, η, hp, -, -⟩
  · cases hnan.symm.trans hz
  rcases DoubleWord.mul_spec ha.normalised hb.normalised with hnan | ⟨r, s, hr, hs, -⟩
  · cases hnan.symm.trans hp.hi
  · exact ⟨r, s, hr, hs⟩

/-- A product of magnitudes that are not zero, with the margin, is positive. -/
theorem exists_of_mul (ha : IsMagnitude a) (hb : IsMagnitude b)
    (ha0 : WorkingFloat.isZero a = false) (hb0 : WorkingFloat.isZero b = false) {z : ℚ}
    (hz : datum (a * b + WorkingFloat.underflowMargin).hi = .number z) :
    ∃ t, (a * b + WorkingFloat.underflowMargin).IsNumber t ∧ 0 < t := by
  obtain ⟨r, s, hr, hs⟩ := isNumber_of_mul_add ha hb hz
  have hr0 : r ≠ 0 := fun h => Bool.false_ne_true (ha0.symm.trans ((isZero_iff hr).2 h))
  have hs0 : s ≠ 0 := fun h => Bool.false_ne_true (hb0.symm.trans ((isZero_iff hs).2 h))
  have hproduct := (ha.magnitude hr).mul (ha.nonneg hr) (hb.nonneg hs) (hb.magnitude hs)
  rw [ha0, hb0, Bool.or_self, if_neg Bool.false_ne_true] at hproduct
  obtain ⟨t, ht, hlower⟩ := hproduct z hz
  refine ⟨t, ht, lt_of_le_of_ne hlower.nonneg fun h0 => ?_⟩
  have hzero := hlower.eq_zero_iff.1 h0.symm
  rw [productMagnitude, if_neg (by simp [hr0, hs0])] at hzero
  have hrs := mul_nonneg (ha.nonneg hr) (hb.nonneg hs)
  linarith [margin_pos]

theorem isNumber_zero_iff :
    a.IsNumber 0 ↔ datum a.hi = .number 0 ∧ datum a.lo = .number 0 := by
  constructor
  · intro h
    have hwords := And.intro h.hi h.lo
    rwa [nearest_zero, sub_zero] at hwords
  · rintro ⟨hhi, hlo⟩
    exact ⟨by rwa [nearest_zero], by rwa [nearest_zero, sub_zero]⟩

theorem datum_twoSum_zero {v w : Float} (hv : datum v = .number 0) (hw : datum w = .number 0) :
    datum (twoSum v w).1 = .number 0 ∧ datum (twoSum v w).2 = .number 0 := by
  have h := datum_twoSum hv hw (by simp) (by simpa using largest_pos)
  rwa [add_zero, nearest_zero, sub_zero] at h

/-- Zeros have a sum of zero. -/
theorem isNumber_add_of_zero (ha : a.IsNumber 0) (hb : b.IsNumber 0) : (a + b).IsNumber 0 := by
  have hsum : ∀ {v w : Float}, datum v = .number 0 → datum w = .number 0 →
      datum (v + w) = .number 0 := fun hv hw => (datum_twoSum_zero hv hw).1
  obtain ⟨hahi, halo⟩ := isNumber_zero_iff.1 ha
  obtain ⟨hbhi, hblo⟩ := isNumber_zero_iff.1 hb
  have hhigh := datum_twoSum_zero hahi hbhi
  have hlow := datum_twoSum_zero halo hblo
  have hmiddle := datum_twoSum_zero hhigh.1 (hsum hhigh.2 hlow.1)
  have hlast := datum_twoSum_zero hmiddle.1 (hsum hlow.2 hmiddle.2)
  exact isNumber_zero_iff.2 hlast

instance : MagnitudeLaws DoubleWord where
  IsMagnitude := IsMagnitude
  IsNumber a := ∃ x, datum a.hi = .number x
  abs_zero := rfl
  isMagnitude_leaf x := by
    intro z hz
    obtain ⟨v, hv⟩ := exists_of_abs_hi hz
    exact ⟨|v|, (DoubleWord.IsNumber.ofFloat hv).abs, abs_nonneg v⟩
  isFinite_of_leaf {x} h := by
    obtain ⟨z, hz⟩ := h
    obtain ⟨v, hv⟩ := exists_of_abs_hi hz
    exact isFinite_of_datum hv
  isZero_leaf {x} := by
    rw [beq_zero_iff]
    constructor
    · intro h
      obtain ⟨v, hv⟩ := exists_of_abs_hi (hi_of_isZero h)
      rw [hv, abs_eq_zero.1 ((isZero_iff (DoubleWord.IsNumber.ofFloat hv).abs).1 h)]
    · intro h
      exact (isZero_iff (DoubleWord.IsNumber.ofFloat h).abs).2 abs_zero
  isMagnitude_add ha hb := by
    intro z hz
    obtain ⟨r, s, t, -, -, ht, hnonneg, -⟩ := exists_of_add ha hb hz
    exact ⟨t, ht, hnonneg⟩
  isNumber_of_add ha hb h := by
    obtain ⟨z, hz⟩ := h
    obtain ⟨r, s, t, hr, hs, -⟩ := exists_of_add ha hb hz
    exact ⟨⟨_, hr.hi⟩, _, hs.hi⟩
  isZero_add {a b} ha hb := by
    constructor
    · intro h
      obtain ⟨r, s, t, hr, hs, ht, -, hzero⟩ := exists_of_add ha hb (hi_of_isZero h)
      have hsum := hzero.1 ((isZero_iff ht).1 h)
      have hr0 := ha.nonneg hr
      have hs0 := hb.nonneg hs
      exact ⟨(isZero_iff hr).2 (by linarith), (isZero_iff hs).2 (by linarith)⟩
    · rintro ⟨ha0, hb0⟩
      obtain ⟨r, hr, -⟩ := ha 0 (hi_of_isZero ha0)
      obtain ⟨s, hs, -⟩ := hb 0 (hi_of_isZero hb0)
      obtain rfl := (isZero_iff hr).1 ha0
      obtain rfl := (isZero_iff hs).1 hb0
      exact (isZero_iff (isNumber_add_of_zero hr hs)).2 rfl
  isMagnitude_mul ha hb ha0 hb0 := by
    intro z hz
    obtain ⟨t, ht, hpos⟩ := exists_of_mul ha hb ha0 hb0 hz
    exact ⟨t, ht, hpos.le⟩
  isNumber_of_mul ha hb h := by
    obtain ⟨z, hz⟩ := h
    obtain ⟨r, s, hr, hs⟩ := isNumber_of_mul_add ha hb hz
    exact ⟨⟨_, hr.hi⟩, _, hs.hi⟩
  isZero_mul ha hb ha0 hb0 := by
    rw [← Bool.not_eq_true]
    intro h
    obtain ⟨t, ht, hpos⟩ := exists_of_mul ha hb ha0 hb0 (hi_of_isZero h)
    exact hpos.ne' ((isZero_iff ht).1 h)
  not_less {a x n} ha hnumber _ _ := by
    have hfactor := DoubleWord.normalised_ofFloat
      (errorFactor n (WorkingFloat.unitRoundoff DoubleWord))
    rcases DoubleWord.mul_spec hfactor ha.normalised with hnan | ⟨c, r, -, hr, -⟩
    · refine ⟨DoubleWord.not_less_of_nan (.inl hnan), DoubleWord.not_less_of_nan (.inr ?_)⟩
      exact (datum_neg _).trans (congrArg (-·) hnan)
    · exact absurd ⟨_, hr.hi⟩ hnumber

end DoubleWord

end Tracked
end ExactSphere
