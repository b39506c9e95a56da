import ExactSphere.Proofs.Tracked.NonFinite

/-!
# Leaves that are not finite leave no certain sign

What is computed over a leaf that is not finite is not a number. It is NaN unless the leaf is
exposed, for a factor that vanishes is computed as zero or NaN, and either makes NaN of what is not
a number (`Reflects`). NaN lies on no side of its error bound, and exposed leaves take the bound out
of the numbers. So no sign is certain but the zero of a formula that vanishes
(`nonFinite_uncertified`).
-/

namespace ExactSphere

/-! ## Data of sums and products -/

namespace Binary64.Datum

/-- A zero or NaN. -/
def Null (d : Datum) : Prop := d = number 0 ∨ d = nan

/-- What the result `z` of an operation tells about its operands. -/
structure Combines (d d' z : Datum) : Prop where
  number : ∀ v, z = number v → (∃ x, d = number x) ∧ ∃ y, d' = number y
  nan : d = nan ∨ d' = nan → z = nan

variable {d : Datum}

theorem Null.neg (h : d.Null) : (-d).Null := by
  rcases h with rfl | rfl
  · exact .inl ((neg_number 0).trans (congrArg number neg_zero))
  · exact .inr rfl

theorem Null.eq_nan (h : d.Null) (hnumber : ∀ v, d ≠ number v) : d = nan :=
  h.resolve_left (hnumber 0)

theorem combines_add (d d' : Datum) : Combines d d' (d + d') where
  number v hv := by
    obtain ⟨x, y, hx, hy, -⟩ := add_eq_number_iff.1 hv
    exact ⟨⟨x, hx⟩, y, hy⟩
  nan h := by
    rcases h with rfl | rfl
    · exact nan_add _
    · exact add_nan _

theorem combines_mul (d d' : Datum) : Combines d d' (d * d') where
  number v hv := by
    obtain ⟨x, y, hx, hy, -⟩ := mul_eq_number_iff.1 hv
    exact ⟨⟨x, hx⟩, y, hy⟩
  nan h := by
    rcases h with rfl | rfl
    · exact nan_mul _
    · exact mul_nan _

/-- A difference combines what the sum with the negated operand does. -/
theorem Combines.of_neg {d d' z : Datum} (h : Combines d (-d') z) : Combines d d' z where
  number v hv := by
    obtain ⟨hx, y, hy⟩ := h.number v hv
    exact ⟨hx, _, neg_eq_number_iff.1 hy⟩
  nan hnan := h.nan (hnan.imp_right fun h => congrArg (-·) h)

theorem round_zero : round 0 = number 0 := round_of_representable .zero (by norm_num)

theorem Null.add {d d' : Datum} (h : d.Null) (h' : d'.Null) : (d + d').Null := by
  rcases h with rfl | rfl
  · rcases h' with rfl | rfl
    · rw [add_number, add_zero, round_zero]
      exact .inl rfl
    · exact .inr rfl
  · exact .inr (nan_add _)

theorem Null.mul (h : d.Null) (d' : Datum) : (d * d').Null := by
  rcases h with rfl | rfl
  · cases d' with
    | number y =>
      rw [mul_number, zero_mul, round_zero]
      exact .inl rfl
    | infinity s => exact .inr (zero_mul_infinity s)
    | nan => exact .inr rfl
  · exact .inr (nan_mul _)

theorem Null.mul_right (h : d.Null) (d' : Datum) : (d' * d).Null := by
  rw [mul_comm]
  exact h.mul d'

end Binary64.Datum

open Binary64 (Datum datum)

/-! ## What a computed value tells about its formula -/

namespace Expression

/-- The datum of a computed value is a number only over finite leaves, and NaN if the leaves that
are not finite are beside factors that vanish. -/
structure Reflects (e : Expression) (d : Datum) : Prop where
  finite : ∀ v, d = .number v → e.Finite
  null : e.Vanishes → d.Null
  nan : ¬e.Finite → ¬e.Exposed → d = .nan

namespace Reflects

variable {e f : Expression} {d d' z : Datum}

theorem leaf (x : Float) : Reflects (.leaf x) (datum x) where
  finite _ h := Binary64.isFinite_of_datum h
  null h := .inl (Binary64.beq_zero_iff.1 h)
  nan h hexposed := absurd (Bool.eq_false_iff.2 h) hexposed

theorem neg (h : Reflects e d) : Reflects e (-d) where
  finite _ hv := h.finite _ (Datum.neg_eq_number_iff.1 hv)
  null hvanishes := (h.null hvanishes).neg
  nan hfinite hexposed := by
    rw [h.nan hfinite hexposed]
    rfl

theorem add (he : Reflects e d) (hf : Reflects f d') (hz : Datum.Combines d d' z)
    (hnull : d.Null → d'.Null → z.Null) : Reflects (e.add f) z where
  finite v hv := by
    obtain ⟨⟨x, hx⟩, y, hy⟩ := hz.number v hv
    exact ⟨he.finite x hx, hf.finite y hy⟩
  null h := hnull (he.null h.1) (hf.null h.2)
  nan hfinite hexposed := by
    obtain ⟨hexposedE, hexposedF⟩ := not_or.1 hexposed
    rcases not_and_or.1 hfinite with h | h
    · exact hz.nan (.inl (he.nan h hexposedE))
    · exact hz.nan (.inr (hf.nan h hexposedF))

theorem mul (he : Reflects e d) (hf : Reflects f d') (hz : Datum.Combines d d' z)
    (hnull : d.Null ∨ d'.Null → z.Null) : Reflects (e.mul f) z := by
  have hnumber : ∀ v, z = .number v → (e.mul f).Finite := by
    intro v hv
    obtain ⟨⟨x, hx⟩, y, hy⟩ := hz.number v hv
    exact ⟨he.finite x hx, hf.finite y hy⟩
  have hvanishes : (e.mul f).Vanishes → z.Null := fun h => hnull (h.imp he.null hf.null)
  refine ⟨hnumber, hvanishes, fun hfinite hexposed => ?_⟩
  by_cases hzero : (e.mul f).Vanishes
  · exact (hvanishes hzero).eq_nan fun v hv => hfinite (hnumber v hv)
  · obtain ⟨hE, hF⟩ := not_or.1 hzero
    obtain ⟨hexposedE, hexposedF⟩ := not_or.1 fun h => hexposed ⟨hE, hF, h⟩
    rcases not_and_or.1 hfinite with h | h
    · exact hz.nan (.inl (he.nan h hexposedE))
    · exact hz.nan (.inr (hf.nan h hexposedF))

end Reflects
end Expression

namespace Tracked

open Expression (Reflects)

/-- How the computed values of a rounded arithmetic behave beyond the numbers. The leading word of a
value says whether it is one. -/
class ValueLaws (α : Type) [WorkingFloat α] where
  IsValue : α → Prop
  word : α → Datum
  leaf (x : Float) : IsValue (WorkingFloat.ofFloat x) ∧ word (WorkingFloat.ofFloat x) = datum x
  neg {a : α} : IsValue a → IsValue (-a) ∧ word (-a) = -word a
  abs {a : α} : IsValue a → IsValue (WorkingFloat.abs a) ∧
    (word (WorkingFloat.abs a) = word a ∨ word (WorkingFloat.abs a) = -word a)
  add {a b : α} : IsValue a → IsValue b →
    IsValue (a + b) ∧ Datum.Combines (word a) (word b) (word (a + b)) ∧
      ((word a).Null → (word b).Null → (word (a + b)).Null)
  sub {a b : α} : IsValue a → IsValue b →
    IsValue (a - b) ∧ Datum.Combines (word a) (word b) (word (a - b)) ∧
      ((word a).Null → (word b).Null → (word (a - b)).Null)
  mul {a b : α} : IsValue a → IsValue b →
    IsValue (a * b) ∧ Datum.Combines (word a) (word b) (word (a * b)) ∧
      ((word a).Null ∨ (word b).Null → (word (a * b)).Null)
  not_less {a x : α} : word x = .nan →
    WorkingFloat.less a x = false ∧ WorkingFloat.less x a = false

namespace ValueLaws

variable {α : Type} [WorkingFloat α] [ValueLaws α]

theorem reflects_eval (e : Expression) :
    IsValue (e.eval (Tracked α)).value ∧ Reflects e (word (e.eval (Tracked α)).value) := by
  induction e with
  | leaf x =>
    obtain ⟨hvalue, hword⟩ := leaf (α := α) x
    exact ⟨hvalue, hword ▸ .leaf x⟩
  | add e f ihe ihf =>
    obtain ⟨hvalue, hword, hnull⟩ := add ihe.1 ihf.1
    exact ⟨hvalue, ihe.2.add ihf.2 hword hnull⟩
  | sub e f ihe ihf =>
    obtain ⟨hvalue, hword, hnull⟩ := sub ihe.1 ihf.1
    -- a difference has the leaves of the sum
    obtain ⟨hfinite, hzero, hnan⟩ := ihe.2.add ihf.2 hword hnull
    exact ⟨hvalue, hfinite, hzero, hnan⟩
  | mul e f ihe ihf =>
    obtain ⟨hvalue, hword, hnull⟩ := mul ihe.1 ihf.1
    exact ⟨hvalue, ihe.2.mul ihf.2 hword hnull⟩
  | neg e ih =>
    obtain ⟨hvalue, hword⟩ := neg ih.1
    obtain ⟨hfinite, hzero, hnan⟩ := ih.2.neg
    exact ⟨hvalue, hword ▸ ⟨hfinite, hzero, hnan⟩⟩
  | abs e ih =>
    obtain ⟨hvalue, hword⟩ := abs ih.1
    have hreflects : Reflects e (word (WorkingFloat.abs (e.eval (Tracked α)).value)) := by
      rcases hword with hword | hword <;> rw [hword]
      · exact ih.2
      · exact ih.2.neg
    obtain ⟨hfinite, hzero, hnan⟩ := hreflects
    exact ⟨hvalue, hfinite, hzero, hnan⟩

variable [MagnitudeLaws α] {e : Expression} {budget : ℕ}

/-- Over a leaf that is not finite, only the zero of a formula that vanishes is certain. -/
theorem run_sign?_of_not_finite (h : ¬e.Finite) (hdepth : e.depth ≤ budget) :
    ((e.eval (Tracked α)).sign? budget).run =
      if e.Vanishes then .ok (some .zero) else uncertain budget := by
  split_ifs with hvanishes
  · exact (MagnitudeLaws.run_sign?_eq_zero_iff hdepth).2 hvanishes
  by_cases hexposed : e.Exposed
  · exact MagnitudeLaws.run_sign?_of_exposed hexposed hdepth
  · have hnan := (reflects_eval (α := α) e).2.nan h hexposed
    exact MagnitudeLaws.run_sign?_eq_uncertain hvanishes hdepth fun _ =>
      ⟨(not_less hnan).1, (not_less hnan).2⟩

end ValueLaws

/-! ## The two arithmetics -/

open Binary64 (datum_add datum_sub datum_mul datum_neg datum_abs)

theorem not_less_of_nan {a x : Float} (h : datum x = .nan) : ¬a < x ∧ ¬x < a := by
  rw [Binary64.lt_iff, Binary64.lt_iff, h, Datum.compare?_nan]
  exact ⟨nofun, nofun⟩

instance : ValueLaws Float where
  IsValue _ := True
  word := datum
  leaf x := ⟨trivial, rfl⟩
  neg _ := ⟨trivial, datum_neg _⟩
  abs {a} _ := by
    refine ⟨trivial, ?_⟩
    change datum a.abs = _ ∨ datum a.abs = _
    rw [datum_abs]
    cases datum a with
    | number x => exact (abs_choice x).imp (congrArg Datum.number) (congrArg Datum.number)
    | infinity s => cases s <;> first | exact .inl rfl | exact .inr rfl
    | nan => exact .inl rfl
  add {a b} _ _ := by
    rw [datum_add]
    exact ⟨trivial, Datum.combines_add _ _, Datum.Null.add⟩
  sub {a b} _ _ := by
    rw [datum_sub]
    exact ⟨trivial, (Datum.combines_add _ _).of_neg, fun ha hb => ha.add hb.neg⟩
  mul {a b} _ _ := by
    rw [datum_mul]
    refine ⟨trivial, Datum.combines_mul _ _, ?_⟩
    rintro (h | h)
    · exact h.mul _
    · exact h.mul_right _
  not_less h := ⟨decide_eq_false (not_less_of_nan h).1, decide_eq_false (not_less_of_nan h).2⟩

namespace DoubleWord

variable {a b z : DoubleWord} {x : ℚ} {P : ℚ → Prop}

theorem combines_of_isNumber
    (h : datum z.hi = .nan ∨ ∃ x y, a.IsNumber x ∧ b.IsNumber y) :
    Datum.Combines (datum a.hi) (datum b.hi) (datum z.hi) where
  number v hv := by
    rcases h with h | ⟨x, y, hx, hy⟩
    · cases h.symm.trans hv
    · exact ⟨⟨_, hx.hi⟩, _, hy.hi⟩
  nan hnan := by
    rcases h with h | ⟨x, y, hx, hy⟩
    · exact h
    · rcases hnan with h | h
      · cases h.symm.trans hx.hi
      · cases h.symm.trans hy.hi

theorem eq_zero_of_null (hx : a.IsNumber x) (h : (datum a.hi).Null) : x = 0 := by
  rcases h with h | h
  · exact hx.eq_zero_of_hi h
  · cases h.symm.trans hx.hi

theorem null_of_outcome (h : DoubleWord.Outcome 0 P z) (hP : ∀ q, P q → q = 0) :
    (datum z.hi).Null := by
  cases h with
  | number h hq =>
    rw [hP _ hq] at h
    exact .inl (h.hi.trans (congrArg Datum.number Binary64.nearest_zero))
  | overflow _ hlarge =>
    rw [abs_zero] at hlarge
    exact absurd hlarge (not_le.2 (by positivity))

theorem sum_laws (ha : a.Normalised) (hb : b.Normalised) :
    Datum.Combines (datum a.hi) (datum b.hi) (datum (a + b).hi) ∧
      ((datum a.hi).Null → (datum b.hi).Null → (datum (a + b).hi).Null) := by
  rcases DoubleWord.add_spec ha hb with hnan | ⟨x, y, hx, hy, h⟩
  · exact ⟨combines_of_isNumber (.inl hnan), fun _ _ => .inr hnan⟩
  · refine ⟨combines_of_isNumber (.inr ⟨x, y, hx, hy⟩), fun hnullA hnullB => ?_⟩
    rw [eq_zero_of_null hx hnullA, eq_zero_of_null hy hnullB, add_zero] at h
    refine null_of_outcome h fun q hq => abs_eq_zero.1 (le_antisymm ?_ (abs_nonneg q))
    simpa using hq

theorem product_laws (ha : a.Normalised) (hb : b.Normalised) :
    Datum.Combines (datum a.hi) (datum b.hi) (datum (a * b).hi) ∧
      ((datum a.hi).Null ∨ (datum b.hi).Null → (datum (a * b).hi).Null) := by
  rcases DoubleWord.mul_spec ha hb with hnan | ⟨x, y, hx, hy, h⟩
  · exact ⟨combines_of_isNumber (.inl hnan), fun _ => .inr hnan⟩
  · refine ⟨combines_of_isNumber (.inr ⟨x, y, hx, hy⟩), fun hnull => ?_⟩
    have hzero : x * y = 0 :=
      mul_eq_zero.2 (hnull.imp (eq_zero_of_null hx) (eq_zero_of_null hy))
    rw [hzero] at h
    exact null_of_outcome h fun q hq => hq.2.1 rfl

instance : ValueLaws DoubleWord where
  IsValue := DoubleWord.Normalised
  word a := datum a.hi
  leaf x := ⟨DoubleWord.normalised_ofFloat x, rfl⟩
  neg ha := ⟨ha.neg, datum_neg _⟩
  abs {a} ha := by
    refine ⟨ha.abs, ?_⟩
    change datum (DoubleWord.abs a).hi = _ ∨ datum (DoubleWord.abs a).hi = _
    unfold DoubleWord.abs
    split_ifs
    · exact .inr (datum_neg _)
    · exact .inl rfl
  add ha hb := ⟨ha.add hb, sum_laws ha hb⟩
  sub {a b} ha hb := by
    obtain ⟨hcombines, hnull⟩ := sum_laws ha hb.neg
    have hword : datum (-b).hi = -datum b.hi := datum_neg _
    rw [hword] at hcombines hnull
    exact ⟨ha.add hb.neg, hcombines.of_neg, fun hnullA hnullB => hnull hnullA hnullB.neg⟩
  mul ha hb := ⟨ha.mul hb, product_laws ha hb⟩
  not_less h := ⟨DoubleWord.not_less_of_nan (.inr h), DoubleWord.not_less_of_nan (.inl h)⟩

end DoubleWord

/-! ## The sign test -/

/-- With a budget that covers the depth, both rounded arithmetics are certain of nothing over a leaf
that is an infinity or NaN, except that a formula which vanishes for its zeros is zero. -/
theorem nonFinite_uncertified (e : Expression) (he : ¬e.Finite) (budget : ℕ)
    (hdepth : e.depth ≤ budget) :
    (sign? (e.eval (Tracked Float)) budget).run =
        (if e.Vanishes then .ok (some .zero) else uncertain budget) ∧
      (sign? (e.eval (Tracked DoubleWord)) budget).run =
        if e.Vanishes then .ok (some .zero) else uncertain budget :=
  ⟨ValueLaws.run_sign?_of_not_finite he hdepth, ValueLaws.run_sign?_of_not_finite he hdepth⟩

/-- An infinity less itself is not certain, and neither is one that a zero hides in a sum. -/
theorem nonFinite_uncertified_infinity :
    let x : Expression := .leaf (.ofBits 0x7FF0000000000000)
    let hidden : Expression := (x.mul (.leaf 0)).add (.leaf 2)
    (sign? ((x.sub x).eval (Tracked Float)) 1).run = .ok none ∧
      (sign? (hidden.eval (Tracked DoubleWord)) 2).run = .ok none := by
  intro x hidden
  have hdifference := nonFinite_uncertified (x.sub x) (by decide +kernel) 1 (by decide)
  have hsum := nonFinite_uncertified hidden (by decide +kernel) 2 (by decide)
  rw [if_neg (by decide +kernel)] at hdifference hsum
  exact ⟨hdifference.1, hsum.2⟩

/-- The product of zero and infinity is certified as zero by both rounded arithmetics, although it
is NaN in exact arithmetic. -/
theorem zero_mul_infinity_certified :
    let e : Expression := .mul (.leaf 0) (.leaf (.ofBits 0x7FF0000000000000))
    ¬e.Finite ∧ e.depth ≤ 1 ∧ (sign? (e.eval (Tracked Float)) 1).run = .ok (some .zero) ∧
      (sign? (e.eval (Tracked DoubleWord)) 1).run = .ok (some .zero) ∧
      (e.eval BigFloat).sign?.run = .error .notANumber := by
  decide +kernel

end Tracked
end ExactSphere
