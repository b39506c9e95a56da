import ExactSphere.Proofs.Orientation.Displacement
import ExactSphere.Proofs.Tracked.NonFinite
import ExactSphere.Proofs.Verdict.Circumcenter

/-!
# When a circumcenter has no side

The perturbation always comes to a side, so a circumcenter has none only if an evaluation says so
before. The exact evaluation does that for linearly dependent ends of the edge. A rounded one hands
such ends to the perturbation instead if it is sure that the sum is zero but not that the normal is
(`Misjudged`). The zeros among the coordinates tell when this happens (`Masked`), and the sites then
lie on one great circle.
-/

namespace ExactSphere

/-! ## Signs that decide -/

namespace Sign

theorem firstNonzero?_ne_zero {signs : List Sign} {s : Sign} (h : firstNonzero? signs = some s) :
    s ≠ zero := by
  have hs := List.find?_some h
  rintro rfl
  cases hs

theorem mul_ne_zero {s t : Sign} (hs : s ≠ zero) (ht : t ≠ zero) : s * t ≠ zero := by
  cases s <;> cases t <;> first | exact absurd rfl hs | exact absurd rfl ht | exact nofun

end Sign

namespace Vec3

theorem eq_zero_of_normSq {v : Vec3 ℚ} (h : v.normSq = 0) : v = ⟨0, 0, 0⟩ := by
  obtain ⟨x, y, z⟩ := v
  change x * x + y * y + z * z = 0 at h
  have hx := mul_self_nonneg x
  have hy := mul_self_nonneg y
  have hz := mul_self_nonneg z
  rw [mul_self_eq_zero.1 (show x * x = 0 by linarith),
    mul_self_eq_zero.1 (show y * y = 0 by linarith),
    mul_self_eq_zero.1 (show z * z = 0 by linarith)]

end Vec3

namespace Circumcenter

open Certify (Answers)
open ExactSphere.Orientation (repeated repeated_iff exists_sorts_of_distinct exactDeterminant
  oriented)

variable {x0 x1 a b c p q r : Point} {orientation : Sign}

/-! ## The perturbation -/

/-- The orientation of finite points is never a fault. -/
theorem exists_of (ha : a.Finite) (hb : b.Finite) (hc : c.Finite) :
    ∃ s, Orientation.of a b c = .ok s ∧ (s = .zero ↔ repeated a b c = true) := by
  have hzero := (oriented ha hb hc).zero_iff
  rw [Orientation.of_eq_exactOf ha hb hc, Orientation.exactOf_eq ha hb hc] at hzero ⊢
  exact ⟨_, rfl, by rwa [Except.ok.injEq] at hzero⟩

/-- The last rule finds a side unless every point is an end of the edge. -/
theorem exists_firstSide? (hx0 : x0.Finite) (hx1 : x1.Finite) {points : List Point}
    (hpoints : ∀ p ∈ points, p.Finite) :
    ∃ side, firstSide? x0 x1 points = .ok side ∧ side ≠ some .zero ∧
      (side = none → ∀ p ∈ points, repeated x0 x1 p = true) := by
  induction points with
  | nil => exact ⟨none, rfl, nofun, fun _ p hp => by cases hp⟩
  | cons p rest ih =>
    obtain ⟨side, hside, hne, hnone⟩ := ih fun q hq => hpoints q (List.mem_cons_of_mem _ hq)
    obtain ⟨s, hs, hzero⟩ := exists_of hx0 hx1 (hpoints p List.mem_cons_self)
    have hstep : firstSide? x0 x1 (p :: rest) =
        if s.isZero then firstSide? x0 x1 rest else .ok (some s) := by
      rw [firstSide?, hs]
      rfl
    rw [hstep]
    cases s with
    | zero =>
      refine ⟨side, hside, hne, fun h q hq => ?_⟩
      rcases List.mem_cons.1 hq with rfl | hq
      · exact hzero.1 rfl
      · exact hnone h q hq
    | negative | positive => exact ⟨_, rfl, nofun, nofun⟩

/-- Three different points are not all ends of an edge with different ends. -/
theorem not_all_repeated {p q r : Point} (hx0 : x0.Finite) (hx1 : x1.Finite) (hp : p.Finite)
    (hq : q.Finite) (hr : r.Finite) (hends : x0.key ≠ x1.key) (hpq : p.key < q.key)
    (hqr : q.key < r.key)
    (h : ∀ s ∈ [p, q, r], repeated x0 x1 s = true) : False := by
  have hend : ∀ s, s.Finite → s ∈ [p, q, r] → x1.key = s.key ∨ s.key = x0.key := by
    intro s hs hmem
    rcases (repeated_iff hx0 hx1 hs).1 (h s hmem) with (h | h) | h
    · exact absurd h hends
    · exact .inl h
    · exact .inr h
  have hpr := hpq.trans hqr
  rcases hend p hp (by simp) with h₁ | h₁ <;> rcases hend q hq (by simp) with h₂ | h₂ <;>
    rcases hend r hr (by simp) with h₃ | h₃ <;> grind

/-- The rules before the last one find a side or nothing. -/
theorem displaced_of_sort3 {p q r : Point} {odd : Bool} {last : Sign}
    (h : Point.sort3 a b c = ((p, q, r), odd)) (hne : last ≠ .zero)
    (hlast : firstSide? x0 x1 [p, q, r] = .ok (some last)) :
    ∃ s, displaced x0 x1 a b c = .ok s ∧ s ≠ .zero := by
  unfold displaced
  rw [h]
  dsimp only
  rw [hlast]
  generalize hmoved : (if Sign.isZero _ = true then none else _) = moved
  generalize hsite : Sign.firstNonzero? _ = site
  have hmovedNe : ∀ s, moved = some s → s ≠ .zero := by
    rintro s rfl
    split_ifs at hmoved with hdeterminant
    obtain ⟨t, ht, rfl⟩ := Option.map_eq_some_iff.1 hmoved
    refine Sign.mul_ne_zero (Sign.firstNonzero?_ne_zero ht) fun hzero => hdeterminant ?_
    rw [hzero]
    rfl
  have hsiteNe : ∀ s, site = some s → s ≠ .zero := fun s hs =>
    Sign.firstNonzero?_ne_zero (hsite.trans hs)
  cases moved with
  | some s => exact ⟨s, rfl, hmovedNe s rfl⟩
  | none =>
    cases site with
    | some s => exact ⟨s, rfl, hsiteNe s rfl⟩
    | none => exact ⟨last, rfl, hne⟩

/-- The perturbation comes to a side for different sites and different ends of the edge. -/
theorem exists_displaced (hx0 : x0.Finite) (hx1 : x1.Finite) (ha : a.Finite) (hb : b.Finite)
    (hc : c.Finite) (hends : x0.same x1 = false) (hsites : repeated a b c = false) :
    ∃ s, displaced x0 x1 a b c = .ok s ∧ s ≠ .zero := by
  have hends' := mt (Point.same_iff hx0 hx1).2 (Bool.eq_false_iff.1 hends)
  obtain ⟨p, q, r, odd, hsorts⟩ := exists_sorts_of_distinct ha hb hc hsites
  obtain ⟨hp, hq, hr⟩ := hsorts.mem ha hb hc
  have hpoints : ∀ s ∈ [p, q, r], s.Finite := by simp [hp, hq, hr]
  obtain ⟨last, hlast, hne, hnone⟩ := exists_firstSide? hx0 hx1 hpoints
  cases last with
  | none =>
    exact (not_all_repeated hx0 hx1 hp hq hr hends' hsorts.fst_lt hsorts.lt_thd (hnone rfl)).elim
  | some s => exact displaced_of_sort3 hsorts.sort3_eq (fun h => hne (congrArg some h)) hlast

/-! ## The evaluation -/

theorem evaluate_eq (x0 x1 a b c : Point) (orientation : Sign) :
    (predicate x0 x1 a b c orientation).evaluate =
      (predicate x0 x1 a b c orientation).evaluateThrough [.double, .doubleWord, .unbounded] :=
  rfl

/-- If the ends are independent, the sum decides, or else the perturbation. -/
theorem finds_of_independent (hx0 : x0.Finite) (hx1 : x1.Finite) (ha : a.Finite) (hb : b.Finite)
    (hc : c.Finite) (orientation : Sign) (h : ¬Dependent x0 x1) :
    (predicate x0 x1 a b c orientation).Finds (.nonzero (sumVerdict x0 x1 a b c * orientation)) :=
  Predicate.finds_of_sound fun _ => answers_formula_of_independent hx0 hx1 ha hb hc orientation h

/-- What a precision finds of linearly dependent ends. -/
theorem findingIn_of_dependent (hx0 : x0.Finite) (hx1 : x1.Finite) (ha : a.Finite) (hb : b.Finite)
    (hc : c.Finite) (orientation : Sign) (h : Dependent x0 x1) (precision : Precision) :
    Answers precision.rounded ((predicate x0 x1 a b c orientation).findingIn precision)
        (.decided .zero) ∨
      precision.rounded = true ∧ Answers true
        ((predicate x0 x1 a b c orientation).findingIn precision) .degenerate := by
  cases precision with
  | double | doubleWord | unbounded =>
    exact answers_formula_of_dependent hx0 hx1 ha hb hc orientation h

/-- The evaluation of linearly dependent ends comes to zero, unless it asks the perturbation. -/
theorem exists_evaluateThrough_of_dependent (hx0 : x0.Finite) (hx1 : x1.Finite) (ha : a.Finite)
    (hb : b.Finite) (hc : c.Finite) (orientation : Sign) (h : Dependent x0 x1) {tie : Sign}
    (htie : displaced x0 x1 a b c = .ok tie) (hne : tie ≠ .zero) (triage : List Precision) :
    ∃ evaluation : Evaluation Sign,
      (predicate x0 x1 a b c orientation).evaluateThrough (triage ++ [.unbounded]) =
        .ok evaluation ∧ (evaluation.outcome = .zero ↔ evaluation.stage ≠ .symbolic) := by
  let Q : Except Fault (Evaluation Sign) → Prop := fun result => ∃ evaluation : Evaluation Sign,
    result = .ok evaluation ∧ (evaluation.outcome = .zero ↔ evaluation.stage ≠ .symbolic)
  refine Predicate.evaluateThrough_of_answers (Q := Q) (fun precision => ?_) triage
  rcases findingIn_of_dependent hx0 hx1 ha hb hc orientation h precision with
    hzero | ⟨hrounded, hdegenerate⟩
  · exact ⟨_, hzero, _, rfl, iff_of_true rfl precision.stage_ne_symbolic⟩
  · rw [← hrounded] at hdegenerate
    exact ⟨_, hdegenerate, ⟨tie, .symbolic⟩, Predicate.conclude_degenerate htie _,
      iff_of_false hne fun h => h rfl⟩

/-! ## Misjudged edges -/

/-- The three terms vanish for the zeros among the coordinates, but the normal does not. -/
structure Masked (x0 x1 a b c : Point) : Prop where
  not_vanishes :
    ¬((normal x0 x1).x.Vanishes ∧ (normal x0 x1).y.Vanishes ∧ (normal x0 x1).z.Vanishes)
  terms : ∀ t ∈ [term x0 x1 c a b, term x0 x1 a b c, term x0 x1 b c a],
    t.radicand.Vanishes ∨ t.coefficient.Vanishes

/-- The signs of the squared lengths of the sites are certain. -/
def LengthsCertain (α : Type) [Scalar α] (a b c : Point) : Prop :=
  ∀ p ∈ [a, b, c], (sign? (p.lift α).normSq termDepths.radicand).run ≠ .ok none

/-- Different ends of an edge that are linearly dependent, but masked from rounded arithmetic. -/
structure Misjudged (x0 x1 a b c : Point) : Prop where
  dependent : Dependent x0 x1
  ends : x0.same x1 = false
  sites : repeated a b c = false
  masked : Masked x0 x1 a b c
  lengths : LengthsCertain (Tracked Float) a b c ∨ LengthsCertain (Tracked DoubleWord) a b c

section Tracked

variable {β : Type} [WorkingFloat β] [Tracked.MagnitudeLaws β] [SoundScalar true (Tracked β)]

/-- A tracked term is certainly zero if it vanishes for the zeros in it, and is not taken for zero
otherwise. -/
theorem run_sign_eq_zero_iff {t : RootTerm Expression} {depths : RootTerm ℕ} (ht : t.Fits depths)
    (hradicand : depths.radicand ≤ 64) :
    ((t.eval (Tracked β)).sign depths).run = .ok (some .zero) ↔
      (t.radicand.Vanishes ∨ t.coefficient.Vanishes) ∧
        (sign? (t.radicand.eval (Tracked β)) depths.radicand).run ≠ .ok none := by
  have hzero : ∀ {e : Expression} {k : ℕ}, e.Fits k →
      ((sign? (e.eval (Tracked β)) k).run = .ok (some .zero) ↔ e.Vanishes) := fun he =>
    Tracked.MagnitudeLaws.run_sign?_eq_zero_iff he.depth_le
  constructor
  case mp =>
    intro h
    obtain ⟨s, hs, h⟩ := Certify.exists_of_run_bind h
    refine ⟨?_, fun hnone => by cases hs.symm.trans hnone⟩
    split_ifs at h with hs0
    · subst hs0
      exact .inl ((hzero ht.radicand).1 hs)
    · exact .inr ((hzero ht.coefficient).1 h)
  case mpr =>
    rintro ⟨hvanishes, hcertain⟩
    obtain ⟨answer, hrun, -⟩ :=
      (answers_sign? (α := Tracked β) _ ht.radicand hradicand).exists_run
    cases answer with
    | none => exact absurd hrun hcertain
    | some s =>
      refine (Certify.run_bind_of_some hrun).trans ?_
      split_ifs with hs
      · rfl
      · refine (hzero ht.coefficient).2 (hvanishes.resolve_left fun h => hs ?_)
        exact Option.some.inj (Except.ok.inj (hrun.symm.trans ((hzero ht.radicand).2 h)))

variable (hx0 : x0.Finite) (hx1 : x1.Finite)

include hx0 hx1

/-- Tracked values take the normal for zero if it vanishes for the zeros in it. -/
theorem run_formula_tracked : (formula (Tracked β) x0 x1 a b c orientation).run =
    if (normal x0 x1).x.Vanishes ∧ (normal x0 x1).y.Vanishes ∧ (normal x0 x1).z.Vanishes then
      .ok (some (.decided .zero))
    else
      ((fun side => Finding.nonzero (side * orientation)) <$>
        RootTerm.sumSign ((term x0 x1 c a b).eval (Tracked β)) ((term x0 x1 a b c).eval (Tracked β))
          ((term x0 x1 b c a).eval (Tracked β)) termDepths).run := by
  have hnormal := fits_normal hx0 hx1
  obtain ⟨xSign, hx, -⟩ := (answers_sign? (α := Tracked β) _ hnormal.x (by decide)).exists_run
  obtain ⟨ySign, hy, -⟩ := (answers_sign? (α := Tracked β) _ hnormal.y (by decide)).exists_run
  obtain ⟨zSign, hz, -⟩ := (answers_sign? (α := Tracked β) _ hnormal.z (by decide)).exists_run
  have hzero : ∀ {e : Expression} {s : Option Sign}, e.Fits normalBudget →
      (sign? (e.eval (Tracked β)) normalBudget).run = .ok s → (s = some .zero ↔ e.Vanishes) := by
    intro e s he hs
    rw [← Tracked.MagnitudeLaws.run_sign?_eq_zero_iff (α := β) he.depth_le]
    exact ⟨fun h => hs.trans (congrArg _ h), fun h => Except.ok.inj (hs.symm.trans h)⟩
  rw [run_formula hx hy hz]
  refine if_congr ?_ rfl rfl
  rw [hzero hnormal.x hx, hzero hnormal.y hy, hzero hnormal.z hz]

variable (hends : Dependent x0 x1)

include hends

/-- Without a normal, tracked values are certain of a term only if it vanishes for the zeros in
it. -/
theorem vanishes_of_run_sign (hp : p.Finite) (hq : q.Finite) (hr : r.Finite) {s : Sign}
    (h : (((term x0 x1 p q r).eval (Tracked β)).sign termDepths).run = .ok (some s)) :
    ((term x0 x1 p q r).radicand.Vanishes ∨ (term x0 x1 p q r).coefficient.Vanishes) ∧
      (sign? (p.lift (Tracked β)).normSq termDepths.radicand).run ≠ .ok none := by
  have hfits := fits_term hx0 hx1 hp hq hr
  have hanswer := RootTerm.answers_sign_eval (α := Tracked β) hfits (by decide) (by decide)
  rw [hanswer.eq_of_run h, hends.verdict_eq_zero] at h
  exact (run_sign_eq_zero_iff hfits (by decide)).1 h

variable (ha : a.Finite) (hb : b.Finite) (hc : c.Finite)

include ha hb hc

/-- Without a normal, a tracked sum is zero or undecided. -/
theorem answers_formula_of_not_vanishes (h : ¬((normal x0 x1).x.Vanishes ∧
      (normal x0 x1).y.Vanishes ∧ (normal x0 x1).z.Vanishes)) :
    Answers true (formula (Tracked β) x0 x1 a b c orientation) .degenerate := by
  have hsum := (answers_sum (α := Tracked β) hx0 hx1 ha hb hc).map
    (fun side => Finding.nonzero (side * orientation))
  rw [hends.sumVerdict_eq_zero] at hsum
  unfold Answers
  rw [run_formula_tracked hx0 hx1, if_neg h]
  exact hsum

/-- Tracked values hand linearly dependent ends to the perturbation if and only if the ends are
masked and the lengths of the sites are certain. -/
theorem run_formula_eq_degenerate_iff :
    (formula (Tracked β) x0 x1 a b c orientation).run = .ok (some .degenerate) ↔
      Masked x0 x1 a b c ∧ LengthsCertain (Tracked β) a b c := by
  rw [run_formula_tracked hx0 hx1]
  split_ifs with hvanishes
  · exact iff_of_false nofun fun h => h.1.not_vanishes hvanishes
  constructor
  case mp =>
    intro h
    rw [map_eq_pure_bind] at h
    obtain ⟨side, hside, -⟩ := Certify.exists_of_run_bind h
    obtain ⟨⟨x, hcab⟩, ⟨y, habc⟩, z, hbca⟩ := RootTerm.exists_of_run_sumSign hside
    obtain ⟨hcab, hcCertain⟩ := vanishes_of_run_sign hx0 hx1 hends hc ha hb hcab
    obtain ⟨habc, haCertain⟩ := vanishes_of_run_sign hx0 hx1 hends ha hb hc habc
    obtain ⟨hbca, hbCertain⟩ := vanishes_of_run_sign hx0 hx1 hends hb hc ha hbca
    refine ⟨⟨hvanishes, ?_⟩, ?_⟩
    · simpa using ⟨hcab, habc, hbca⟩
    · simpa [LengthsCertain] using ⟨haCertain, hbCertain, hcCertain⟩
  case mpr =>
    rintro ⟨⟨-, hterms⟩, hlengths⟩
    simp only [LengthsCertain, List.mem_cons, List.not_mem_nil, or_false, forall_eq_or_imp,
      forall_eq] at hterms hlengths
    obtain ⟨hcab, habc, hbca⟩ := hterms
    obtain ⟨haCertain, hbCertain, hcCertain⟩ := hlengths
    have hzero : ∀ {p q r : Point}, p.Finite → q.Finite → r.Finite → _ := fun hp hq hr =>
      (run_sign_eq_zero_iff (β := β) (fits_term hx0 hx1 hp hq hr) (by decide)).2
    have hsum := RootTerm.run_sumSign_of_zero (hzero hc ha hb ⟨hcab, hcCertain⟩)
      (hzero ha hb hc ⟨habc, haCertain⟩) (hzero hb hc ha ⟨hbca, hbCertain⟩)
    rw [OptionT.run_map, hsum]
    cases orientation <;> rfl

end Tracked

/-- A term vanishes because its site is zero, or because the other two agree in a component. -/
theorem crosses_eq_zero {p q r : Point} (hdet : exactDeterminant a b c ≠ 0)
    (hp : p.value = ⟨0, 0, 0⟩ → exactDeterminant a b c = 0)
    (h : (term x0 x1 p q r).radicand.Vanishes ∨ (term x0 x1 p q r).coefficient.Vanishes) :
    ((normal x0 x1).x.Vanishes ∨ (q.value.cross r.value).x = 0) ∧
      ((normal x0 x1).y.Vanishes ∨ (q.value.cross r.value).y = 0) ∧
      ((normal x0 x1).z.Vanishes ∨ (q.value.cross r.value).z = 0) := by
  rcases h with h | ⟨⟨hx, hy⟩, hz⟩
  · exact absurd (hp (Vec3.eq_zero_of_normSq h.value_eq_zero)) hdet
  · exact ⟨hx.imp_right fun h => h.value_eq_zero, hy.imp_right fun h => h.value_eq_zero,
      hz.imp_right fun h => h.value_eq_zero⟩

/-- A normal that need not vanish has an axis along which terms vanish only with the products of
their sites. -/
theorem exists_axis (hdet : exactDeterminant a b c ≠ 0)
    (hnormal : ¬((normal x0 x1).x.Vanishes ∧ (normal x0 x1).y.Vanishes ∧
      (normal x0 x1).z.Vanishes)) :
    ∃ axis : Vec3 ℚ, axis.normSq = 1 ∧ ∀ {p q r : Point},
      (p.value = ⟨0, 0, 0⟩ → exactDeterminant a b c = 0) →
      ((term x0 x1 p q r).radicand.Vanishes ∨ (term x0 x1 p q r).coefficient.Vanishes) →
      axis.dot (q.value.cross r.value) = 0 := by
  by_cases hx : (normal x0 x1).x.Vanishes
  · by_cases hy : (normal x0 x1).y.Vanishes
    · have hz : ¬(normal x0 x1).z.Vanishes := fun hz => hnormal ⟨hx, hy, hz⟩
      refine ⟨⟨0, 0, 1⟩, by simp [Vec3.normSq, Vec3.dot], fun hp h => ?_⟩
      simpa [Vec3.dot] using (crosses_eq_zero hdet hp h).2.2.resolve_left hz
    · refine ⟨⟨0, 1, 0⟩, by simp [Vec3.normSq, Vec3.dot], fun hp h => ?_⟩
      simpa [Vec3.dot] using (crosses_eq_zero hdet hp h).2.1.resolve_left hy
  · refine ⟨⟨1, 0, 0⟩, by simp [Vec3.normSq, Vec3.dot], fun hp h => ?_⟩
    simpa [Vec3.dot] using (crosses_eq_zero hdet hp h).1.resolve_left hx

/-- Sites of a masked edge lie on one great circle. -/
theorem Masked.exactDeterminant_eq_zero (h : Masked x0 x1 a b c) :
    exactDeterminant a b c = 0 := by
  by_contra hdet
  have hterm := h.terms
  simp only [List.mem_cons, List.not_mem_nil, or_false, forall_eq_or_imp, forall_eq] at hterm
  obtain ⟨hab, hbc, hca⟩ := hterm
  have hzero : ∀ {p : Point}, (p = a ∨ p = b ∨ p = c) → p.value = ⟨0, 0, 0⟩ →
      exactDeterminant a b c = 0 := by
    rintro p (rfl | rfl | rfl) hp <;>
      simp only [exactDeterminant, hp, Vec3.dot, Vec3.cross] <;> ring
  obtain ⟨axis, hunit, hcross⟩ := exists_axis hdet h.not_vanishes
  have hproduct := Vec3.det_mul_normSq_eq_zero (hcross (hzero (by simp)) hbc)
    (hcross (hzero (by simp)) hca) (hcross (hzero (by simp)) hab)
  rw [hunit, mul_one] at hproduct
  exact hdet hproduct

section Evaluation

variable (hx0 : x0.Finite) (hx1 : x1.Finite) (ha : a.Finite) (hb : b.Finite) (hc : c.Finite)

include hx0 hx1 ha hb hc

/-- The perturbation decides about misjudged ends. -/
theorem evaluate_of_misjudged (orientation : Sign) (h : Misjudged x0 x1 a b c) {tie : Sign}
    (htie : displaced x0 x1 a b c = .ok tie) :
    (predicate x0 x1 a b c orientation).evaluate = .ok ⟨tie, .symbolic⟩ := by
  have htieBreak : (predicate x0 x1 a b c orientation).tieBreak = .ok tie := htie
  have hdouble : Answers true ((predicate x0 x1 a b c orientation).findingIn .double) .degenerate :=
    answers_formula_of_not_vanishes (β := Float) hx0 hx1 h.dependent ha hb hc
      h.masked.not_vanishes
  rw [evaluate_eq]
  rcases hdouble with hdouble | ⟨-, hdouble⟩
  · rw [Predicate.evaluateThrough_of_some hdouble, Predicate.conclude_degenerate htieBreak]
  · have hlengths := h.lengths.resolve_left fun hlengths => by
      have hdegenerate : ((predicate x0 x1 a b c orientation).findingIn .double).run =
          .ok (some .degenerate) :=
        (run_formula_eq_degenerate_iff hx0 hx1 h.dependent ha hb hc).2 ⟨h.masked, hlengths⟩
      cases hdegenerate.symm.trans hdouble
    have hextended : ((predicate x0 x1 a b c orientation).findingIn .doubleWord).run =
        .ok (some .degenerate) :=
      (run_formula_eq_degenerate_iff hx0 hx1 h.dependent ha hb hc).2 ⟨h.masked, hlengths⟩
    rw [Predicate.evaluateThrough_of_none hdouble, Predicate.evaluateThrough_of_some hextended,
      Predicate.conclude_degenerate htieBreak]

/-- Only misjudged ends of those that are linearly dependent get to the perturbation. -/
theorem misjudged_of_symbolic {side : Sign} (hdependent : Dependent x0 x1)
    (hends : x0.same x1 = false) (hsites : repeated a b c = false)
    (h : (predicate x0 x1 a b c orientation).evaluate = .ok ⟨side, .symbolic⟩) :
    Misjudged x0 x1 a b c := by
  obtain ⟨precision, -, hrun⟩ := Predicate.exists_degenerate_of_symbolic h
  cases precision with
  | double =>
    obtain ⟨hmasked, hlengths⟩ :=
      (run_formula_eq_degenerate_iff (β := Float) hx0 hx1 hdependent ha hb hc).1 hrun
    exact ⟨hdependent, hends, hsites, hmasked, .inl hlengths⟩
  | doubleWord =>
    obtain ⟨hmasked, hlengths⟩ :=
      (run_formula_eq_degenerate_iff (β := DoubleWord) hx0 hx1 hdependent ha hb hc).1 hrun
    exact ⟨hdependent, hends, hsites, hmasked, .inr hlengths⟩
  | unbounded =>
    rcases findingIn_of_dependent hx0 hx1 ha hb hc orientation hdependent .unbounded with h | ⟨h, -⟩
    · cases h.eq_of_run hrun
    · cases h

variable (hends : x0.same x1 = false) (hsites : repeated a b c = false) (orientation : Sign)

include hends hsites

/-- For independent ends, the sum or the perturbation comes to a side. -/
theorem exists_outcome_of_independent (h : ¬Dependent x0 x1) :
    ∃ s, (predicate x0 x1 a b c orientation).outcome = .ok s ∧ s ≠ .zero := by
  obtain ⟨tie, htie, hne⟩ := exists_displaced hx0 hx1 ha hb hc hends hsites
  have houtcome := (finds_of_independent hx0 hx1 ha hb hc orientation h).outcome_eq
  cases hsign : sumVerdict x0 x1 a b c * orientation with
  | zero =>
    have htieBreak : (predicate x0 x1 a b c orientation).tieBreak = .ok tie := htie
    rw [hsign, Finding.nonzero, Predicate.conclude_degenerate htieBreak] at houtcome
    exact ⟨tie, houtcome, hne⟩
  | negative | positive =>
    rw [hsign] at houtcome
    exact ⟨_, houtcome, nofun⟩

/-- For dependent ends, only a misjudgement leads to a side. -/
theorem exists_outcome_of_dependent (h : Dependent x0 x1) :
    ∃ s, (predicate x0 x1 a b c orientation).outcome = .ok s ∧
      (s = .zero ↔ ¬Misjudged x0 x1 a b c) := by
  obtain ⟨tie, htie, hne⟩ := exists_displaced hx0 hx1 ha hb hc hends hsites
  obtain ⟨⟨s, stage⟩, hevaluation, hstage⟩ := exists_evaluateThrough_of_dependent hx0 hx1 ha hb
    hc orientation h htie hne [.double, .doubleWord]
  refine ⟨s, congrArg (Except.map Evaluation.outcome) hevaluation, hstage.trans ?_⟩
  refine not_congr ⟨?_, fun hmisjudged => ?_⟩
  · rintro rfl
    exact misjudged_of_symbolic hx0 hx1 ha hb hc h hends hsites hevaluation
  · have hsymbolic := evaluate_of_misjudged hx0 hx1 ha hb hc orientation hmisjudged htie
    exact congrArg Evaluation.stage (Except.ok.inj (hevaluation.symm.trans hsymbolic))

end Evaluation

/-! ## The side -/

theorem dependent_of_same (hx0 : x0.Finite) (hx1 : x1.Finite) (h : x0.same x1 = true) :
    Dependent x0 x1 := by
  rw [Dependent, Point.value_eq_of_key_eq ((Point.same_iff hx0 hx1).1 h), Vec3.cross_self]

/-- Equal ends and repeated sites are guarded against. -/
theorem side_guard (x0 x1 a b c : Point) :
    (x0.same x1 || a.same b || b.same c || c.same a) = (x0.same x1 || repeated a b c) := by
  simp only [repeated, Bool.or_assoc]

theorem side_eq (hends : x0.same x1 = false) (hsites : repeated a b c = false)
    (ho : Orientation.of a b c = .ok orientation) :
    side x0 x1 a b c = (predicate x0 x1 a b c orientation).outcome := by
  rw [side, side_guard, hends, hsites, ho]
  rfl

theorem side_of_guard (h : x0.same x1 = true ∨ repeated a b c = true) :
    side x0 x1 a b c = .ok .zero := by
  rw [side, side_guard, Bool.or_eq_true_iff.2 h]
  rfl

theorem exists_side (hx0 : x0.Finite) (hx1 : x1.Finite) (ha : a.Finite) (hb : b.Finite)
    (hc : c.Finite) :
    ∃ s, side x0 x1 a b c = .ok s ∧ (s = .zero ↔
      (Dependent x0 x1 ∨ repeated a b c = true) ∧ ¬Misjudged x0 x1 a b c) := by
  by_cases hguard : x0.same x1 = true ∨ repeated a b c = true
  · refine ⟨.zero, side_of_guard hguard, iff_of_true rfl ⟨?_, ?_⟩⟩
    · exact hguard.imp_left (dependent_of_same hx0 hx1)
    · intro h
      rcases hguard with hsame | hrepeated
      · exact Bool.false_ne_true (h.ends.symm.trans hsame)
      · exact Bool.false_ne_true (h.sites.symm.trans hrepeated)
  rw [not_or, Bool.not_eq_true, Bool.not_eq_true] at hguard
  obtain ⟨hends, hsites⟩ := hguard
  obtain ⟨orientation, ho, -⟩ := exists_of ha hb hc
  rw [side_eq hends hsites ho]
  by_cases hdependent : Dependent x0 x1
  · obtain ⟨s, hs, hzero⟩ :=
      exists_outcome_of_dependent hx0 hx1 ha hb hc hends hsites orientation hdependent
    exact ⟨s, hs, by rwa [and_iff_right (.inl hdependent)]⟩
  · obtain ⟨s, hs, hne⟩ :=
      exists_outcome_of_independent hx0 hx1 ha hb hc hends hsites orientation hdependent
    refine ⟨s, hs, iff_of_false hne ?_⟩
    rintro ⟨h | h, -⟩
    · exact hdependent h
    · exact Bool.false_ne_true (hsites.symm.trans h)

/-- The side of a circumcenter always exists. It is zero for linearly dependent ends of the edge
and for repeated sites, and for them only, except that the perturbation decides about misjudged
ends. Their sites lie on one great circle. -/
theorem side_zero_iff (hx0 : x0.Finite) (hx1 : x1.Finite) (ha : a.Finite) (hb : b.Finite)
    (hc : c.Finite) :
    ∃ s, side x0 x1 a b c = .ok s ∧
      (s = .zero ↔ (Dependent x0 x1 ∨ repeated a b c = true) ∧ ¬Misjudged x0 x1 a b c) ∧
      (Misjudged x0 x1 a b c → exactDeterminant a b c = 0) := by
  obtain ⟨s, hs, hzero⟩ := exists_side hx0 hx1 ha hb hc
  exact ⟨s, hs, hzero, fun h => h.masked.exactDeterminant_eq_zero⟩

theorem dependent_doubled : Dependent ⟨1, 2, 0⟩ ⟨2, 4, 0⟩ := by
  have hx1 : Point.value ⟨2, 4, 0⟩ = ⟨2, 4, 0⟩ := by
    change Vec3.mk (Binary64.value 2) (Binary64.value 4) (Binary64.value 0) = _
    simp
  have hx0 : Point.value ⟨1, 2, 0⟩ = ⟨1, 2, 0⟩ := by
    change Vec3.mk (Binary64.value 1) (Binary64.value 2) (Binary64.value 0) = _
    simp
  rw [Dependent, hx0, hx1]
  norm_num [Vec3.cross]

/-- Doubling does not show in the zeros of the coordinates. -/
theorem misjudged_doubled : Misjudged ⟨1, 2, 0⟩ ⟨2, 4, 0⟩ ⟨0, 1, 1⟩ ⟨0, 2, 5⟩ ⟨0, 3, -2⟩ where
  dependent := dependent_doubled
  ends := by decide +kernel
  sites := by decide +kernel
  masked := ⟨by decide +kernel, by decide +kernel⟩
  lengths := .inl (by unfold LengthsCertain; decide +kernel)

/-- The ends are linearly dependent and the sites are different, and still there is a side. -/
theorem side_of_dependent_ends :
    Dependent ⟨1, 2, 0⟩ ⟨2, 4, 0⟩ ∧ repeated ⟨0, 1, 1⟩ ⟨0, 2, 5⟩ ⟨0, 3, -2⟩ = false ∧
      ∃ s, side ⟨1, 2, 0⟩ ⟨2, 4, 0⟩ ⟨0, 1, 1⟩ ⟨0, 2, 5⟩ ⟨0, 3, -2⟩ = .ok s ∧ s ≠ .zero := by
  have hx0 : Point.Finite ⟨1, 2, 0⟩ := by decide +kernel
  have hx1 : Point.Finite ⟨2, 4, 0⟩ := by decide +kernel
  obtain ⟨s, hs, hzero⟩ := exists_side hx0 hx1 (a := ⟨0, 1, 1⟩) (b := ⟨0, 2, 5⟩)
    (c := ⟨0, 3, -2⟩) (by decide +kernel) (by decide +kernel) (by decide +kernel)
  exact ⟨dependent_doubled, misjudged_doubled.sites, s, hs,
    fun h => (hzero.1 h).2 misjudged_doubled⟩

/-- Doubled ends are misjudged, and the sites of the edge lie on one great circle. -/
theorem side_zero_iff_doubled :
    Misjudged ⟨1, 2, 0⟩ ⟨2, 4, 0⟩ ⟨0, 1, 1⟩ ⟨0, 2, 5⟩ ⟨0, 3, -2⟩ ∧
      exactDeterminant ⟨0, 1, 1⟩ ⟨0, 2, 5⟩ ⟨0, 3, -2⟩ = 0 := by
  have hx0 : Point.Finite ⟨1, 2, 0⟩ := by decide +kernel
  have hx1 : Point.Finite ⟨2, 4, 0⟩ := by decide +kernel
  obtain ⟨s, -, -, hcircle⟩ := side_zero_iff hx0 hx1 (a := ⟨0, 1, 1⟩) (b := ⟨0, 2, 5⟩)
    (c := ⟨0, 3, -2⟩) (by decide +kernel) (by decide +kernel) (by decide +kernel)
  exact ⟨misjudged_doubled, hcircle misjudged_doubled⟩

end Circumcenter
end ExactSphere
