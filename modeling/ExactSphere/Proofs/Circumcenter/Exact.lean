import ExactSphere.Proofs.Circumcenter
import ExactSphere.Proofs.Verdict.Squares

/-!
# The exact side of a circumcenter

Evaluated exactly, the side is the sign of a sum of three roots times the orientation of the sites
(`exactSide_eq`), and the roots are the lengths of the sites. Where the sum vanishes, the
perturbation decides by the signs of exact products of the sorted sites (`displaced_of_sorts`).
-/

namespace ExactSphere

/-- The outcome of a sign that has to be perturbed if it is zero. -/
theorem Predicate.map_outcome_conclude_nonzero {p : Predicate Sign} (stage : Stage) (s : Sign) :
    (p.conclude stage (.nonzero s)).map (·.outcome) = if s = .zero then p.tieBreak else .ok s := by
  cases s with
  | zero =>
    change Except.map _ (Except.map _ p.tieBreak) = p.tieBreak
    cases p.tieBreak <;> rfl
  | negative | positive => rfl

theorem Sign.firstNonzero?_map_neg (signs : List Sign) :
    firstNonzero? (signs.map (-·)) = (firstNonzero? signs).map (-·) := by
  unfold firstNonzero?
  rw [List.find?_map]
  congr 2
  funext s
  cases s <;> rfl

theorem Sign.neg_mul (s t : Sign) : -s * t = -(s * t) := by cases s <;> cases t <;> rfl

theorem Sign.neg_mul_neg (s t : Sign) : -s * -t = s * t := by cases s <;> cases t <;> rfl

namespace Circumcenter

open Certify (Answers)
open ExactSphere.Orientation (repeated exists_sorts_of_distinct exactOf exactDeterminant oriented
  of_eq_exactOf)

variable {x0 x1 a b c p q r : Point} {orientation : Sign}

/-! ## The sum -/

/-- The sum of three roots, in terms of the normal and the sites. -/
noncomputable def radicalSum (n a b c : Vec3 ℝ) : ℝ :=
  n.dot (a.cross b) * c.length + n.dot (b.cross c) * a.length + n.dot (c.cross a) * b.length

theorem radicalSum_swap_left (n a b c : Vec3 ℝ) : radicalSum n b a c = -radicalSum n a b c := by
  simp only [radicalSum, Vec3.dot, Vec3.cross]
  ring

theorem radicalSum_swap_right (n a b c : Vec3 ℝ) : radicalSum n a c b = -radicalSum n a b c := by
  simp only [radicalSum, Vec3.dot, Vec3.cross]
  ring

theorem radicalSum_swap_normal (u v a b c : Vec3 ℝ) :
    radicalSum (v.cross u) a b c = -radicalSum (u.cross v) a b c := by
  simp only [radicalSum, Vec3.dot, Vec3.cross]
  ring

/-- A term is the root of the squared length of its site, times its coefficient. -/
theorem toReal_term (x0 x1 p q r : Point) : (term x0 x1 p q r).value.toReal =
    (x0.real.cross x1.real).dot (q.real.cross r.real) * p.real.length := by
  change ((x0.value.cross x1.value).dot (q.value.cross r.value) : ℚ) * √(p.value.normSq : ℚ) =
    (x0.value.real.cross x1.value.real).dot (q.value.real.cross r.value.real) * p.value.real.length
  rw [← Vec3.real_cross, ← Vec3.real_cross, Vec3.real_dot, Vec3.length, Vec3.real_normSq]

theorem sumVerdict_eq (x0 x1 a b c : Point) : sumVerdict x0 x1 a b c =
    Sign.of (radicalSum (x0.real.cross x1.real) a.real b.real c.real) := by
  have hnonneg : ∀ p q r : Point, 0 ≤ (term x0 x1 p q r).value.radicand :=
    fun p _ _ => p.value.normSq_nonneg
  rw [sumVerdict, RootTerm.sumVerdict_eq (hnonneg c a b) (hnonneg a b c) (hnonneg b c a),
    toReal_term, toReal_term, toReal_term, radicalSum]

/-! ## The perturbation -/

/-- The side to which the circumcenter moves: that of the first product of two sites that is off
the circle, signed by the determinant of the sites. -/
def movedSide (n p q r : Vec3 ℚ) : Option Sign :=
  if (p.cross q).dot r = 0 then none
  else (Sign.firstNonzero? [Sign.of (n.dot (q.cross r)), Sign.of (n.dot (r.cross p)),
    Sign.of (n.dot (p.cross q))]).map (· * Sign.of ((p.cross q).dot r))

/-- The side of the first site that is off the circle. -/
def siteSide (n p q r : Vec3 ℚ) : Option Sign :=
  Sign.firstNonzero? [Sign.of (n.dot p), Sign.of (n.dot q), Sign.of (n.dot r)]

/-- The perturbation of sorted sites: the first of its rules that comes to a side. -/
def sortedSide (x0 x1 p q r : Point) : Except Fault Sign :=
  match movedSide (x0.value.cross x1.value) p.value q.value r.value <|>
    siteSide (x0.value.cross x1.value) p.value q.value r.value with
  | some side => .ok side
  | none => do
    match ← firstSide? x0 x1 [p, q, r] with
    | some side => return side
    | none => throw .unbrokenTie

theorem displaced_of_sorts {odd : Bool} (hx0 : x0.Finite) (hx1 : x1.Finite) (ha : a.Finite)
    (hb : b.Finite) (hc : c.Finite) (h : Point.Sorts a b c p q r odd) :
    displaced x0 x1 a b c = sortedSide x0 x1 p q r := by
  obtain ⟨hp, hq, hr⟩ := h.mem ha hb hc
  have hsign : ∀ {k : ℕ} {e : Expression}, e.Fits k → k ≤ 64 →
      (e.eval BigFloat).sign = Sign.of e.value := fun he hk => (he.represents hk).sign_eq
  have hn := hx0.fits.cross hx1.fits
  have hproduct : ∀ {s t : Point}, s.Finite → t.Finite → BigFloat.sign
      (((x0.lift BigFloat).cross (x1.lift BigFloat)).dot
        ((s.lift BigFloat).cross (t.lift BigFloat))) =
      Sign.of ((x0.value.cross x1.value).dot (s.value.cross t.value)) := fun hs ht =>
    hsign (hn.dot (hs.fits.cross ht.fits)) (by decide)
  have hsite : ∀ {s : Point}, s.Finite → BigFloat.sign
      (((x0.lift BigFloat).cross (x1.lift BigFloat)).dot (s.lift BigFloat)) =
      Sign.of ((x0.value.cross x1.value).dot s.value) := fun hs =>
    hsign (hn.dot hs.fits) (by decide)
  have hdeterminant : BigFloat.sign
      ((p.lift BigFloat).dot ((q.lift BigFloat).cross (r.lift BigFloat))) =
      Sign.of ((p.value.cross q.value).dot r.value) := by
    rw [Vec3.det_rotate, Vec3.dot_comm]
    exact hsign (hp.fits.dot (hq.fits.cross hr.fits)) (by decide)
  have hzero : (Sign.of ((p.value.cross q.value).dot r.value)).isZero = true ↔
      (p.value.cross q.value).dot r.value = 0 := by
    rw [← Sign.of_eq_zero_iff]
    cases Sign.of ((p.value.cross q.value).dot r.value) <;> simp [Sign.isZero]
  unfold displaced sortedSide
  rw [h.sort3_eq]
  dsimp only
  rw [hproduct hq hr, hproduct hr hp, hproduct hp hq, hsite hp, hsite hq, hsite hr, hdeterminant]
  simp only [hzero]
  rfl

/-- Sorting forgets the order of different sites. -/
theorem displaced_perm {a' b' c' : Point} (hx0 : x0.Finite) (hx1 : x1.Finite) (ha : a.Finite)
    (hb : b.Finite) (hc : c.Finite) (ha' : a'.Finite) (hb' : b'.Finite) (hc' : c'.Finite)
    (hsites : repeated a b c = false) (h : [a', b', c'].Perm [a, b, c]) :
    displaced x0 x1 a' b' c' = displaced x0 x1 a b c := by
  obtain ⟨p, q, r, odd, hsorts⟩ := exists_sorts_of_distinct ha hb hc hsites
  obtain ⟨odd', hsorts'⟩ := Point.exists_sorts_of_perm ha' hb' hc' (hsorts.perm.trans h.symm)
    hsorts.fst_lt hsorts.lt_thd
  rw [displaced_of_sorts hx0 hx1 ha hb hc hsorts, displaced_of_sorts hx0 hx1 ha' hb' hc' hsorts']

/-! ## The exact evaluation -/

/-- The side of a circumcenter where every predicate is evaluated exactly. The orientation that the
perturbation may come to is exact as well, by `Orientation.of_eq_exactOf`. -/
def exactSide (x0 x1 a b c : Point) : Except Fault Sign := do
  if x0.same x1 || a.same b || b.same c || c.same a then return .zero
  else (predicate x0 x1 a b c (← exactOf a b c)).exactOutcome

theorem exactSide_of_guard (h : x0.same x1 = true ∨ repeated a b c = true) :
    exactSide x0 x1 a b c = .ok .zero := by
  rw [exactSide, side_guard, Bool.or_eq_true_iff.2 h]
  rfl

theorem exactSide_of_not_guard (hends : x0.same x1 = false) (hsites : repeated a b c = false)
    (ho : exactOf a b c = .ok orientation) :
    exactSide x0 x1 a b c = (predicate x0 x1 a b c orientation).exactOutcome := by
  rw [exactSide, side_guard, hends, hsites, ho]
  rfl

/-- The orientation of different finite points, in exact evaluation. -/
theorem exists_exactOf (ha : a.Finite) (hb : b.Finite) (hc : c.Finite) :
    ∃ s, exactOf a b c = .ok s ∧ (s = .zero ↔ repeated a b c = true) := by
  rw [← of_eq_exactOf ha hb hc]
  exact exists_of ha hb hc

section Finite

variable (hx0 : x0.Finite) (hx1 : x1.Finite) (ha : a.Finite) (hb : b.Finite) (hc : c.Finite)

include hx0 hx1 ha hb hc

theorem exactOutcome_of_dependent (h : Dependent x0 x1) :
    (predicate x0 x1 a b c orientation).exactOutcome = .ok .zero := by
  rcases findingIn_of_dependent hx0 hx1 ha hb hc orientation h .unbounded with hzero | ⟨h, -⟩
  · rw [Predicate.exactOutcome, Predicate.evaluateThrough_of_some hzero.run_eq]
    rfl
  · cases h

theorem exactOutcome_of_independent (h : ¬Dependent x0 x1) (hne : orientation ≠ .zero) :
    (predicate x0 x1 a b c orientation).exactOutcome =
      if radicalSum (x0.real.cross x1.real) a.real b.real c.real = 0 then displaced x0 x1 a b c
      else .ok (Sign.of (radicalSum (x0.real.cross x1.real) a.real b.real c.real) *
        orientation) := by
  rw [(finds_of_independent hx0 hx1 ha hb hc orientation h).exactOutcome_eq,
    Predicate.map_outcome_conclude_nonzero, sumVerdict_eq]
  refine if_congr ?_ rfl rfl
  rw [← Sign.of_eq_zero_iff]
  exact ⟨fun hproduct => by_contra fun hsum => Sign.mul_ne_zero hsum hne hproduct,
    fun hsum => by rw [hsum]; rfl⟩

theorem exactSide_of_dependent (h : Dependent x0 x1) : exactSide x0 x1 a b c = .ok .zero := by
  by_cases hguard : x0.same x1 = true ∨ repeated a b c = true
  · exact exactSide_of_guard hguard
  · rw [not_or, Bool.not_eq_true, Bool.not_eq_true] at hguard
    obtain ⟨orientation, ho, -⟩ := exists_exactOf ha hb hc
    rw [exactSide_of_not_guard hguard.1 hguard.2 ho]
    exact exactOutcome_of_dependent hx0 hx1 ha hb hc h

/-- The side is that of the sum, or else the perturbation decides. -/
theorem exactSide_eq (h : ¬Dependent x0 x1) (hsites : repeated a b c = false)
    (ho : exactOf a b c = .ok orientation) :
    exactSide x0 x1 a b c =
      if radicalSum (x0.real.cross x1.real) a.real b.real c.real = 0 then displaced x0 x1 a b c
      else .ok (Sign.of (radicalSum (x0.real.cross x1.real) a.real b.real c.real) *
        orientation) := by
  have hends : x0.same x1 = false :=
    Bool.eq_false_iff.2 fun hsame => h (dependent_of_same hx0 hx1 hsame)
  obtain ⟨s, hs, hzero⟩ := exists_exactOf ha hb hc
  obtain rfl : s = orientation := Except.ok.inj (hs.symm.trans ho)
  rw [exactSide_of_not_guard hends hsites ho]
  refine exactOutcome_of_independent hx0 hx1 ha hb hc h fun hs0 => ?_
  exact Bool.false_ne_true (hsites.symm.trans (hzero.1 hs0))

theorem exists_exactSide : ∃ s, exactSide x0 x1 a b c = .ok s := by
  by_cases hsites : repeated a b c = true
  · exact ⟨_, exactSide_of_guard (.inr hsites)⟩
  by_cases hdependent : Dependent x0 x1
  · exact ⟨_, exactSide_of_dependent hx0 hx1 ha hb hc hdependent⟩
  have hends : x0.same x1 = false :=
    Bool.eq_false_iff.2 fun hsame => hdependent (dependent_of_same hx0 hx1 hsame)
  rw [Bool.not_eq_true] at hsites
  obtain ⟨orientation, ho, -⟩ := exists_exactOf ha hb hc
  obtain ⟨tie, htie, -⟩ := exists_displaced hx0 hx1 ha hb hc hends hsites
  rw [exactSide_eq hx0 hx1 ha hb hc hdependent hsites ho, htie]
  split_ifs <;> exact ⟨_, rfl⟩

/-- The cascade comes to the exact side, except for misjudged ends. -/
theorem side_eq_exactSide (h : ¬Misjudged x0 x1 a b c) :
    side x0 x1 a b c = exactSide x0 x1 a b c := by
  by_cases hdependent : Dependent x0 x1
  · obtain ⟨s, hs, hzero⟩ := exists_side hx0 hx1 ha hb hc
    rw [hs, exactSide_of_dependent hx0 hx1 ha hb hc hdependent, hzero.2 ⟨.inl hdependent, h⟩]
  by_cases hguard : x0.same x1 = true ∨ repeated a b c = true
  · rw [side_of_guard hguard, exactSide_of_guard hguard]
  · rw [not_or, Bool.not_eq_true, Bool.not_eq_true] at hguard
    obtain ⟨orientation, ho, -⟩ := exists_exactOf ha hb hc
    rw [exactSide_of_not_guard hguard.1 hguard.2 ho,
      side_eq hguard.1 hguard.2 ((of_eq_exactOf ha hb hc).trans ho)]
    exact (finds_of_independent hx0 hx1 ha hb hc orientation hdependent).coherent.outcome_eq

end Finite

end Circumcenter
end ExactSphere
