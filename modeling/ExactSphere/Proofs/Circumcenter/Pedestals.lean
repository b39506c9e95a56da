import ExactSphere.Proofs.Circumcenter.Exact

/-!
# The circumcenter of sites on pedestals

The circumcenter of three sites is as far along each unit site as along any other. If the sites
stand on pedestals, higher ones for sites that sort first, it moves off the circle of the edge. The
exact side of a circumcenter is that of the moved one for all small pedestals that are each far
smaller than the one before (`exactOutcome_of_pedestals`). The circumcenter is the solution of three
linear equations, one for each site. Solved by determinants, the side of the moved one is a sum of
the radical sum and a small term for each pedestal (`Raised.det_mul_dot`), and the first of these
that does not vanish decides (`eventually_sign_nested`).
-/

namespace ExactSphere

open Filter Topology

/-- A small multiple counts only where there is nothing to add it to. -/
theorem eventually_sign_add_mul (x y : ℝ) : ∀ᶠ e in 𝓝[>] 0,
    Sign.of (x + e * y) = if Sign.of x = .zero then Sign.of y else Sign.of x := by
  have hterms : [(x, 0), (y, 1)].Pairwise fun term term' : ℝ × ℕ => term.2 < term'.2 := by simp
  filter_upwards [eventually_sign_powerSum hterms] with e he
  have hsum : powerSum [(x, 0), (y, 1)] e = x + e * y := by
    simp only [powerSum, List.map_cons, List.map_nil, List.sum_cons, List.sum_nil]
    ring
  rw [← hsum, he, List.map_cons, Sign.getD_firstNonzero?_cons, List.map_cons,
    Sign.getD_firstNonzero?_cons]
  cases Sign.of y <;> rfl

/-- With infinitesimals of falling size, the first term that is not zero decides. -/
theorem eventually_sign_nested (x y₀ y₁ y₂ : ℝ) :
    ∀ᶠ e₀ in 𝓝[>] 0, ∀ᶠ e₁ in 𝓝[>] 0, ∀ᶠ e₂ in 𝓝[>] 0,
      Sign.of (x + e₀ * y₀ + e₁ * y₁ + e₂ * y₂) =
        (Sign.firstNonzero? [Sign.of x, Sign.of y₀, Sign.of y₁, Sign.of y₂]).getD .zero := by
  filter_upwards [eventually_sign_add_mul x y₀] with e₀ h₀
  filter_upwards [eventually_sign_add_mul (x + e₀ * y₀) y₁] with e₁ h₁
  filter_upwards [eventually_sign_add_mul (x + e₀ * y₀ + e₁ * y₁) y₂] with e₂ h₂
  rw [h₂, h₁, h₀]
  cases Sign.of x <;> cases Sign.of y₀ <;> cases Sign.of y₁ <;> cases Sign.of y₂ <;> rfl

theorem Sign.mul_comm (s t : Sign) : s * t = t * s := by cases s <;> cases t <;> rfl

namespace Vec3

/-- The unit vector in the direction of a vector. -/
noncomputable def unit (v : Vec3 ℝ) : Vec3 ℝ := v.scale v.length⁻¹

theorem unit_dot_eq_iff {v : Vec3 ℝ} (h : 0 < v.normSq) (w : Vec3 ℝ) (k : ℝ) :
    v.unit.dot w = k ↔ v.dot w = v.length * k := by
  have hscale : v.unit.dot w = v.length⁻¹ * v.dot w := by
    simp only [unit, scale, map, dot]
    ring
  rw [hscale, inv_mul_eq_iff_eq_mul₀ (length_pos h).ne']

theorem eq_of_dot {R : Type} [CommRing R] {v w : Vec3 R} (h : ∀ n : Vec3 R, n.dot v = n.dot w) :
    v = w := by
  have hx := h ⟨1, 0, 0⟩
  have hy := h ⟨0, 1, 0⟩
  have hz := h ⟨0, 0, 1⟩
  simp only [dot, one_mul, zero_mul, add_zero, zero_add] at hx hy hz
  obtain ⟨x, y, z⟩ := v
  exact congr (congr (congrArg mk hx) hy) hz

end Vec3

namespace Circumcenter

open ExactSphere.Orientation (repeated exactOf exactDeterminant oriented of_eq_exactOf
  exactDeterminant_of_repeated)

/-! ## The raised circumcenter -/

/-- The circumcenter of sites on pedestals of the given heights. -/
structure Raised (p q r : Vec3 ℝ) (e₀ e₁ e₂ : ℝ) (z : Vec3 ℝ) : Prop where
  fst : p.unit.dot z = 1 + e₀
  snd : q.unit.dot z = 1 + e₁
  thd : r.unit.dot z = 1 + e₂

section Raised

variable {p q r : Vec3 ℝ} {e₀ e₁ e₂ : ℝ} (h : (p.cross q).dot r ≠ 0)

include h

theorem normSq_pos_of_det : 0 < p.normSq ∧ 0 < q.normSq ∧ 0 < r.normSq := by
  have hq : (q.cross r).dot p ≠ 0 := by rwa [← Vec3.det_rotate]
  have hr : (r.cross p).dot q ≠ 0 := by rwa [← Vec3.det_rotate]
  rw [Vec3.dot_comm] at h hq hr
  exact ⟨Vec3.normSq_pos_of_dot hq, Vec3.normSq_pos_of_dot hr, Vec3.normSq_pos_of_dot h⟩

theorem raised_iff {z : Vec3 ℝ} : Raised p q r e₀ e₁ e₂ z ↔
    p.dot z = p.length * (1 + e₀) ∧ q.dot z = q.length * (1 + e₁) ∧
      r.dot z = r.length * (1 + e₂) := by
  obtain ⟨hp, hq, hr⟩ := normSq_pos_of_det h
  rw [← Vec3.unit_dot_eq_iff hp, ← Vec3.unit_dot_eq_iff hq, ← Vec3.unit_dot_eq_iff hr]
  exact ⟨fun hz => ⟨hz.fst, hz.snd, hz.thd⟩, fun hz => ⟨hz.1, hz.2.1, hz.2.2⟩⟩

/-- Each pedestal adds a term to the sum. -/
theorem Raised.det_mul_dot {z : Vec3 ℝ} (hz : Raised p q r e₀ e₁ e₂ z) (n : Vec3 ℝ) :
    (p.cross q).dot r * n.dot z = radicalSum n p q r + e₀ * (p.length * n.dot (q.cross r)) +
      e₁ * (q.length * n.dot (r.cross p)) + e₂ * (r.length * n.dot (p.cross q)) := by
  obtain ⟨hp, hq, hr⟩ := (raised_iff h).1 hz
  rw [Vec3.det_mul_dot, hp, hq, hr, radicalSum]
  ring

theorem existsUnique_raised (e₀ e₁ e₂ : ℝ) : ∃! z, Raised p q r e₀ e₁ e₂ z := by
  let z := (q.cross r).scale (p.length * (1 + e₀)) + (r.cross p).scale (q.length * (1 + e₁)) +
    (p.cross q).scale (r.length * (1 + e₂))
  have hcombination : ∀ n : Vec3 ℝ, n.dot (z.scale ((p.cross q).dot r)⁻¹) =
      ((p.cross q).dot r)⁻¹ * (p.length * (1 + e₀) * (q.cross r).dot n +
        q.length * (1 + e₁) * (r.cross p).dot n + r.length * (1 + e₂) * (p.cross q).dot n) := by
    intro n
    simp only [z, Vec3.dot, Vec3.scale, Vec3.map, Vec3.add_x, Vec3.add_y, Vec3.add_z]
    ring
  refine ⟨z.scale ((p.cross q).dot r)⁻¹, (raised_iff h).2 ⟨?_, ?_, ?_⟩, fun z' hz' => ?_⟩
  · rw [hcombination, Vec3.cross_dot_right r p, Vec3.cross_dot_left p q, ← Vec3.det_rotate p q r]
    field_simp
    ring
  · rw [hcombination, Vec3.cross_dot_left q r, Vec3.cross_dot_right p q, Vec3.det_rotate r p q]
    field_simp
    ring
  · rw [hcombination, Vec3.cross_dot_right q r, Vec3.cross_dot_left r p]
    field_simp
    ring
  · refine Vec3.eq_of_dot fun n => mul_left_cancel₀ h ?_
    rw [hz'.det_mul_dot h, hcombination, mul_inv_cancel_left₀ h, radicalSum, Vec3.dot_comm n,
      Vec3.dot_comm n, Vec3.dot_comm n]
    ring

/-- The sides of the sum and of the movements by the pedestals. -/
theorem Raised.sign_dot {z : Vec3 ℝ} (hz : Raised p q r e₀ e₁ e₂ z) (n : Vec3 ℝ) :
    Sign.of (n.dot z) = Sign.of (radicalSum n p q r + e₀ * (p.length * n.dot (q.cross r)) +
      e₁ * (q.length * n.dot (r.cross p)) + e₂ * (r.length * n.dot (p.cross q))) *
        Sign.of ((p.cross q).dot r) := by
  have hsquare : 0 < (p.cross q).dot r * (p.cross q).dot r := mul_self_pos.2 h
  rw [← hz.det_mul_dot h, Sign.mul_comm, ← Sign.of_mul, ← mul_assoc, Sign.of_mul_of_pos hsquare]

/-- The signs by which the side of a circumcenter is decided: of the sum and of the movements. -/
noncomputable def decidingSigns (n p q r : Vec3 ℝ) : List Sign :=
  [Sign.of (radicalSum n p q r), Sign.of (n.dot (q.cross r)), Sign.of (n.dot (r.cross p)),
    Sign.of (n.dot (p.cross q))]

/-- Small pedestals, each far smaller than the one before, move the circumcenter to the side of the
first sign that is not zero. -/
theorem eventually_sign_raised (n : Vec3 ℝ) :
    ∀ᶠ e₀ in 𝓝[>] 0, ∀ᶠ e₁ in 𝓝[>] 0, ∀ᶠ e₂ in 𝓝[>] 0, ∀ z, Raised p q r e₀ e₁ e₂ z →
      Sign.of (n.dot z) = (Sign.firstNonzero? (decidingSigns n p q r)).getD .zero *
        Sign.of ((p.cross q).dot r) := by
  obtain ⟨hp, hq, hr⟩ := normSq_pos_of_det h
  have hnested := eventually_sign_nested (radicalSum n p q r) (p.length * n.dot (q.cross r))
    (q.length * n.dot (r.cross p)) (r.length * n.dot (p.cross q))
  rw [Sign.of_mul_of_pos (Vec3.length_pos hp), Sign.of_mul_of_pos (Vec3.length_pos hq),
    Sign.of_mul_of_pos (Vec3.length_pos hr)] at hnested
  filter_upwards [hnested] with e₀ h₀
  filter_upwards [h₀] with e₁ h₁
  filter_upwards [h₁] with e₂ h₂
  intro z hz
  rw [hz.sign_dot h, h₂, decidingSigns]

/-- Without pedestals, a circumcenter off the circle is on the side of the sum. -/
theorem Raised.sign_dot_zero {z : Vec3 ℝ} (hz : Raised p q r 0 0 0 z) {n : Vec3 ℝ}
    (hne : n.dot z ≠ 0) :
    Sign.of (n.dot z) = (Sign.firstNonzero? (decidingSigns n p q r)).getD .zero *
      Sign.of ((p.cross q).dot r) := by
  have hsign := hz.sign_dot h n
  simp only [zero_mul, add_zero] at hsign
  rw [decidingSigns, Sign.getD_firstNonzero?_cons, hsign, if_neg]
  intro hzero
  rw [hzero] at hsign
  exact hne (Sign.of_eq_zero_iff.1 hsign)

end Raised

/-! ## The exact outcome -/

/-- The signs of the movements of the circumcenter of sorted sites. -/
def movementSigns (n p q r : Vec3 ℚ) : List Sign :=
  [Sign.of (n.dot (q.cross r)), Sign.of (n.dot (r.cross p)), Sign.of (n.dot (p.cross q))]

/-- Some movement leaves the circle if the sites are not on one great circle. -/
theorem exists_firstNonzero?_movementSigns {n p q r : Vec3 ℚ} (hdet : (p.cross q).dot r ≠ 0)
    (hn : 0 < n.normSq) : ∃ side, Sign.firstNonzero? (movementSigns n p q r) = some side := by
  refine Option.ne_none_iff_exists'.1 fun hnone => hn.ne' ?_
  have hzero : ∀ s ∈ movementSigns n p q r, s = .zero := by
    intro s hs
    have hs := List.find?_eq_none.1 hnone s hs
    cases s
    case zero => rfl
    all_goals exact absurd rfl hs
  simp only [movementSigns, List.mem_cons, List.not_mem_nil, or_false, forall_eq_or_imp, forall_eq,
    Sign.of_eq_zero_iff] at hzero
  have hproduct := Vec3.det_mul_normSq_eq_zero hzero.1 hzero.2.1 hzero.2.2
  exact (mul_eq_zero.1 hproduct).resolve_left hdet

section Exact

variable {x0 x1 a b c p q r : Point} {orientation : Sign}

theorem decidingSigns_real (x0 x1 p q r : Point) :
    decidingSigns (x0.real.cross x1.real) p.real q.real r.real =
      Sign.of (radicalSum (x0.real.cross x1.real) p.real q.real r.real) ::
        movementSigns (x0.value.cross x1.value) p.value q.value r.value := by
  have hproduct : ∀ s t : Point, (x0.real.cross x1.real).dot (s.real.cross t.real) =
      ((x0.value.cross x1.value).dot (s.value.cross t.value) : ℚ) := fun s t => by
    rw [← Vec3.real_dot, Vec3.real_cross, Vec3.real_cross]
    rfl
  rw [decidingSigns, hproduct, hproduct, hproduct, Sign.of_ratCast, Sign.of_ratCast,
    Sign.of_ratCast, movementSigns]

/-- The perturbation of sites that are not on one great circle is the first movement off the
circle. -/
theorem sortedSide_eq (hends : x0.value.cross x1.value ≠ ⟨0, 0, 0⟩)
    (hdet : exactDeterminant p q r ≠ 0) :
    sortedSide x0 x1 p q r =
      .ok ((Sign.firstNonzero? (movementSigns (x0.value.cross x1.value) p.value q.value
        r.value)).getD .zero * Sign.of (exactDeterminant p q r)) := by
  obtain ⟨side, hside⟩ := exists_firstNonzero?_movementSigns hdet (Vec3.normSq_pos hends)
  have hmoved : movedSide (x0.value.cross x1.value) p.value q.value r.value =
      some (side * Sign.of (exactDeterminant p q r)) := by
    unfold movedSide
    rw [← movementSigns, hside]
    exact if_neg hdet
  rw [sortedSide, hmoved, hside]
  rfl

/-- The exact outcome for sites that are not on one great circle: the first of the deciding signs,
times that of the determinant of the sorted sites. -/
theorem exactOutcome_of_sorts {odd : Bool} (hx0 : x0.Finite) (hx1 : x1.Finite) (ha : a.Finite)
    (hb : b.Finite) (hc : c.Finite) (hends : x0.value.cross x1.value ≠ ⟨0, 0, 0⟩)
    (hdet : exactDeterminant a b c ≠ 0) (h : Point.Sorts a b c p q r odd) :
    exactDeterminant p q r ≠ 0 ∧
      (predicate x0 x1 a b c (Sign.of (exactDeterminant a b c))).exactOutcome =
        .ok ((Sign.firstNonzero? (decidingSigns (x0.real.cross x1.real) p.real q.real
          r.real)).getD .zero * Sign.of (exactDeterminant p q r)) := by
  have hsum : radicalSum (x0.real.cross x1.real) p.real q.real r.real =
      if odd then -radicalSum (x0.real.cross x1.real) a.real b.real c.real
      else radicalSum (x0.real.cross x1.real) a.real b.real c.real :=
    h.alternating (f := fun x y z => radicalSum (x0.real.cross x1.real) x.real y.real z.real)
      (fun _ _ _ => radicalSum_swap_left _ _ _ _) fun _ _ _ => radicalSum_swap_right _ _ _ _
  have hsorted : exactDeterminant p q r =
      if odd then -exactDeterminant a b c else exactDeterminant a b c :=
    h.alternating (fun x y z => Vec3.det_swap x.value y.value z.value)
      fun x y z => Vec3.det_swap_right x.value y.value z.value
  have hdet' : exactDeterminant p q r ≠ 0 := by
    rw [hsorted]
    split_ifs
    · exact neg_ne_zero.2 hdet
    · exact hdet
  refine ⟨hdet', ?_⟩
  rw [exactOutcome_of_independent hx0 hx1 ha hb hc hends (mt Sign.of_eq_zero_iff.1 hdet),
    decidingSigns_real, Sign.getD_firstNonzero?_cons, displaced_of_sorts hx0 hx1 ha hb hc h,
    sortedSide_eq hends hdet', hsum, hsorted]
  cases odd with
  | false =>
    simp only [Bool.false_eq_true, if_false, Sign.of_eq_zero_iff]
    split_ifs <;> rfl
  | true =>
    simp only [if_true, Sign.of_eq_zero_iff, neg_eq_zero]
    split_ifs
    · rfl
    · rw [Sign.of_neg_eq, Sign.of_neg_eq, Sign.neg_mul_neg]

/-- For sites that are not on one great circle, the exact side is that of the circumcenter on small
pedestals, higher for sites that sort first. Off the circle, it is that of the circumcenter
itself. -/
theorem exactOutcome_of_pedestals (hx0 : x0.Finite) (hx1 : x1.Finite) (ha : a.Finite)
    (hb : b.Finite) (hc : c.Finite) (hends : x0.value.cross x1.value ≠ ⟨0, 0, 0⟩)
    (hdet : exactDeterminant a b c ≠ 0) (hsites : [p, q, r].Perm [a, b, c])
    (hpq : p.key < q.key) (hqr : q.key < r.key) :
    ∃ orientation s, exactOf a b c = .ok orientation ∧
      (predicate x0 x1 a b c orientation).exactOutcome = .ok s ∧ side x0 x1 a b c = .ok s ∧
      (∀ e₀ e₁ e₂, ∃! z, Raised p.real q.real r.real e₀ e₁ e₂ z) ∧
      (∀ᶠ e₀ in 𝓝[>] 0, ∀ᶠ e₁ in 𝓝[>] 0, ∀ᶠ e₂ in 𝓝[>] 0,
        ∀ z, Raised p.real q.real r.real e₀ e₁ e₂ z →
          Sign.of ((x0.real.cross x1.real).dot z) = s) ∧
      ∀ z, Raised p.real q.real r.real 0 0 0 z → (x0.real.cross x1.real).dot z ≠ 0 →
        Sign.of ((x0.real.cross x1.real).dot z) = s := by
  obtain ⟨odd, hsorts⟩ := Point.exists_sorts_of_perm ha hb hc hsites hpq hqr
  obtain ⟨hdet', houtcome⟩ := exactOutcome_of_sorts hx0 hx1 ha hb hc hends hdet hsorts
  have ho : exactOf a b c = .ok (Sign.of (exactDeterminant a b c)) := by
    rw [← of_eq_exactOf ha hb hc]
    exact (oriented ha hb hc).exact hdet
  have hside : side x0 x1 a b c =
      (predicate x0 x1 a b c (Sign.of (exactDeterminant a b c))).exactOutcome := by
    have hends' : x0.same x1 = false :=
      Bool.eq_false_iff.2 fun hsame => hends (dependent_of_same hx0 hx1 hsame)
    have hdistinct : repeated a b c = false :=
      Bool.eq_false_iff.2 fun h => hdet (exactDeterminant_of_repeated ha hb hc h)
    rw [side_eq_exactSide hx0 hx1 ha hb hc fun h => hends h.dependent,
      exactSide_of_not_guard hends' hdistinct ho]
  have hreal : (p.real.cross q.real).dot r.real = (exactDeterminant p q r : ℚ) := by
    rw [exactDeterminant, ← Vec3.real_dot, Vec3.real_cross]
    rfl
  have hne : (p.real.cross q.real).dot r.real ≠ 0 := by rwa [hreal, Rat.cast_ne_zero]
  rw [← Sign.of_ratCast (exactDeterminant p q r), ← hreal] at houtcome
  refine ⟨_, _, ho, houtcome, hside.trans houtcome, existsUnique_raised hne,
    eventually_sign_raised hne _, fun z hz hoff => hz.sign_dot_zero hne hoff⟩

/-- The circumcenter of these sites is the pole, which is on the circle of the edge; the pedestal of
the first site moves it to the left. -/
theorem exactOutcome_of_pedestals_pole :
    side ⟨1, 0, 0⟩ ⟨0, 0, 1⟩ ⟨-4, 3, 5⟩ ⟨4, 3, 5⟩ ⟨3, 4, 5⟩ = .ok .positive ∧
      ∀ᶠ e₀ in 𝓝[>] 0, ∀ᶠ e₁ in 𝓝[>] 0, ∀ᶠ e₂ in 𝓝[>] 0, ∀ z,
        Raised (Point.real ⟨-4, 3, 5⟩) (Point.real ⟨3, 4, 5⟩) (Point.real ⟨4, 3, 5⟩) e₀ e₁ e₂ z →
          Sign.of (((Point.real ⟨1, 0, 0⟩).cross (Point.real ⟨0, 0, 1⟩)).dot z) = .positive := by
  have ho : exactOf ⟨-4, 3, 5⟩ ⟨4, 3, 5⟩ ⟨3, 4, 5⟩ = .ok .positive := by decide +kernel
  have houtcome : (predicate ⟨1, 0, 0⟩ ⟨0, 0, 1⟩ ⟨-4, 3, 5⟩ ⟨4, 3, 5⟩ ⟨3, 4, 5⟩
      .positive).exactOutcome = .ok .positive := by decide +kernel
  have hsites : [(⟨-4, 3, 5⟩ : Point), ⟨3, 4, 5⟩, ⟨4, 3, 5⟩].Perm
      [⟨-4, 3, 5⟩, ⟨4, 3, 5⟩, ⟨3, 4, 5⟩] := .cons _ (.swap _ _ _)
  obtain ⟨orientation, s, ho', hs, hside, -, hraised, -⟩ := @exactOutcome_of_pedestals ⟨1, 0, 0⟩
    ⟨0, 0, 1⟩ _ _ _ _ _ _ (by decide +kernel) (by decide +kernel) (by decide +kernel)
    (by decide +kernel) (by decide +kernel) (by decide +kernel) (by decide +kernel) hsites
    (by decide +kernel) (by decide +kernel)
  obtain rfl : .positive = orientation := Except.ok.inj (ho.symm.trans ho')
  obtain rfl : .positive = s := Except.ok.inj (houtcome.symm.trans hs)
  exact ⟨hside, hraised⟩

end Exact

end Circumcenter
end ExactSphere
