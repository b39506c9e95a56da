import ExactSphere.Proofs.Cascade
import ExactSphere.Proofs.Orientation.Expansion

/-!
# The symbolic orientation is that of displaced points

The points of a finite set are ranked in lexicographic order, and each is displaced according to
its rank. The exact outcome for any three of them is the sign of the determinant of the displaced
points, once the displacements are small enough. One displacement serves for all triples, so the
outcomes are consistent with one another.
-/

namespace ExactSphere

namespace Orientation

open Certify (Answers)
open Filter Topology

/-- The outcome of the exact stage, followed by the perturbation. -/
def exactOf (a b c : Point) : Except Fault Sign :=
  ((predicate a b c).evaluateThrough [.unbounded]).map (·.outcome)

/-- The determinant of the exact coordinates. -/
def exactDeterminant (a b c : Point) : ℚ := (a.value.cross b.value).dot c.value

variable {a b c : Point}

/-! ## The exact outcome -/

theorem finds_verdict (ha : a.Finite) (hb : b.Finite) (hc : c.Finite) :
    (predicate a b c).Finds (verdict a b c) :=
  Predicate.finds_of_sound fun _ => answers_formula ha hb hc

theorem of_eq_exactOf (ha : a.Finite) (hb : b.Finite) (hc : c.Finite) : of a b c = exactOf a b c :=
  (finds_verdict ha hb hc).coherent.outcome_eq

theorem exactOf_eq (ha : a.Finite) (hb : b.Finite) (hc : c.Finite) :
    exactOf a b c = .ok (if repeated a b c then .zero
      else if exactDeterminant a b c = 0 then displaced a b c
      else Sign.of (exactDeterminant a b c)) := by
  refine ((finds_verdict ha hb hc).map_outcome_evaluateThrough []).trans ?_
  change Except.map _ ((predicate a b c).conclude .exact (if repeated a b c then .decided .zero
    else .nonzero (Sign.of (exactDeterminant a b c)))) = _
  split_ifs with hrepeated hzero
  · rfl
  · rw [hzero, Sign.of_zero]
    rfl
  · have hne : Sign.of (exactDeterminant a b c) ≠ .zero := mt Sign.of_eq_zero_iff.1 hzero
    cases hsign : Sign.of (exactDeterminant a b c) with
    | zero => exact absurd hsign hne
    | negative => rfl
    | positive => rfl

/-- The signs that decide a vanishing determinant are those of the exact coefficients. -/
theorem displacedSign_lift (ha : a.Finite) (hb : b.Finite) (hc : c.Finite) :
    displacedSign (a.lift BigFloat) (b.lift BigFloat) (c.lift BigFloat) =
      (Sign.firstNonzero? ((coefficients a.value b.value c.value).tail.map Sign.of)).getD
        .positive := by
  have hsign : ∀ {k : ℕ} {e : Expression}, e.Fits k → k ≤ 64 →
      (e.eval BigFloat).sign = Sign.of e.value := fun he hk => (he.represents hk).sign_eq
  obtain ⟨hax, hay, haz⟩ := ha.fits
  obtain ⟨hbx, hby, hbz⟩ := hb.fits
  obtain ⟨hcx, hcy, hcz⟩ := hc.fits
  have hbc := hb.fits.cross hc.fits
  refine congrArg (fun signs => (Sign.firstNonzero? signs).getD .positive) ?_
  simp only [coefficients, List.tail, List.map, List.cons.injEq, and_true, Sign.of_neg_eq]
  exact ⟨hsign hbc.z (by decide), hsign hbc.y (by decide), hsign hbc.x (by decide),
    hsign ((hcx.mul hay).sub (hcy.mul hax)) (by decide), hsign hcx (by decide),
    congrArg Neg.neg (hsign hcy (by decide)),
    hsign ((hcz.mul hax).sub (hcx.mul haz)) (by decide), hsign hcz (by decide),
    hsign ((hax.mul hby).sub (hay.mul hbx)) (by decide), congrArg Neg.neg (hsign hbx (by decide)),
    hsign hby (by decide), hsign hax (by decide)⟩

theorem symbolicSign_eq (ha : a.Finite) (hb : b.Finite) (hc : c.Finite) :
    symbolicSign a.value b.value c.value =
      if exactDeterminant a b c = 0 then
        displacedSign (a.lift BigFloat) (b.lift BigFloat) (c.lift BigFloat)
      else Sign.of (exactDeterminant a b c) := by
  rw [displacedSign_lift ha hb hc]
  exact (Sign.getD_firstNonzero?_cons _ _ _).trans (if_congr Sign.of_eq_zero_iff rfl rfl)

/-- The outcome for different points is the symbolic sign of the sorted points, negated for an odd
permutation. -/
theorem exactOf_of_sorts {p q r : Point} {odd : Bool} (ha : a.Finite) (hb : b.Finite)
    (hc : c.Finite) (hdistinct : repeated a b c = false) (h : Point.Sorts a b c p q r odd) :
    exactOf a b c = .ok (if odd then -symbolicSign p.value q.value r.value
      else symbolicSign p.value q.value r.value) := by
  obtain ⟨hp, hq, hr⟩ := h.mem ha hb hc
  have hdeterminant : exactDeterminant p q r =
      if odd then -exactDeterminant a b c else exactDeterminant a b c :=
    h.alternating (fun x y z => Vec3.det_swap x.value y.value z.value)
      fun x y z => Vec3.det_swap_right x.value y.value z.value
  rw [exactOf_eq ha hb hc, hdistinct, symbolicSign_eq hp hq hr, hdeterminant]
  congr 1
  by_cases hzero : exactDeterminant a b c = 0
  · simp only [displaced, h.sort3_eq, hzero, neg_zero, ite_self, if_true, Bool.false_eq_true,
      if_false]
  · cases odd
    · simp [hzero]
    · simp [hzero, Sign.of_neg_eq]

/-! ## Displacements by rank -/

/-- The weight of a point: eight to the number of points before it. -/
def weight (keys : Finset (ℚ ×ₗ ℚ ×ₗ ℚ)) (p : Point) : ℕ := 8 ^ (keys.filter (· < p.key)).card

theorem weight_le {keys : Finset (ℚ ×ₗ ℚ ×ₗ ℚ)} {p q : Point} (hp : p.key ∈ keys)
    (h : p.key < q.key) : 8 * weight keys p ≤ weight keys q := by
  have hsub : keys.filter (· < p.key) ⊂ keys.filter (· < q.key) := by
    refine Finset.ssubset_iff_of_subset ?_ |>.2
      ⟨p.key, Finset.mem_filter.2 ⟨hp, h⟩, fun hk => lt_irrefl _ (Finset.mem_filter.1 hk).2⟩
    intro k hk
    obtain ⟨hk, hlt⟩ := Finset.mem_filter.1 hk
    exact Finset.mem_filter.2 ⟨hk, hlt.trans h⟩
  rw [weight, weight, ← pow_succ']
  exact Nat.pow_le_pow_right (by decide) (Finset.card_lt_card hsub)

theorem weight_pos (keys : Finset (ℚ ×ₗ ℚ ×ₗ ℚ)) (p : Point) : 0 < weight keys p :=
  pow_pos (by decide) _

/-- A point displaced according to its rank. -/
def displace (keys : Finset (ℚ ×ₗ ℚ ×ₗ ℚ)) (t : ℝ) (p : Point) : Vec3 ℝ :=
  p.real + displacement (weight keys p) t

theorem symbolicSign_real (a b c : Point) :
    symbolicSign a.real b.real c.real = symbolicSign a.value b.value c.value := by
  have hcoefficients : coefficients a.real b.real c.real =
      (coefficients a.value b.value c.value).map (fun x : ℚ => (x : ℝ)) := by
    simp only [coefficients, Point.real, Vec3.map, Vec3.dot, Vec3.cross, List.map_cons,
      List.map_nil]
    push_cast
    rfl
  rw [symbolicSign, hcoefficients, List.map_map, symbolicSign]
  simp only [Function.comp_def, Sign.of_ratCast]

/-- The determinant of three points after displacement. -/
def movedDeterminant (moved : Point → Vec3 ℝ) (a b c : Point) : ℝ :=
  ((moved a).cross (moved b)).dot (moved c)

variable {keys : Finset (ℚ ×ₗ ℚ ×ₗ ℚ)}

theorem eventually_sign_of_lt {p q r : Point} (hp : p.key ∈ keys) (hq : q.key ∈ keys)
    (hpq : p.key < q.key) (hqr : q.key < r.key) :
    ∀ᶠ t in 𝓝[>] 0, Sign.of (movedDeterminant (displace keys t) p q r) =
      symbolicSign p.value q.value r.value := by
  rw [← symbolicSign_real]
  exact eventually_sign_displaced p.real q.real r.real (weight_pos keys p) (weight_le hp hpq)
    (weight_le hq hqr)

theorem repeated_iff (ha : a.Finite) (hb : b.Finite) (hc : c.Finite) :
    repeated a b c = true ↔ (a.key = b.key ∨ b.key = c.key) ∨ c.key = a.key := by
  simp only [repeated, Bool.or_eq_true, Point.same_iff ha hb, Point.same_iff hb hc,
    Point.same_iff hc ha]

theorem distinct_keys (ha : a.Finite) (hb : b.Finite) (hc : c.Finite)
    (h : repeated a b c = false) : a.key ≠ b.key ∧ b.key ≠ c.key ∧ c.key ≠ a.key := by
  have hkeys := mt (repeated_iff ha hb hc).2 (Bool.eq_false_iff.1 h)
  push Not at hkeys
  exact ⟨hkeys.1.1, hkeys.1.2, hkeys.2⟩

/-- Points can be sorted if none of them is repeated. -/
theorem exists_sorts_of_distinct (ha : a.Finite) (hb : b.Finite) (hc : c.Finite)
    (h : repeated a b c = false) : ∃ p q r odd, Point.Sorts a b c p q r odd := by
  obtain ⟨hab, hbc, hca⟩ := distinct_keys ha hb hc h
  exact Point.exists_sorts ha hb hc hab hbc hca

/-- Small displacements by rank give the exact outcome for different points. -/
theorem eventually_exactOf_eq (ha : a.Finite) (hb : b.Finite) (hc : c.Finite)
    (hka : a.key ∈ keys) (hkb : b.key ∈ keys) (hkc : c.key ∈ keys)
    (hdistinct : repeated a b c = false) :
    ∀ᶠ t in 𝓝[>] 0, movedDeterminant (displace keys t) a b c ≠ 0 ∧
      exactOf a b c = .ok (Sign.of (movedDeterminant (displace keys t) a b c)) := by
  obtain ⟨p, q, r, odd, hsorts⟩ := exists_sorts_of_distinct ha hb hc hdistinct
  obtain ⟨hp, hq, _⟩ := hsorts.mem (P := fun p => p.key ∈ keys) hka hkb hkc
  have houtcome := exactOf_of_sorts ha hb hc hdistinct hsorts
  filter_upwards [eventually_sign_of_lt hp hq hsorts.fst_lt hsorts.lt_thd] with t ht
  have hswap : movedDeterminant (displace keys t) p q r = if odd then
      -movedDeterminant (displace keys t) a b c else movedDeterminant (displace keys t) a b c :=
    hsorts.alternating (fun x y z => Vec3.det_swap _ _ _) fun x y z => Vec3.det_swap_right _ _ _
  have hne := symbolicSign_ne_zero p.real q.real r.real
  rw [symbolicSign_real, ← ht, hswap] at hne
  rw [houtcome, ← ht, hswap]
  cases odd with
  | false => exact ⟨fun hzero => hne (Sign.of_eq_zero_iff.2 hzero), rfl⟩
  | true =>
    refine ⟨fun hzero => hne (Sign.of_eq_zero_iff.2 (neg_eq_zero.2 hzero)), ?_⟩
    simp [Sign.of_neg_eq]

/-! ## Consistency -/

/-- The displaced points explain the exact outcome for three points: it is zero for repeated
points, and otherwise the sign of a determinant that does not vanish. -/
structure Explains (moved : Point → Vec3 ℝ) (a b c : Point) : Prop where
  zero : repeated a b c = true → exactOf a b c = .ok .zero
  ne_zero : repeated a b c = false → movedDeterminant moved a b c ≠ 0
  sign : repeated a b c = false → exactOf a b c = .ok (Sign.of (movedDeterminant moved a b c))

/-- The orientation is that of the exact points as far as these have one, it vanishes for repeated
points only, and every exchange of two points negates it. -/
structure Oriented (a b c : Point) : Prop where
  exact : exactDeterminant a b c ≠ 0 → of a b c = .ok (Sign.of (exactDeterminant a b c))
  zero_iff : of a b c = .ok .zero ↔ repeated a b c = true
  swap_left : of b a c = (of a b c).map (-·)
  swap_right : of a c b = (of a b c).map (-·)
  swap_outer : of c b a = (of a b c).map (-·)

theorem eventually_explains (ha : a.Finite) (hb : b.Finite) (hc : c.Finite) (hka : a.key ∈ keys)
    (hkb : b.key ∈ keys) (hkc : c.key ∈ keys) :
    ∀ᶠ t in 𝓝[>] 0, Explains (displace keys t) a b c := by
  cases hrepeated : repeated a b c with
  | true =>
    have hzero : exactOf a b c = .ok .zero := by rw [exactOf_eq ha hb hc, hrepeated, if_pos rfl]
    exact Eventually.of_forall fun t => ⟨fun _ => hzero, fun h => by simp [hrepeated] at h,
      fun h => by simp [hrepeated] at h⟩
  | false =>
    filter_upwards [eventually_exactOf_eq ha hb hc hka hkb hkc hrepeated] with t ht
    exact ⟨fun h => by simp [hrepeated] at h, fun _ => ht.1, fun _ => ht.2⟩

/-- An odd rearrangement of the points negates the orientation. -/
theorem of_rearranged {a' b' c' : Point} (ha : a.Finite) (hb : b.Finite) (hc : c.Finite)
    (hmem : ∀ {P : Point → Prop}, P a → P b → P c → P a' ∧ P b' ∧ P c')
    (hrepeated : repeated a' b' c' = repeated a b c)
    (hodd : ∀ moved, movedDeterminant moved a' b' c' = -movedDeterminant moved a b c) :
    of a' b' c' = (of a b c).map (-·) := by
  let keys : Finset (ℚ ×ₗ ℚ ×ₗ ℚ) := {a.key, b.key, c.key}
  have hka : a.key ∈ keys := by simp [keys]
  have hkb : b.key ∈ keys := by simp [keys]
  have hkc : c.key ∈ keys := by simp [keys]
  obtain ⟨ha', hb', hc'⟩ := hmem ha hb hc
  obtain ⟨hka', hkb', hkc'⟩ := hmem (P := fun p => p.key ∈ keys) hka hkb hkc
  obtain ⟨t, h, h'⟩ := ((eventually_explains ha hb hc hka hkb hkc).and
    (eventually_explains ha' hb' hc' hka' hkb' hkc')).exists
  rw [of_eq_exactOf ha' hb' hc', of_eq_exactOf ha hb hc]
  cases hcase : repeated a b c with
  | true =>
    rw [h.zero hcase, h'.zero (hrepeated.trans hcase)]
    rfl
  | false =>
    rw [h.sign hcase, h'.sign (hrepeated.trans hcase), hodd, Sign.of_neg_eq]
    rfl

theorem exactDeterminant_of_repeated (ha : a.Finite) (hb : b.Finite) (hc : c.Finite)
    (h : repeated a b c = true) : exactDeterminant a b c = 0 := by
  unfold exactDeterminant
  rcases (repeated_iff ha hb hc).1 h with (h | h) | h
  all_goals
    rw [Point.value_eq_of_key_eq h]
    simp only [Vec3.dot, Vec3.cross]
    ring

theorem oriented (ha : a.Finite) (hb : b.Finite) (hc : c.Finite) : Oriented a b c where
  exact hne := by
    have hdistinct := mt (exactDeterminant_of_repeated ha hb hc) hne
    rw [of_eq_exactOf ha hb hc, exactOf_eq ha hb hc, if_neg hdistinct, if_neg hne]
  zero_iff := by
    let keys : Finset (ℚ ×ₗ ℚ ×ₗ ℚ) := {a.key, b.key, c.key}
    have hka : a.key ∈ keys := by simp [keys]
    have hkb : b.key ∈ keys := by simp [keys]
    have hkc : c.key ∈ keys := by simp [keys]
    obtain ⟨t, h⟩ := (eventually_explains ha hb hc hka hkb hkc).exists
    rw [of_eq_exactOf ha hb hc]
    cases hcase : repeated a b c with
    | true => exact iff_of_true (h.zero hcase) rfl
    | false =>
      rw [h.sign hcase, Except.ok.injEq, Sign.of_eq_zero_iff]
      exact iff_of_false (h.ne_zero hcase) (by simp)
  swap_left := by
    refine of_rearranged ha hb hc (fun ha hb hc => ⟨hb, ha, hc⟩) ?_ fun moved => Vec3.det_swap _ _ _
    rw [Bool.eq_iff_iff, repeated_iff ha hb hc, repeated_iff hb ha hc]
    tauto
  swap_right := by
    refine of_rearranged ha hb hc (fun ha hb hc => ⟨ha, hc, hb⟩) ?_ fun moved =>
      Vec3.det_swap_right _ _ _
    rw [Bool.eq_iff_iff, repeated_iff ha hb hc, repeated_iff ha hc hb]
    tauto
  swap_outer := by
    refine of_rearranged ha hb hc (fun ha hb hc => ⟨hc, hb, ha⟩) ?_ ?_
    · rw [Bool.eq_iff_iff, repeated_iff ha hb hc, repeated_iff hc hb ha]
      tauto
    · intro moved
      exact (Vec3.det_swap _ _ _).trans (congrArg Neg.neg (Vec3.det_rotate _ _ _).symm)

/-- For every finite set of finite points there are arbitrarily small displacements that explain
the exact orientation of any three of them. -/
theorem orientation_consistent {S : Set Point} (hS : S.Finite) (hfinite : ∀ p ∈ S, p.Finite) {δ : ℝ}
    (hδ : 0 < δ) :
    ∃ moved : Point → Vec3 ℝ, (∀ p ∈ S, (moved p - p.real).normSq < δ ^ 2) ∧
      ∀ a ∈ S, ∀ b ∈ S, ∀ c ∈ S, Explains moved a b c ∧ Oriented a b c := by
  classical
  let keys := hS.toFinset.image Point.key
  have hkeys : ∀ p ∈ S, p.key ∈ keys := fun p hp =>
    Finset.mem_image_of_mem _ (hS.mem_toFinset.2 hp)
  have hnear : ∀ᶠ t in 𝓝[>] 0, ∀ p ∈ S, (displace keys t p - p.real).normSq < δ ^ 2 := by
    refine (eventually_all_finite hS).2 ?_
    intro p hp
    filter_upwards [eventually_normSq_displacement_lt (weight_pos keys p)
      (pow_pos hδ 2)] with t ht
    have hdifference : displace keys t p - p.real = displacement (weight keys p) t := by
      change Vec3.mk _ _ _ = _
      simp [displace]
    rw [hdifference]
    exact ht
  have hexplains : ∀ᶠ t in 𝓝[>] 0, ∀ a ∈ S, ∀ b ∈ S, ∀ c ∈ S,
      Explains (displace keys t) a b c := by
    refine (eventually_all_finite hS).2 fun a ha => (eventually_all_finite hS).2 fun b hb => ?_
    refine (eventually_all_finite hS).2 ?_
    intro c hc
    exact eventually_explains (hfinite a ha) (hfinite b hb) (hfinite c hc) (hkeys a ha)
      (hkeys b hb) (hkeys c hc)
  obtain ⟨t, hnear, hexplains⟩ := (hnear.and hexplains).exists
  refine ⟨displace keys t, hnear, fun a ha b hb c hc => ⟨hexplains a ha b hb c hc, ?_⟩⟩
  exact oriented (hfinite a ha) (hfinite b hb) (hfinite c hc)

/-- Three points on one great circle are told apart by displacements below one. -/
theorem orientation_consistent_equator :
    ∃ moved : Point → Vec3 ℝ, (moved ⟨1, 1, 0⟩ - Point.real ⟨1, 1, 0⟩).normSq < 1 ^ 2 ∧
      exactOf ⟨1, 0, 0⟩ ⟨0, 1, 0⟩ ⟨1, 1, 0⟩ = .ok .negative ∧
      Sign.of (movedDeterminant moved ⟨1, 0, 0⟩ ⟨0, 1, 0⟩ ⟨1, 1, 0⟩) = .negative := by
  let S : Set Point := {⟨1, 0, 0⟩, ⟨0, 1, 0⟩, ⟨1, 1, 0⟩}
  have hfinite : ∀ p ∈ S, p.Finite := by
    rintro p (rfl | rfl | rfl) <;> decide +kernel
  have houtcome : exactOf ⟨1, 0, 0⟩ ⟨0, 1, 0⟩ ⟨1, 1, 0⟩ = .ok .negative := by decide +kernel
  obtain ⟨moved, hnear, hmoved⟩ := orientation_consistent S.toFinite hfinite one_pos
  obtain ⟨hexplains, _⟩ := hmoved ⟨1, 0, 0⟩ (by simp [S]) ⟨0, 1, 0⟩ (by simp [S])
    ⟨1, 1, 0⟩ (by simp [S])
  have hsign := hexplains.sign (by decide +kernel)
  rw [houtcome] at hsign
  exact ⟨moved, hnear _ (by simp [S]), houtcome, (Except.ok.inj hsign).symm⟩

end Orientation
end ExactSphere
