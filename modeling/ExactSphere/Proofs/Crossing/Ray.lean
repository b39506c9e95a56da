import ExactSphere.Proofs.Distance.Ranking

/-!
# Crossing points of edges with a great circle

The points strictly between the ends of an edge that lie on a great circle (`crossings`) are those
of one ray, if the ends are on opposite sides of the circle (`crossings_eq_ray`). All points of a
ray have one direction, and the formula of the library takes one of them. So both predicates about
crossing points are about that direction, however the edges and the circle are written down
(`crossings_compared`).
-/

namespace ExactSphere.Crossing

/-! ## The ray of an edge -/

section Ray

variable {a b n p q : Vec3 ℝ}

/-- The points strictly between `a` and `b` on the great circle with the normal `n`. -/
def crossings (a b n : Vec3 ℝ) : Set (Vec3 ℝ) :=
  {q | q.dot n = 0 ∧ ∃ s t : ℝ, 0 < s ∧ 0 < t ∧ q = a.scale s + b.scale t}

/-- The vectors that point the same way as `p`. -/
def ray (p : Vec3 ℝ) : Set (Vec3 ℝ) := {q | ∃ k : ℝ, 0 < k ∧ q = p.scale k}

/-- The crossing point that the formula of the library takes. -/
def rayPoint (a b n : Vec3 ℝ) : Vec3 ℝ := a.scale |b.dot n| + b.scale |a.dot n|

theorem crossings_comm (a b n : Vec3 ℝ) : crossings b a n = crossings a b n := by
  ext q
  constructor
  · rintro ⟨hq, s, t, hs, ht, rfl⟩
    exact ⟨hq, t, s, ht, hs, Vec3.combination_comm _ _ _ _⟩
  · rintro ⟨hq, s, t, hs, ht, rfl⟩
    exact ⟨hq, t, s, ht, hs, Vec3.combination_comm _ _ _ _⟩

theorem crossings_neg (a b n : Vec3 ℝ) : crossings a b (-n) = crossings a b n := by
  simp only [crossings, Vec3.dot_neg, neg_eq_zero]

theorem rayPoint_scale (a b n : Vec3 ℝ) (k : ℝ) :
    (rayPoint a b n).scale k = a.scale (k * |b.dot n|) + b.scale (k * |a.dot n|) := by
  change Vec3.mk _ _ _ = Vec3.mk _ _ _
  congr 1 <;> simp only [rayPoint, Vec3.scale, Vec3.map, Vec3.add_x, Vec3.add_y, Vec3.add_z] <;>
    ring

/-- Each end is weighted by the distance of the other one from the circle. -/
theorem rayPoint_dot (h : a.dot n * b.dot n < 0) : (rayPoint a b n).dot n = 0 := by
  rw [rayPoint, Vec3.combination_dot]
  rcases mul_neg_iff.1 h with ⟨ha, hb⟩ | ⟨ha, hb⟩
  · rw [abs_of_pos ha, abs_of_neg hb]
    ring
  · rw [abs_of_neg ha, abs_of_pos hb]
    ring

/-- The crossing points of an edge are the points of one ray. -/
theorem crossings_eq_ray (h : a.dot n * b.dot n < 0) :
    crossings a b n = ray (rayPoint a b n) := by
  have ha : 0 < |a.dot n| := abs_pos.2 (left_ne_zero_of_mul h.ne)
  have hb : 0 < |b.dot n| := abs_pos.2 (right_ne_zero_of_mul h.ne)
  ext q
  constructor
  · rintro ⟨hq, s, t, hs, ht, rfl⟩
    -- the weights have the ratio of the distances, since the signs of the ends cancel
    have hratio : s * |a.dot n| = t * |b.dot n| := by
      rw [Vec3.combination_dot] at hq
      have habs := congrArg abs (eq_neg_of_add_eq_zero_left hq)
      rwa [abs_neg, abs_mul, abs_mul, abs_of_pos hs, abs_of_pos ht] at habs
    refine ⟨s / |b.dot n|, div_pos hs hb, ?_⟩
    rw [rayPoint_scale, div_mul_cancel₀ _ hb.ne', div_mul_eq_mul_div, hratio,
      mul_div_cancel_right₀ _ hb.ne']
  · rintro ⟨k, hk, rfl⟩
    refine ⟨?_, _, _, mul_pos hk hb, mul_pos hk ha, rayPoint_scale a b n k⟩
    rw [Vec3.dot_comm, Vec3.dot_scale, Vec3.dot_comm, rayPoint_dot h, mul_zero]

theorem mem_ray_self (p : Vec3 ℝ) : p ∈ ray p := by
  refine ⟨1, one_pos, ?_⟩
  change Vec3.mk _ _ _ = Vec3.mk _ _ _
  congr 1 <;> exact (one_mul _).symm

/-- All points of a ray have one direction. -/
theorem dot_div_length_of_mem_ray (hq : q ∈ ray p) (m : Vec3 ℝ) :
    m.dot q / q.length = m.dot p / p.length := by
  obtain ⟨k, hk, rfl⟩ := hq
  rw [Vec3.dot_scale, Vec3.length_scale hk.le, mul_div_mul_left _ _ hk.ne']

theorem sign_dot_of_mem_ray (hq : q ∈ ray p) (x : Vec3 ℝ) :
    Sign.of (x.dot q) = Sign.of (x.dot p) := by
  obtain ⟨k, hk, rfl⟩ := hq
  rw [Vec3.dot_scale, Sign.of_mul_of_pos hk]

/-- The ends of the edge `ab` lie on opposite sides of the great circle with the normal `n`, and are
not antipodal. -/
structure Crosses (a b n : Vec3 ℝ) : Prop where
  opposite : a.dot n * b.dot n < 0
  nonzero : ⟨0, 0, 0⟩ ∉ crossings a b n

theorem Crosses.comm (h : Crosses a b n) : Crosses b a n where
  opposite := by
    rw [mul_comm]
    exact h.opposite
  nonzero := by
    rw [crossings_comm]
    exact h.nonzero

theorem Crosses.neg (h : Crosses a b n) : Crosses a b (-n) where
  opposite := by
    rw [Vec3.dot_neg, Vec3.dot_neg, neg_mul_neg]
    exact h.opposite
  nonzero := by
    rw [crossings_neg]
    exact h.nonzero

theorem Crosses.rayPoint_mem (h : Crosses a b n) : rayPoint a b n ∈ crossings a b n := by
  rw [crossings_eq_ray h.opposite]
  exact mem_ray_self _

theorem Crosses.length_pos (h : Crosses a b n) (hq : q ∈ crossings a b n) : 0 < q.length := by
  refine Vec3.length_pos (Vec3.normSq_pos ?_)
  rintro rfl
  exact h.nonzero hq

end Ray

/-! ## The exact tests -/

section Exact

theorem real_exactPoint (a b n : Vec3 ℚ) :
    (exactPoint a b n).real = rayPoint a.real b.real n.real := by
  rw [exactPoint, rayPoint, Vec3.real_dot, Vec3.real_dot]
  change Vec3.mk _ _ _ = Vec3.mk _ _ _
  congr 1 <;> simp only [Vec3.real, Vec3.scale, Vec3.map, Vec3.add_x, Vec3.add_y, Vec3.add_z] <;>
    push_cast <;> rfl

/-- Whether an edge crosses a circle can be computed from exact coordinates. -/
theorem Crosses.of_exactPoint {a b n : Vec3 ℚ} (h : a.dot n * b.dot n < 0)
    (hpoint : exactPoint a b n ≠ ⟨0, 0, 0⟩) : Crosses a.real b.real n.real := by
  have hreal : a.real.dot n.real * b.real.dot n.real < 0 := by
    rw [Vec3.real_dot, Vec3.real_dot]
    exact_mod_cast h
  refine ⟨hreal, ?_⟩
  rw [crossings_eq_ray hreal, ← real_exactPoint]
  rintro ⟨k, hk, hzero⟩
  have hnorm := congrArg Vec3.normSq hzero
  rw [Vec3.normSq, Vec3.zero_dot, Vec3.normSq_scale] at hnorm
  exact (mul_pos (mul_pos hk hk) (Vec3.real_normSq_pos (Vec3.normSq_pos hpoint))).ne hnorm

variable {a b c d m n x : Point} {p q : Vec3 ℝ}

theorem sideVerdict_eq (a b n x : Vec3 ℚ) :
    sideVerdict a b n x = Sign.of (x.real.dot (rayPoint a.real b.real n.real)) := by
  rw [← real_exactPoint, Vec3.real_dot, Sign.of_ratCast, exactPoint, Vec3.dot_combination,
    Vec3.dot_comm x, Vec3.dot_comm x, sideVerdict]

/-- The ends of one edge, in either order, cross a circle in the same points. -/
theorem crossings_eq_of_sameEdge (ha : a.Finite) (hb : b.Finite) (hc : c.Finite) (hd : d.Finite)
    (h : sameEdge a b c d = true) (n : Vec3 ℝ) :
    crossings c.real d.real n = crossings a.real b.real n := by
  have hreal : ∀ {p q : Point}, p.Finite → q.Finite → p.same q = true → p.real = q.real := by
    intro p q hp hq hsame
    exact congrArg Vec3.real (Point.value_eq_of_key_eq ((Point.same_iff hp hq).1 hsame))
  simp only [sameEdge, Bool.or_eq_true, Bool.and_eq_true] at h
  rcases h with ⟨hac, hbd⟩ | ⟨had, hbc⟩
  · rw [hreal ha hc hac, hreal hb hd hbd]
  · rw [hreal ha hd had, hreal hb hc hbc, crossings_comm]

theorem finds_side (ha : a.Finite) (hb : b.Finite) (hn : n.Finite) (hx : x.Finite) :
    (sidePredicate a b n x).Finds (.decided (sideVerdict a.value b.value n.value x.value)) :=
  Predicate.finds_of_sound fun _ => answers_sideFormula ha hb hn hx

theorem finds_order (ha : a.Finite) (hb : b.Finite) (hc : c.Finite) (hd : d.Finite)
    (hm : m.Finite) (hn : n.Finite) :
    (orderPredicate a b c d m n).Finds (.decided (orderVerdict a b c d m n)) :=
  Predicate.finds_of_sound fun _ => answers_orderFormula ha hb hc hd hm hn

/-- The side of a crossing point does not depend on its length. -/
theorem exactOutcome_side (ha : a.Finite) (hb : b.Finite) (hn : n.Finite) (hx : x.Finite)
    (hab : Crosses a.real b.real n.real) (hp : p ∈ crossings a.real b.real n.real) :
    (sidePredicate a b n x).exactOutcome = .ok (Sign.of (x.real.dot p)) := by
  rw [crossings_eq_ray hab.opposite] at hp
  rw [(finds_side ha hb hn hx).exactOutcome_eq, sideVerdict_eq, sign_dot_of_mem_ray hp]
  rfl

/-- Whatever points are taken, they are compared by their directions. -/
theorem orderVerdict_eq (ha : a.Finite) (hb : b.Finite) (hc : c.Finite) (hd : d.Finite)
    (hab : Crosses a.real b.real n.real) (hcd : Crosses c.real d.real n.real)
    (hp : p ∈ crossings a.real b.real n.real) (hq : q ∈ crossings c.real d.real n.real) :
    orderVerdict a b c d m n =
      compare (m.real.dot q / q.length) (m.real.dot p / p.length) := by
  rw [orderVerdict]
  split_ifs with hsame
  · rw [crossings_eq_of_sameEdge ha hb hc hd hsame] at hq
    rw [crossings_eq_ray hab.opposite] at hp hq
    rw [dot_div_length_of_mem_ray hp, dot_div_length_of_mem_ray hq, eq_comm, compare_eq_iff_eq]
  · rw [crossings_eq_ray hab.opposite] at hp
    rw [crossings_eq_ray hcd.opposite] at hq
    rw [Distance.cosineVerdict_eq_projection, Distance.projection, Distance.projection,
      real_exactPoint, real_exactPoint, dot_div_length_of_mem_ray hp, dot_div_length_of_mem_ray hq]
    rfl

theorem exactOutcome_order (ha : a.Finite) (hb : b.Finite) (hc : c.Finite) (hd : d.Finite)
    (hm : m.Finite) (hn : n.Finite) (hab : Crosses a.real b.real n.real)
    (hcd : Crosses c.real d.real n.real) (hp : p ∈ crossings a.real b.real n.real)
    (hq : q ∈ crossings c.real d.real n.real) :
    (orderPredicate a b c d m n).exactOutcome =
      .ok (compare (m.real.dot q / q.length) (m.real.dot p / p.length)) := by
  rw [(finds_order ha hb hc hd hm hn).exactOutcome_eq,
    orderVerdict_eq ha hb hc hd hab hcd hp hq]
  rfl

section Rewritten

variable (ha : a.Finite) (hb : b.Finite) (hc : c.Finite) (hd : d.Finite) (hm : m.Finite)
  (hn : n.Finite) (hab : Crosses a.real b.real n.real) (hcd : Crosses c.real d.real n.real)

include ha hb hc hd hm hn hab hcd

/-- The edges have no direction. -/
theorem exactOutcome_order_reversed :
    (orderPredicate b a c d m n).exactOutcome = (orderPredicate a b c d m n).exactOutcome ∧
      (orderPredicate a b d c m n).exactOutcome = (orderPredicate a b c d m n).exactOutcome := by
  have hp := hab.rayPoint_mem
  have hq := hcd.rayPoint_mem
  have hp' := crossings_comm a.real b.real n.real ▸ hp
  have hq' := crossings_comm c.real d.real n.real ▸ hq
  rw [exactOutcome_order ha hb hc hd hm hn hab hcd hp hq]
  exact ⟨exactOutcome_order hb ha hc hd hm hn hab.comm hcd hp' hq,
    exactOutcome_order ha hb hd hc hm hn hab hcd.comm hp hq'⟩

/-- The great circle has no sides. -/
theorem exactOutcome_order_neg :
    (orderPredicate a b c d m (-n)).exactOutcome = (orderPredicate a b c d m n).exactOutcome := by
  have hp := hab.rayPoint_mem
  have hq := hcd.rayPoint_mem
  rw [exactOutcome_order ha hb hc hd hm hn hab hcd hp hq]
  rw [← crossings_neg, ← Point.real_neg] at hp hq
  refine exactOutcome_order ha hb hc hd hm hn.neg ?_ ?_ hp hq
  · rw [Point.real_neg]
    exact hab.neg
  · rw [Point.real_neg]
    exact hcd.neg

theorem exactOutcome_order_exchanged :
    (orderPredicate c d a b m n).exactOutcome =
      (orderPredicate a b c d m n).exactOutcome.map Ordering.swap := by
  have hp := hab.rayPoint_mem
  have hq := hcd.rayPoint_mem
  rw [exactOutcome_order ha hb hc hd hm hn hab hcd hp hq,
    exactOutcome_order hc hd ha hb hm hn hcd hab hq hp, Except.map,
    Std.OrientedOrd.eq_swap (α := ℝ)]

end Rewritten

/-- For edges that cross a great circle, the exact test compares the distances of their crossing
points from `m`, and the exact test of a side finds the side of that point. There is one crossing
point up to its length, so neither the directions of the edges nor that of the normal matter. The
whole cascade agrees with the exact tests. -/
theorem crossings_compared (ha : a.Finite) (hb : b.Finite) (hc : c.Finite) (hd : d.Finite)
    (hm : m.Finite) (hn : n.Finite) (hab : Crosses a.real b.real n.real)
    (hcd : Crosses c.real d.real n.real) :
    (∃ p, 0 < p.length ∧ crossings a.real b.real n.real = ray p) ∧
    (∃ q, 0 < q.length ∧ crossings c.real d.real n.real = ray q) ∧
    (∀ p ∈ crossings a.real b.real n.real, ∀ q ∈ crossings c.real d.real n.real,
      (orderPredicate a b c d m n).exactOutcome =
        .ok (compare (m.real.dot q / q.length) (m.real.dot p / p.length))) ∧
    (orderPredicate b a c d m n).exactOutcome = (orderPredicate a b c d m n).exactOutcome ∧
    (orderPredicate a b d c m n).exactOutcome = (orderPredicate a b c d m n).exactOutcome ∧
    (orderPredicate a b c d m (-n)).exactOutcome = (orderPredicate a b c d m n).exactOutcome ∧
    (orderPredicate c d a b m n).exactOutcome =
      (orderPredicate a b c d m n).exactOutcome.map Ordering.swap ∧
    nearer a b c d m n = (orderPredicate a b c d m n).exactOutcome ∧
    ∀ x : Point, x.Finite → ∀ p ∈ crossings a.real b.real n.real,
      (sidePredicate a b n x).exactOutcome = .ok (Sign.of (x.real.dot p)) ∧
        side a b n x = (sidePredicate a b n x).exactOutcome := by
  obtain ⟨hleft, hright⟩ := exactOutcome_order_reversed ha hb hc hd hm hn hab hcd
  refine ⟨?_, ?_, ?_, hleft, hright, ?_, ?_, ?_, ?_⟩
  · exact ⟨_, hab.length_pos hab.rayPoint_mem, crossings_eq_ray hab.opposite⟩
  · exact ⟨_, hcd.length_pos hcd.rayPoint_mem, crossings_eq_ray hcd.opposite⟩
  · intro p hp q hq
    exact exactOutcome_order ha hb hc hd hm hn hab hcd hp hq
  · exact exactOutcome_order_neg ha hb hc hd hm hn hab hcd
  · exact exactOutcome_order_exchanged ha hb hc hd hm hn hab hcd
  · exact (finds_order ha hb hc hd hm hn).coherent.outcome_eq
  · intro x hx p hp
    exact ⟨exactOutcome_side ha hb hn hx hab hp, (finds_side ha hb hn hx).coherent.outcome_eq⟩

/-- Two different edges cross the equator in the direction of `(1, 2, 0)`. The crossing points are
at the same distance from any point, also with one edge reversed and the circle turned over. -/
theorem crossings_compared_tie :
    let a : Point := ⟨1, 0, 1⟩
    let b : Point := ⟨0, 2, -1⟩
    let c : Point := ⟨1, 1, 2⟩
    let d : Point := ⟨0, 1, -2⟩
    let m : Point := ⟨3, 1, 1⟩
    let n : Point := ⟨0, 0, 1⟩
    sameEdge a b c d = false ∧ nearer a b c d m n = .ok .eq ∧
      (orderPredicate b a c d m n).exactOutcome = .ok .eq ∧
      (orderPredicate a b c d m (-n)).exactOutcome = .ok .eq ∧
      ∃ p ∈ crossings a.real b.real n.real, ∃ q ∈ crossings c.real d.real n.real,
        m.real.dot q / q.length = m.real.dot p / p.length ∧
        side a b n ⟨2, -1, 0⟩ = .ok (Sign.of ((Point.real ⟨2, -1, 0⟩).dot p)) := by
  intro a b c d m n
  have hab : Crosses a.real b.real n.real := .of_exactPoint (by decide +kernel) (by decide +kernel)
  have hcd : Crosses c.real d.real n.real := .of_exactPoint (by decide +kernel) (by decide +kernel)
  have hequal : (orderPredicate a b c d m n).exactOutcome = .ok .eq := by decide +kernel
  obtain ⟨-, -, horder, hleft, -, hneg, -, hnearer, hside⟩ :=
    crossings_compared (a := a) (b := b) (c := c) (d := d) (m := m) (n := n) (by decide +kernel)
      (by decide +kernel) (by decide +kernel) (by decide +kernel) (by decide +kernel)
      (by decide +kernel) hab hcd
  refine ⟨by decide +kernel, hnearer.trans hequal, hleft.trans hequal, hneg.trans hequal,
    _, hab.rayPoint_mem, _, hcd.rayPoint_mem, ?_, ?_⟩
  · have htie := horder _ hab.rayPoint_mem _ hcd.rayPoint_mem
    rwa [hequal, Except.ok.injEq, eq_comm, compare_eq_iff_eq] at htie
  · obtain ⟨hsign, hexact⟩ := hside ⟨2, -1, 0⟩ (by decide +kernel) _ hab.rayPoint_mem
    exact hexact.trans hsign

end Exact

end ExactSphere.Crossing
