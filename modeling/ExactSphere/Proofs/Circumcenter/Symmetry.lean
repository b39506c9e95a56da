import ExactSphere.Proofs.Circumcenter.Exact

/-!
# The symmetries of the side of a circumcenter

Exact evaluation forgets the order of the sites, and reversing the edge negates the side
(`exactSide_symmetric`). An exchange of two sites negates the sum and the orientation, and the
perturbation sorts the sites first. Reversing the edge negates its normal and its orientation with
any site, and so whatever rule of the perturbation comes to a side.
-/

namespace ExactSphere

/-- What does not notice exchanges of neighbours notices no rearrangement. -/
theorem Point.eq_of_perm {A : Type} {P : Point → Prop} {f : Point → Point → Point → A}
    (hleft : ∀ {a b c}, P a → P b → P c → f b a c = f a b c)
    (hright : ∀ {a b c}, P a → P b → P c → f a c b = f a b c) {a b c a' b' c' : Point} (ha : P a)
    (hb : P b) (hc : P c) (h : [a', b', c'].Perm [a, b, c]) : f a' b' c' = f a b c := by
  rw [← List.mem_permutations'] at h
  simp only [List.permutations', List.flatMap_cons, List.flatMap_nil, List.permutations'Aux,
    List.map_cons, List.map_nil, List.append_nil, List.cons_append, List.nil_append,
    List.mem_cons, List.not_mem_nil, or_false, List.cons.injEq, and_true] at h
  rcases h with ⟨rfl, rfl, rfl⟩ | ⟨rfl, rfl, rfl⟩ | ⟨rfl, rfl, rfl⟩ | ⟨rfl, rfl, rfl⟩ |
    ⟨rfl, rfl, rfl⟩ | ⟨rfl, rfl, rfl⟩
  · rfl
  · exact hleft ha hb hc
  · rw [hright hb ha hc, hleft ha hb hc]
  · exact hright ha hb hc
  · rw [hleft ha hc hb, hright ha hb hc]
  · rw [hleft hb hc ha, hright hb ha hc, hleft ha hb hc]

namespace Circumcenter

open ExactSphere.Orientation (repeated repeated_iff exists_sorts_of_distinct exactOf oriented
  of_eq_exactOf)

variable {x0 x1 a b c a' b' c' p q r : Point}

/-! ## Rearranged sites -/

theorem repeated_iff_not_nodup (ha : a.Finite) (hb : b.Finite) (hc : c.Finite) :
    repeated a b c = true ↔ ¬([a, b, c].map Point.key).Nodup := by
  rw [repeated_iff ha hb hc]
  simp only [List.map_cons, List.map_nil, List.nodup_cons, List.mem_cons, List.not_mem_nil,
    or_false, not_or, not_and_or, not_not, List.nodup_nil, not_false_eq_true, and_true]
  rw [eq_comm (a := c.key)]
  tauto

theorem repeated_perm (ha : a.Finite) (hb : b.Finite) (hc : c.Finite) (ha' : a'.Finite)
    (hb' : b'.Finite) (hc' : c'.Finite) (h : [a', b', c'].Perm [a, b, c]) :
    repeated a' b' c' = repeated a b c := by
  rw [Bool.eq_iff_iff, repeated_iff_not_nodup ha hb hc, repeated_iff_not_nodup ha' hb' hc',
    (h.map Point.key).nodup_iff]

/-- An exchange of sites that negates the sum and the orientation leaves the side alone. -/
theorem exactSide_of_odd (hx0 : x0.Finite) (hx1 : x1.Finite) (ha : a.Finite) (hb : b.Finite)
    (hc : c.Finite) (ha' : a'.Finite) (hb' : b'.Finite) (hc' : c'.Finite)
    (h : [a', b', c'].Perm [a, b, c])
    (hsum : ∀ n, radicalSum n a'.real b'.real c'.real = -radicalSum n a.real b.real c.real)
    (hodd : Orientation.of a' b' c' = (Orientation.of a b c).map (-·)) :
    exactSide x0 x1 a' b' c' = exactSide x0 x1 a b c := by
  have hrepeated := repeated_perm ha hb hc ha' hb' hc' h
  by_cases hsites : repeated a b c = true
  · rw [exactSide_of_guard (.inr hsites), exactSide_of_guard (.inr (hrepeated.trans hsites))]
  rw [Bool.not_eq_true] at hsites
  by_cases hdependent : Dependent x0 x1
  · rw [exactSide_of_dependent hx0 hx1 ha hb hc hdependent,
      exactSide_of_dependent hx0 hx1 ha' hb' hc' hdependent]
  obtain ⟨orientation, ho, -⟩ := exists_exactOf ha hb hc
  rw [of_eq_exactOf ha hb hc, of_eq_exactOf ha' hb' hc', ho] at hodd
  rw [exactSide_eq hx0 hx1 ha hb hc hdependent hsites ho,
    exactSide_eq hx0 hx1 ha' hb' hc' hdependent (hrepeated.trans hsites) hodd,
    displaced_perm hx0 hx1 ha hb hc ha' hb' hc' hsites h, hsum, Sign.of_neg_eq, Sign.neg_mul_neg]
  simp only [neg_eq_zero]

theorem exactSide_perm (hx0 : x0.Finite) (hx1 : x1.Finite) (ha : a.Finite) (hb : b.Finite)
    (hc : c.Finite) (h : [a', b', c'].Perm [a, b, c]) :
    exactSide x0 x1 a' b' c' = exactSide x0 x1 a b c := by
  refine Point.eq_of_perm (P := Point.Finite) ?_ ?_ ha hb hc h
  · intro a b c ha hb hc
    exact exactSide_of_odd hx0 hx1 ha hb hc hb ha hc (.swap _ _ _)
      (fun n => radicalSum_swap_left n _ _ _) (oriented ha hb hc).swap_left
  · intro a b c ha hb hc
    exact exactSide_of_odd hx0 hx1 ha hb hc ha hc hb (.cons _ (.swap _ _ _))
      (fun n => radicalSum_swap_right n _ _ _) (oriented ha hb hc).swap_right

/-! ## A reversed edge -/

/-- Reversing the edge negates its normal. -/
theorem dot_reversed (u v w : Vec3 ℚ) : (v.cross u).dot w = -(u.cross v).dot w :=
  Vec3.det_swap u v w

theorem movedSide_reversed (u v p q r : Vec3 ℚ) :
    movedSide (v.cross u) p q r = (movedSide (u.cross v) p q r).map (-·) := by
  unfold movedSide
  split_ifs
  · rfl
  · simp only [dot_reversed u v, Sign.of_neg_eq]
    refine (congrArg (Option.map _) (Sign.firstNonzero?_map_neg [_, _, _])).trans ?_
    rw [Option.map_map, Option.map_map]
    congr 1
    funext s
    exact Sign.neg_mul s _

theorem siteSide_reversed (u v p q r : Vec3 ℚ) :
    siteSide (v.cross u) p q r = (siteSide (u.cross v) p q r).map (-·) := by
  unfold siteSide
  simp only [dot_reversed u v, Sign.of_neg_eq]
  exact Sign.firstNonzero?_map_neg [_, _, _]

theorem firstSide?_reversed (hx0 : x0.Finite) (hx1 : x1.Finite) {points : List Point}
    (hpoints : ∀ p ∈ points, p.Finite) :
    firstSide? x1 x0 points = (firstSide? x0 x1 points).map (Option.map (-·)) := by
  induction points with
  | nil => rfl
  | cons p rest ih =>
    obtain ⟨s, hs, -⟩ := exists_of hx0 hx1 (hpoints p List.mem_cons_self)
    have hreversed := (oriented hx0 hx1 (hpoints p List.mem_cons_self)).swap_left
    rw [hs] at hreversed
    rw [firstSide?, firstSide?, hs, hreversed, ih fun q hq => hpoints q (List.mem_cons_of_mem _ hq)]
    cases s <;> rfl

theorem sortedSide_reversed (hx0 : x0.Finite) (hx1 : x1.Finite) (hp : p.Finite) (hq : q.Finite)
    (hr : r.Finite) : sortedSide x1 x0 p q r = (sortedSide x0 x1 p q r).map (-·) := by
  have hpoints : ∀ s ∈ [p, q, r], s.Finite := by simp [hp, hq, hr]
  unfold sortedSide
  rw [movedSide_reversed, siteSide_reversed, firstSide?_reversed hx0 hx1 hpoints]
  cases movedSide (x0.value.cross x1.value) p.value q.value r.value with
  | some side => rfl
  | none =>
    cases siteSide (x0.value.cross x1.value) p.value q.value r.value with
    | some side => rfl
    | none =>
      cases firstSide? x0 x1 [p, q, r] with
      | error cause => rfl
      | ok side => cases side <;> rfl

theorem displaced_reversed (hx0 : x0.Finite) (hx1 : x1.Finite) (ha : a.Finite) (hb : b.Finite)
    (hc : c.Finite) (hsites : repeated a b c = false) :
    displaced x1 x0 a b c = (displaced x0 x1 a b c).map (-·) := by
  obtain ⟨p, q, r, odd, hsorts⟩ := exists_sorts_of_distinct ha hb hc hsites
  obtain ⟨hp, hq, hr⟩ := hsorts.mem ha hb hc
  rw [displaced_of_sorts hx0 hx1 ha hb hc hsorts, displaced_of_sorts hx1 hx0 ha hb hc hsorts,
    sortedSide_reversed hx0 hx1 hp hq hr]

theorem dependent_reversed : Dependent x1 x0 ↔ Dependent x0 x1 := by
  simp only [Dependent, Vec3.cross, Vec3.mk.injEq]
  constructor <;>
  · rintro ⟨hx, hy, hz⟩
    exact ⟨by linarith, by linarith, by linarith⟩

theorem exactSide_reversed (hx0 : x0.Finite) (hx1 : x1.Finite) (ha : a.Finite) (hb : b.Finite)
    (hc : c.Finite) : exactSide x1 x0 a b c = (exactSide x0 x1 a b c).map (-·) := by
  by_cases hsites : repeated a b c = true
  · rw [exactSide_of_guard (.inr hsites), exactSide_of_guard (.inr hsites)]
    rfl
  rw [Bool.not_eq_true] at hsites
  by_cases hdependent : Dependent x0 x1
  · rw [exactSide_of_dependent hx0 hx1 ha hb hc hdependent,
      exactSide_of_dependent hx1 hx0 ha hb hc (dependent_reversed.2 hdependent)]
    rfl
  obtain ⟨orientation, ho, -⟩ := exists_exactOf ha hb hc
  rw [exactSide_eq hx0 hx1 ha hb hc hdependent hsites ho,
    exactSide_eq hx1 hx0 ha hb hc (mt dependent_reversed.1 hdependent) hsites ho,
    displaced_reversed hx0 hx1 ha hb hc hsites, radicalSum_swap_normal, Sign.of_neg_eq,
    Sign.neg_mul]
  simp only [neg_eq_zero]
  split_ifs <;> rfl

/-! ## Symmetry -/

/-- Every arrangement of the sites has the same side, and the reversed edge the opposite one. -/
theorem exactSide_symmetric (hx0 : x0.Finite) (hx1 : x1.Finite) (ha : a.Finite) (hb : b.Finite)
    (hc : c.Finite) :
    ∃ s, exactSide x0 x1 a b c = .ok s ∧
      (∀ a' b' c', [a', b', c'].Perm [a, b, c] → exactSide x0 x1 a' b' c' = .ok s) ∧
      exactSide x1 x0 a b c = .ok (-s) := by
  obtain ⟨s, hs⟩ := exists_exactSide hx0 hx1 ha hb hc
  refine ⟨s, hs, fun a' b' c' h => ?_, ?_⟩
  · rw [exactSide_perm hx0 hx1 ha hb hc h, hs]
  · rw [exactSide_reversed hx0 hx1 ha hb hc, hs]
    rfl

/-- Sites on the equator, with both circumcenters on the meridian of the edge. -/
theorem exactSide_symmetric_equator :
    exactSide ⟨1, 0, 0⟩ ⟨0, 0, 1⟩ ⟨1, 1, 0⟩ ⟨-1, 2, 0⟩ ⟨1, -3, 0⟩ = .ok .negative ∧
      exactSide ⟨1, 0, 0⟩ ⟨0, 0, 1⟩ ⟨1, -3, 0⟩ ⟨1, 1, 0⟩ ⟨-1, 2, 0⟩ = .ok .negative ∧
      exactSide ⟨0, 0, 1⟩ ⟨1, 0, 0⟩ ⟨1, 1, 0⟩ ⟨-1, 2, 0⟩ ⟨1, -3, 0⟩ = .ok .positive := by
  have hside : exactSide ⟨1, 0, 0⟩ ⟨0, 0, 1⟩ ⟨1, 1, 0⟩ ⟨-1, 2, 0⟩ ⟨1, -3, 0⟩ = .ok .negative := by
    decide +kernel
  obtain ⟨s, hs, hsites, hends⟩ := @exactSide_symmetric ⟨1, 0, 0⟩ ⟨0, 0, 1⟩ ⟨1, 1, 0⟩ ⟨-1, 2, 0⟩
    ⟨1, -3, 0⟩ (by decide +kernel) (by decide +kernel) (by decide +kernel) (by decide +kernel)
    (by decide +kernel)
  obtain rfl : .negative = s := Except.ok.inj (hside.symm.trans hs)
  exact ⟨hside, hsites _ _ _ ((List.Perm.swap _ _ _).trans (.cons _ (.swap _ _ _))), hends⟩

end Circumcenter
end ExactSphere
