import ExactSphere.Vector
import Mathlib.Algebra.Order.Ring.Basic
import Mathlib.Tactic.Ring

/-!
# Identities of vectors

The components of the vector operations, and the identities between products that the alternative
formulas of the library rest on.
-/

namespace ExactSphere.Vec3

section Components

variable {α : Type} (v w : Vec3 α)

@[simp] theorem add_x [Add α] : (v + w).x = v.x + w.x := rfl
@[simp] theorem add_y [Add α] : (v + w).y = v.y + w.y := rfl
@[simp] theorem add_z [Add α] : (v + w).z = v.z + w.z := rfl
@[simp] theorem sub_x [Sub α] : (v - w).x = v.x - w.x := rfl
@[simp] theorem sub_y [Sub α] : (v - w).y = v.y - w.y := rfl
@[simp] theorem sub_z [Sub α] : (v - w).z = v.z - w.z := rfl
@[simp] theorem neg_x [Neg α] : (-v).x = -v.x := rfl
@[simp] theorem neg_y [Neg α] : (-v).y = -v.y := rfl
@[simp] theorem neg_z [Neg α] : (-v).z = -v.z := rfl

end Components

variable {R : Type} [CommRing R] (v w u : Vec3 R)

theorem det_rotate : (v.cross w).dot u = (w.cross u).dot v := by
  simp only [dot, cross]
  ring

theorem det_swap : (w.cross v).dot u = -(v.cross w).dot u := by
  simp only [dot, cross]
  ring

theorem det_swap_right : (v.cross u).dot w = -(v.cross w).dot u := by
  rw [← det_rotate, det_swap, det_rotate]

/-- A determinant from two edges that meet in `u`. -/
theorem det_edges : -((v - u).cross (u - w)).dot u = (v.cross w).dot u := by
  simp only [dot, cross, sub_x, sub_y, sub_z]
  ring

theorem dot_comm : v.dot w = w.dot v := by
  simp only [dot]
  ring

theorem zero_dot : dot ⟨0, 0, 0⟩ v = 0 := by
  simp only [dot, zero_mul, add_zero]

theorem cross_self : v.cross v = ⟨0, 0, 0⟩ := by
  simp only [cross, mul_comm, sub_self]

theorem dot_scale (s : R) : v.dot (w.scale s) = s * v.dot w := by
  simp only [dot, scale, map]
  ring

theorem dot_neg : v.dot (-w) = -v.dot w := by
  simp only [dot, neg_x, neg_y, neg_z]
  ring

theorem add_neg : v + -w = v - w := by
  change Vec3.mk _ _ _ = Vec3.mk _ _ _
  congr 1 <;> exact (sub_eq_add_neg _ _).symm

theorem normSq_scale (s : R) : (v.scale s).normSq = s * s * v.normSq := by
  simp only [normSq, dot, scale, map]
  ring

theorem combination_dot (s t : R) :
    (v.scale s + w.scale t).dot u = s * v.dot u + t * w.dot u := by
  simp only [dot, scale, map, add_x, add_y, add_z]
  ring

theorem dot_combination (s t : R) :
    u.dot (v.scale s + w.scale t) = s * u.dot v + t * u.dot w := by
  rw [dot_comm, combination_dot, v.dot_comm, w.dot_comm]

theorem combination_comm (s t : R) : v.scale s + w.scale t = w.scale t + v.scale s := by
  change mk _ _ _ = mk _ _ _
  congr 1 <;> exact add_comm _ _

theorem normSq_combination (s t : R) : (v.scale s + w.scale t).normSq =
    s * s * v.normSq + 2 * (s * t) * v.dot w + t * t * w.normSq := by
  simp only [normSq, dot, scale, map, add_x, add_y, add_z]
  ring

theorem cross_dot_left : (v.cross w).dot v = 0 := by
  simp only [dot, cross]
  ring

theorem cross_dot_right : (v.cross w).dot w = 0 := by
  simp only [dot, cross]
  ring

theorem cross_dot_combination (s t : R) : (v.cross w).dot (v.scale s + w.scale t) = 0 := by
  rw [dot_combination, cross_dot_left, cross_dot_right, mul_zero, mul_zero, add_zero]

/-- A vector against another one, put together from its products with three vectors. -/
theorem det_mul_dot (p q r n z : Vec3 R) :
    (p.cross q).dot r * n.dot z =
      p.dot z * n.dot (q.cross r) + q.dot z * n.dot (r.cross p) + r.dot z * n.dot (p.cross q) := by
  simp only [dot, cross]
  ring

/-- If all three products of vectors are in one plane, the determinant or the normal is zero. -/
theorem det_mul_normSq_eq_zero {p q r n : Vec3 R} (hqr : n.dot (q.cross r) = 0)
    (hrp : n.dot (r.cross p) = 0) (hpq : n.dot (p.cross q) = 0) :
    (p.cross q).dot r * n.normSq = 0 := by
  rw [normSq, det_mul_dot, hqr, hrp, hpq, mul_zero, mul_zero, mul_zero, add_zero, add_zero]

/-- The product of two determinants that share two vectors, in terms of the products of all. -/
theorem det_mul_det (p q : Vec3 R) :
    (v.cross w).dot p * (v.cross w).dot q =
      v.dot p * (v.dot w * w.dot q - v.dot q * w.normSq) -
        w.dot p * (v.normSq * w.dot q - v.dot w * v.dot q) + p.dot q * (v.cross w).normSq := by
  simp only [normSq, dot, cross]
  ring

/-- The squared lengths of the two products of vectors add up. -/
theorem normSq_cross : (v.cross w).normSq = v.normSq * w.normSq - v.dot w * v.dot w := by
  simp only [normSq, dot, cross]
  ring

theorem normSq_cross_comm : (w.cross v).normSq = (v.cross w).normSq := by
  rw [normSq_cross, normSq_cross, w.dot_comm, mul_comm]

/-- The product of a vector with the projection of another one on the plane of a normal. -/
theorem cross_cross_dot (n : Vec3 R) :
    ((n.cross v).cross n).dot w = v.dot w * n.normSq - v.dot n * w.dot n := by
  simp only [normSq, dot, cross]
  ring

theorem normSq_cross_cross (n : Vec3 R) :
    ((n.cross v).cross n).normSq = (n.cross v).normSq * n.normSq := by
  rw [normSq_cross, cross_dot_left, mul_zero, sub_zero]

theorem normSq_add_neg_cross_add :
    ((v + -w).cross (v + w)).normSq = 4 * (v.cross w).normSq := by
  simp only [normSq, dot, cross, neg_x, neg_y, neg_z, add_x, add_y, add_z]
  ring

theorem normSq_add_cross_sub : ((v + w).cross (v - w)).normSq = 4 * (v.cross w).normSq := by
  simp only [normSq, dot, cross, sub_x, sub_y, sub_z, add_x, add_y, add_z]
  ring

section Order

variable {K : Type} [CommRing K] [LinearOrder K] [IsStrictOrderedRing K]

theorem normSq_nonneg (v : Vec3 K) : 0 ≤ v.normSq :=
  add_nonneg (add_nonneg (mul_self_nonneg _) (mul_self_nonneg _)) (mul_self_nonneg _)

/-- Only the zero vector has length zero. -/
theorem normSq_pos {v : Vec3 K} (h : v ≠ ⟨0, 0, 0⟩) : 0 < v.normSq := by
  refine lt_of_le_of_ne v.normSq_nonneg fun hzero => h ?_
  obtain ⟨hxy, hz⟩ := (add_eq_zero_iff_of_nonneg
    (add_nonneg (mul_self_nonneg v.x) (mul_self_nonneg v.y)) (mul_self_nonneg v.z)).1 hzero.symm
  obtain ⟨hx, hy⟩ := (add_eq_zero_iff_of_nonneg (mul_self_nonneg _) (mul_self_nonneg _)).1 hxy
  rw [mul_self_eq_zero] at hx hy hz
  obtain ⟨x, y, z⟩ := v
  exact congr (congr (congrArg mk hx) hy) hz

theorem normSq_pos_of_dot {v w : Vec3 K} (h : v.dot w ≠ 0) : 0 < v.normSq := by
  refine normSq_pos fun hzero => h ?_
  rw [hzero, dot, zero_mul, zero_mul, zero_mul, add_zero, add_zero]

/-- A combination of independent vectors is not zero. -/
theorem normSq_combination_pos {v w : Vec3 K} {s t : K} (h : 0 < (v.cross w).normSq)
    (hst : s ≠ 0 ∨ t ≠ 0) : 0 < (v.scale s + w.scale t).normSq := by
  rcases hst with hs | ht
  · refine normSq_pos_of_dot (w := w.cross (v.cross w)) ?_
    have hv : v.dot (w.cross (v.cross w)) = (v.cross w).normSq := by
      rw [dot_comm, ← det_rotate]
      rfl
    have hw : w.dot (w.cross (v.cross w)) = 0 := by rw [dot_comm, cross_dot_left]
    rw [combination_dot, hv, hw, mul_zero, add_zero]
    exact mul_ne_zero hs h.ne'
  · refine normSq_pos_of_dot (w := (v.cross w).cross v) ?_
    have hv : v.dot ((v.cross w).cross v) = 0 := by rw [dot_comm, cross_dot_right]
    have hw : w.dot ((v.cross w).cross v) = (v.cross w).normSq := by
      rw [dot_comm, det_rotate]
      rfl
    rw [combination_dot, hv, hw, mul_zero, zero_add]
    exact mul_ne_zero ht h.ne'

end Order

end ExactSphere.Vec3
