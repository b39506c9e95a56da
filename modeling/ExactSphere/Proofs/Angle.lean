import ExactSphere.Proofs.Vector
import Mathlib.Analysis.InnerProductSpace.PiL2
import Mathlib.Geometry.Euclidean.Angle.Unoriented.Basic

/-!
# Angles between real vectors

A vector with real components is one of Euclidean space, and has the length and the angles of that
space. Angles are compared by products of scalar products and lengths, without division:
`angle_le_angle_iff` for two angles, `angle_le_arccos_iff` and `compare_angle_arccos` for an angle
and a radius.
-/

namespace ExactSphere.Vec3

noncomputable section

/-- The vector as one of Euclidean space. -/
def euclidean (v : Vec3 ℝ) : EuclideanSpace ℝ (Fin 3) := !₂[v.x, v.y, v.z]

/-- The length. -/
def length (v : Vec3 ℝ) : ℝ := √v.normSq

/-- The angle between two vectors. -/
def angle (v w : Vec3 ℝ) : ℝ := InnerProductGeometry.angle v.euclidean w.euclidean

variable {u v w : Vec3 ℝ} {c : ℝ}

theorem inner_euclidean (v w : Vec3 ℝ) : inner ℝ v.euclidean w.euclidean = v.dot w := by
  simp only [euclidean, PiLp.inner_apply, Fin.sum_univ_three, dot]
  simp [mul_comm]

theorem norm_euclidean (v : Vec3 ℝ) : ‖v.euclidean‖ = v.length := by
  rw [norm_eq_sqrt_real_inner, inner_euclidean]
  rfl

theorem length_nonneg (v : Vec3 ℝ) : 0 ≤ v.length := Real.sqrt_nonneg _

theorem length_mul_self (v : Vec3 ℝ) : v.length * v.length = v.normSq :=
  Real.mul_self_sqrt v.normSq_nonneg

theorem length_pos (h : 0 < v.normSq) : 0 < v.length := Real.sqrt_pos.2 h

theorem length_scale {s : ℝ} (hs : 0 ≤ s) (v : Vec3 ℝ) : (v.scale s).length = s * v.length := by
  rw [length, normSq_scale, Real.sqrt_mul (mul_self_nonneg s), Real.sqrt_mul_self hs, length]

theorem dot_le_length_mul_length (v w : Vec3 ℝ) : v.dot w ≤ v.length * w.length := by
  rw [← inner_euclidean, ← norm_euclidean, ← norm_euclidean]
  exact real_inner_le_norm _ _

theorem length_combination_le {s t : ℝ} (hs : 0 ≤ s) (ht : 0 ≤ t) (v w : Vec3 ℝ) :
    (v.scale s + w.scale t).length ≤ s * v.length + t * w.length := by
  have hbound : 0 ≤ s * v.length + t * w.length :=
    add_nonneg (mul_nonneg hs v.length_nonneg) (mul_nonneg ht w.length_nonneg)
  have hcauchy := mul_le_mul_of_nonneg_left (dot_le_length_mul_length v w) (mul_nonneg hs ht)
  rw [length, Real.sqrt_le_left hbound, normSq_combination, ← length_mul_self, ← length_mul_self]
  linarith

/-- The lengths of vectors that point the same way add up. -/
theorem length_combination_of_parallel {s t : ℝ} (hs : 0 ≤ s) (ht : 0 ≤ t)
    (hcross : (v.cross w).normSq = 0) (hdot : 0 ≤ v.dot w) :
    (v.scale s + w.scale t).length = s * v.length + t * w.length := by
  have hlength : v.dot w = v.length * w.length := by
    rw [← mul_self_inj hdot (mul_nonneg v.length_nonneg w.length_nonneg), mul_mul_mul_comm,
      length_mul_self, length_mul_self]
    rw [normSq_cross] at hcross
    linarith
  have hsquare : (v.scale s + w.scale t).normSq =
      (s * v.length + t * w.length) * (s * v.length + t * w.length) := by
    rw [normSq_combination, hlength, ← v.length_mul_self, ← w.length_mul_self]
    ring
  rw [length, hsquare, Real.sqrt_mul_self]
  exact add_nonneg (mul_nonneg hs v.length_nonneg) (mul_nonneg ht w.length_nonneg)

theorem cos_angle (v w : Vec3 ℝ) : Real.cos (angle v w) = v.dot w / (v.length * w.length) := by
  rw [angle, InnerProductGeometry.cos_angle, inner_euclidean, norm_euclidean, norm_euclidean]

theorem angle_mem (v w : Vec3 ℝ) : angle v w ∈ Set.Icc 0 Real.pi :=
  ⟨InnerProductGeometry.angle_nonneg _ _, InnerProductGeometry.angle_le_pi _ _⟩

/-- The nearer of two vectors has the larger cosine. -/
theorem angle_le_angle_iff (hu : 0 < u.normSq) (hv : 0 < v.normSq) (hw : 0 < w.normSq) :
    angle u v ≤ angle u w ↔ u.dot w * v.length ≤ u.dot v * w.length := by
  have hu := length_pos hu
  have hv := length_pos hv
  have hw := length_pos hw
  rw [← Real.strictAntiOn_cos.le_iff_ge (angle_mem u w) (angle_mem u v), cos_angle, cos_angle,
    div_le_div_iff₀ (mul_pos hu hw) (mul_pos hu hv), ← mul_assoc, ← mul_assoc, mul_right_comm,
    mul_right_comm (u.dot v)]
  exact mul_le_mul_iff_left₀ hu

theorem angle_le_arccos_iff (hv : 0 < v.normSq) (hw : 0 < w.normSq) (hmin : -1 ≤ c) (hmax : c ≤ 1) :
    angle v w ≤ Real.arccos c ↔ c * (v.length * w.length) ≤ v.dot w := by
  have hradius : Real.arccos c ∈ Set.Icc 0 Real.pi := ⟨Real.arccos_nonneg c, Real.arccos_le_pi c⟩
  rw [← Real.strictAntiOn_cos.le_iff_ge hradius (angle_mem v w), Real.cos_arccos hmin hmax,
    cos_angle, le_div_iff₀ (mul_pos (length_pos hv) (length_pos hw))]

theorem angle_eq_arccos_iff (hv : 0 < v.normSq) (hw : 0 < w.normSq) (hmin : -1 ≤ c) (hmax : c ≤ 1) :
    angle v w = Real.arccos c ↔ v.dot w = c * (v.length * w.length) := by
  have hradius : Real.arccos c ∈ Set.Icc 0 Real.pi := ⟨Real.arccos_nonneg c, Real.arccos_le_pi c⟩
  rw [← Real.injOn_cos.eq_iff (angle_mem v w) hradius, Real.cos_arccos hmin hmax, cos_angle,
    div_eq_iff (mul_pos (length_pos hv) (length_pos hw)).ne']

/-- An angle is compared with a radius by their cosines. -/
theorem compare_angle_arccos (hv : 0 < v.normSq) (hw : 0 < w.normSq) (hmin : -1 ≤ c)
    (hmax : c ≤ 1) :
    compare (angle v w) (Real.arccos c) = compare (c * (v.length * w.length)) (v.dot w) := by
  have hradius : Real.arccos c ∈ Set.Icc 0 Real.pi := ⟨Real.arccos_nonneg c, Real.arccos_le_pi c⟩
  have hlength := mul_pos (length_pos hv) (length_pos hw)
  rw [← cmp_eq_compare, ← cmp_eq_compare,
    ← Real.strictAntiOn_cos.cmp_map_eq hradius (angle_mem v w), Real.cos_arccos hmin hmax,
    cos_angle, ← (strictMono_mul_right_of_pos hlength).cmp_map_eq, div_mul_cancel₀ _ hlength.ne']

end

end ExactSphere.Vec3
