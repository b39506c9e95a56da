import ExactSphere.Proofs.Orientation.PowerSum
import ExactSphere.Proofs.Vector

/-!
# The determinant of displaced points

A point is displaced along the three axes by `t ^ w`, `t ^ (2 w)` and `t ^ (4 w)`, where the
weight `w` of each point is at least eight times that of the point before it. The products of the
displacements are then powers of `t` in a fixed order, and the determinant is a `powerSum` of 34
terms (`powerSum_expansion`). Its sign for small `t` is that of the first nonzero term, and the
terms that `coefficients` leaves out can never be the first.
-/

namespace ExactSphere.Orientation

open Filter Topology

/-- The determinant and then the coefficients by which a vanishing one is decided. -/
def coefficients {R : Type} [Add R] [Sub R] [Mul R] [Neg R] (a b c : Vec3 R) : List R :=
  [(a.cross b).dot c,
    (b.cross c).z, (b.cross c).y, (b.cross c).x,
    c.x * a.y - c.y * a.x, c.x, -c.y,
    c.z * a.x - c.x * a.z, c.z,
    a.x * b.y - a.y * b.x, -b.x, b.y, a.x]

/-- The sign of the first coefficient that is not zero. -/
def symbolicSign {K : Type} [Ring K] [LinearOrder K] (a b c : Vec3 K) : Sign :=
  (Sign.firstNonzero? ((coefficients a b c).map Sign.of)).getD .positive

/-- The displacement of a point of weight `w`. -/
def displacement (w : ℕ) (t : ℝ) : Vec3 ℝ := ⟨t ^ (4 * w), t ^ (2 * w), t ^ w⟩

/-- The terms of the determinant of points of weights `u`, `v` and `w`, by falling size. -/
def expansion (a b c : Vec3 ℝ) (u v w : ℕ) : List (ℝ × ℕ) :=
  [((a.cross b).dot c, 0),
    ((b.cross c).z, u), ((b.cross c).y, 2 * u), ((b.cross c).x, 4 * u),
    ((c.cross a).z, v), (c.x, v + 2 * u), (-c.y, v + 4 * u),
    ((c.cross a).y, 2 * v), (-c.x, 2 * v + u), (c.z, 2 * v + 4 * u),
    ((c.cross a).x, 4 * v), (c.y, 4 * v + u), (-c.z, 4 * v + 2 * u),
    ((a.cross b).z, w), (-b.x, w + 2 * u), (b.y, w + 4 * u),
    (a.x, w + 2 * v), (1, w + 2 * v + 4 * u), (-a.y, w + 4 * v), (-1, w + 4 * v + 2 * u),
    ((a.cross b).y, 2 * w), (b.x, 2 * w + u), (-b.z, 2 * w + 4 * u),
    (-a.x, 2 * w + v), (-1, 2 * w + v + 4 * u), (a.z, 2 * w + 4 * v), (1, 2 * w + 4 * v + u),
    ((a.cross b).x, 4 * w), (-b.y, 4 * w + u), (b.z, 4 * w + 2 * u),
    (a.y, 4 * w + v), (1, 4 * w + v + 2 * u), (-a.z, 4 * w + 2 * v), (-1, 4 * w + 2 * v + u)]

variable (a b c : Vec3 ℝ) {u v w : ℕ}

/-- The determinant of the displaced points is the sum of the terms. -/
theorem powerSum_expansion (u v w : ℕ) (t : ℝ) :
    powerSum (expansion a b c u v w) t =
      ((a + displacement u t).cross (b + displacement v t)).dot (c + displacement w t) := by
  have hpow : ∀ n k : ℕ, t ^ (k * n) = (t ^ n) ^ k := fun n k => by rw [mul_comm, pow_mul]
  simp only [powerSum, expansion, displacement, Vec3.dot, Vec3.cross, Vec3.add_x, Vec3.add_y,
    Vec3.add_z, List.map_cons, List.map_nil, List.sum_cons, List.sum_nil, pow_add, hpow, pow_zero]
  generalize t ^ u = α
  generalize t ^ v = β
  generalize t ^ w = γ
  ring

/-- The terms are listed by falling size. -/
theorem pairwise_expansion (hu : 0 < u) (huv : 8 * u ≤ v) (hvw : 8 * v ≤ w) :
    (expansion a b c u v w).Pairwise fun term term' => term.2 < term'.2 := by
  rw [← List.pairwise_map (f := Prod.snd) (R := (· < ·)), ← List.isChain_iff_pairwise]
  simp only [expansion, List.map_cons, List.map_nil, List.isChain_cons_cons,
    List.isChain_singleton, and_true]
  omega

/-- The terms that are left out vanish with earlier ones, or come after the constant one. -/
theorem firstNonzero?_expansion (u v w : ℕ) :
    (Sign.firstNonzero? ((expansion a b c u v w).map fun term => Sign.of term.1)).getD .zero =
      symbolicSign a b c := by
  have hone : Sign.of (1 : ℝ) = .positive := Sign.of_pos one_pos
  simp only [symbolicSign, coefficients, expansion, List.map_cons, List.map_nil,
    Sign.getD_firstNonzero?_cons, Sign.of_eq_zero_iff, neg_eq_zero, if_neg one_ne_zero, hone]
  -- what comes after a coordinate of the last point repeats it or vanishes with all three
  by_cases hx : c.x = 0 <;> by_cases hy : c.y = 0 <;> by_cases hz : c.z = 0 <;>
    simp [hx, hy, hz, Vec3.cross, Sign.firstNonzero?]

/-- For small displacements, the determinant has the symbolic sign. -/
theorem eventually_sign_displaced (hu : 0 < u) (huv : 8 * u ≤ v) (hvw : 8 * v ≤ w) :
    ∀ᶠ t in 𝓝[>] 0,
      Sign.of (((a + displacement u t).cross (b + displacement v t)).dot (c + displacement w t)) =
        symbolicSign a b c := by
  filter_upwards [eventually_sign_powerSum (pairwise_expansion a b c hu huv hvw)] with t ht
  rw [← powerSum_expansion, ht, firstNonzero?_expansion]

theorem symbolicSign_ne_zero : symbolicSign a b c ≠ .zero := by
  unfold symbolicSign
  generalize (coefficients a b c).map Sign.of = signs
  induction signs with
  | nil => simp [Sign.firstNonzero?]
  | cons s signs ih =>
    rw [Sign.getD_firstNonzero?_cons]
    split_ifs with hs
    · exact ih
    · exact hs

/-- A displacement is as small as one likes. -/
theorem eventually_normSq_displacement_lt {w : ℕ} (hw : 0 < w) {ε : ℝ} (hε : 0 < ε) :
    ∀ᶠ t in 𝓝[>] 0, (displacement w t).normSq < ε := by
  have hcontinuous : Continuous fun t : ℝ => (displacement w t).normSq := by
    simp only [displacement, Vec3.normSq, Vec3.dot]
    fun_prop
  have hzero : (displacement w 0).normSq = 0 := by
    simp [displacement, Vec3.normSq, Vec3.dot, hw.ne']
  have hlt := hcontinuous.continuousAt.eventually_lt continuousAt_const (hzero.trans_lt hε)
  exact hlt.filter_mono nhdsWithin_le_nhds

end ExactSphere.Orientation
