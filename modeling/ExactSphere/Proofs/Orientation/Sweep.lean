import ExactSphere.Proofs.Orientation.Displacement

/-!
# A sweep around a point meets the others in cyclic order

The turns around a point `o` are those of points that are displaced once for all of them
(`exists_arranges`). The turns between four points satisfy a quadratic relation (`turn_mul_turn`),
and from it follows that `sweepsInOrder` is a cyclic order of the points other than `o`
(`sweep_cyclic`), also where every determinant of the given points vanishes.
-/

namespace ExactSphere.Orientation

open Filter Topology

/-- The sweep test where every turn is evaluated exactly. -/
def exactSweepsInOrder (a b c o : Point) : Except Fault Bool := do
  let ab := (← exactOf b o a) != .negative
  let bc := (← exactOf c o b) != .negative
  let ca := (← exactOf a o c) == .positive
  return (ab && bc) || (bc && ca) || (ab && ca)

theorem sweepsInOrder_eq {a b c o : Point} (ha : a.Finite) (hb : b.Finite) (hc : c.Finite)
    (ho : o.Finite) : sweepsInOrder a b c o = exactSweepsInOrder a b c o := by
  rw [sweepsInOrder, exactSweepsInOrder, of_eq_exactOf hb ho ha, of_eq_exactOf hc ho hb,
    of_eq_exactOf ha ho hc]

/-! ## Turns of displaced points -/

/-- A point around `o`: finite and different from `o`. -/
def Around (o p : Point) : Prop := p.Finite ∧ p.same o = false

instance (o p : Point) : Decidable (Around o p) := inferInstanceAs (Decidable (_ ∧ _))

theorem Around.key_ne {o p : Point} (ho : o.Finite) (h : Around o p) : p.key ≠ o.key := by
  intro hkey
  rw [Around, (Point.same_iff h.1 ho).2 hkey] at h
  exact Bool.noConfusion h.2

section Turns

variable {moved : Point → Vec3 ℝ} {o a b c d : Point}

/-- The turn from `a` to `b` around `o`, counterclockwise if positive. -/
def turn (moved : Point → Vec3 ℝ) (o a b : Point) : ℝ := movedDeterminant moved b o a

theorem turn_swap (moved : Point → Vec3 ℝ) (o a b : Point) :
    turn moved o b a = -turn moved o a b := by
  simp only [turn, movedDeterminant, Vec3.dot, Vec3.cross]
  ring

/-- The quadratic relation between the turns of four points. -/
theorem turn_mul_turn (moved : Point → Vec3 ℝ) (o a b c d : Point) :
    turn moved o a b * turn moved o c d + turn moved o c a * turn moved o b d =
      turn moved o b c * turn moved o d a := by
  simp only [turn, movedDeterminant, Vec3.dot, Vec3.cross]
  ring

/-- The displaced points have the exact turns around `o` between all points of `S`. -/
structure Arranges (moved : Point → Vec3 ℝ) (o : Point) (S : Set Point) : Prop where
  sign : ∀ {a b : Point}, a ∈ S → b ∈ S → exactOf b o a = .ok (Sign.of (turn moved o a b))
  ne_zero : ∀ {a b : Point}, a ∈ S → b ∈ S → a.key ≠ b.key → turn moved o a b ≠ 0
  congr : ∀ {a b : Point}, a.key = b.key → moved a = moved b

theorem displace_congr {keys : Finset (ℚ ×ₗ ℚ ×ₗ ℚ)} (t : ℝ) (h : a.key = b.key) :
    displace keys t a = displace keys t b := by
  rw [displace, displace, Point.real, Point.real, Point.value_eq_of_key_eq h, weight, weight, h]

theorem turn_congr {a' b' : Point} (ha : moved a = moved a') (hb : moved b = moved b') :
    turn moved o a b = turn moved o a' b' := by
  rw [turn, movedDeterminant, ha, hb, turn, movedDeterminant]

theorem turn_eq_zero (h : moved a = moved b) : turn moved o a b = 0 := by
  rw [turn, movedDeterminant, h, Vec3.cross_dot_left]

/-- Points other than `o` are arranged around it by one small displacement. -/
theorem exists_arranges {S : Set Point} (hS : S.Finite) (ho : o.Finite)
    (haround : ∀ p ∈ S, Around o p) : ∃ moved, Arranges moved o S := by
  classical
  have hfinite : ∀ p ∈ S, p.Finite := fun p hp => (haround p hp).1
  have hother : ∀ p ∈ S, p.key ≠ o.key := fun p hp => (haround p hp).key_ne ho
  let keys := insert o.key (hS.toFinset.image Point.key)
  have hko : o.key ∈ keys := Finset.mem_insert_self _ _
  have hkeys : ∀ p ∈ S, p.key ∈ keys := fun p hp =>
    Finset.mem_insert_of_mem (Finset.mem_image_of_mem _ (hS.mem_toFinset.2 hp))
  have hexplains : ∀ᶠ t in 𝓝[>] 0, ∀ a ∈ S, ∀ b ∈ S, Explains (displace keys t) b o a := by
    refine (eventually_all_finite hS).2 fun a ha => (eventually_all_finite hS).2 fun b hb => ?_
    exact eventually_explains (hfinite b hb) ho (hfinite a ha) (hkeys b hb) hko (hkeys a ha)
  obtain ⟨t, hexplains⟩ := hexplains.exists
  -- two points other than `o` make a repeated triple with it only if they are equal
  have hrepeated : ∀ {a b : Point}, a ∈ S → b ∈ S → (repeated b o a = true ↔ a.key = b.key) := by
    intro a b ha hb
    rw [repeated_iff (hfinite b hb) ho (hfinite a ha)]
    simp [hother b hb, (hother a ha).symm]
  refine ⟨displace keys t, ?_, ?_, displace_congr t⟩
  · intro a b ha hb
    cases hcase : repeated b o a with
    | true =>
      have hkey := (hrepeated ha hb).1 hcase
      rw [(hexplains a ha b hb).zero hcase, turn_eq_zero (displace_congr t hkey), Sign.of_zero]
    | false => exact (hexplains a ha b hb).sign hcase
  · intro a b ha hb hne
    exact (hexplains a ha b hb).ne_zero
      (Bool.eq_false_iff.2 (mt (hrepeated ha hb).1 hne))

end Turns

/-! ## Two of three turns -/

section Majority

variable {x y z u v w : ℝ}

/-- Two of three turns are counterclockwise, where the first two may be empty. -/
def InOrder (x y z : ℝ) : Prop := (0 ≤ x ∧ 0 ≤ y) ∨ (0 ≤ y ∧ 0 < z) ∨ (0 ≤ x ∧ 0 < z)

/-- Two of three numbers are positive. -/
def TwoPositive (x y z : ℝ) : Prop := (0 < x ∧ 0 < y) ∨ (0 < y ∧ 0 < z) ∨ (0 < x ∧ 0 < z)

theorem inOrder_iff_twoPositive (hx : x ≠ 0) (hy : y ≠ 0) :
    InOrder x y z ↔ TwoPositive x y z := by
  rw [InOrder, TwoPositive, hx.symm.le_iff_lt, hy.symm.le_iff_lt]

/-- Of a turn and its opposite, one is not negative. -/
theorem inOrder_zero_left (y : ℝ) : InOrder 0 y (-y) := by
  rcases le_or_gt 0 y with hy | hy
  · exact .inl ⟨le_rfl, hy⟩
  · exact .inr (.inr ⟨le_rfl, neg_pos.2 hy⟩)

theorem inOrder_zero_right (x : ℝ) : InOrder x 0 (-x) := by
  rcases le_or_gt 0 x with hx | hx
  · exact .inl ⟨hx, le_rfl⟩
  · exact .inr (.inl ⟨le_rfl, neg_pos.2 hx⟩)

theorem not_inOrder_zero (hx : x ≠ 0) : ¬InOrder x (-x) 0 := by
  rintro (⟨hpos, hneg⟩ | ⟨-, hzero⟩ | ⟨-, hzero⟩)
  · exact hx (le_antisymm (neg_nonneg.1 hneg) hpos)
  · exact lt_irrefl _ hzero
  · exact lt_irrefl _ hzero

theorem twoPositive_rotate : TwoPositive y z x ↔ TwoPositive x y z := by
  unfold TwoPositive
  tauto

/-- Of three turns and their opposites, one has two that are positive. -/
theorem twoPositive_neg (hx : x ≠ 0) (hy : y ≠ 0) (hz : z ≠ 0) :
    TwoPositive (-y) (-x) (-z) ↔ ¬TwoPositive x y z := by
  unfold TwoPositive
  rw [Left.neg_pos_iff, Left.neg_pos_iff, Left.neg_pos_iff, ← not_le, ← not_le, ← not_le,
    hx.symm.le_iff_lt, hy.symm.le_iff_lt, hz.symm.le_iff_lt]
  tauto

/-- The turns from `a` to `b`, `c` and `d` in terms of those of two sweeps with the turn between
`c` and `a` in common, by the quadratic relation between them. -/
theorem twoPositive_trans (hz : z ≠ 0) (hrelation : x * u + z * w = y * v)
    (h : TwoPositive x y z) (h' : TwoPositive (-z) u v) : TwoPositive x w v := by
  rcases hz.lt_or_gt with hneg | hpos
  · -- from `a` over `b` to `c` is less than half a turn
    obtain ⟨hx, hy⟩ : 0 < x ∧ 0 < y := by
      rcases h with h | h | h
      · exact h
      · exact absurd h.2 hneg.not_gt
      · exact absurd h.2 hneg.not_gt
    by_cases hv : 0 < v
    · exact .inr (.inr ⟨hx, hv⟩)
    · have hu : 0 < u := by
        rcases h' with h' | h' | h'
        · exact h'.2
        · exact h'.1
        · exact absurd h'.2 hv
      have hprod : z * w < 0 := by
        linarith [mul_pos hx hu, mul_nonpos_of_nonneg_of_nonpos hy.le (not_lt.1 hv)]
      exact .inl ⟨hx, pos_of_mul_neg_right hprod hneg.le⟩
  · -- from `c` over `d` to `a` is less than half a turn
    have hzneg : ¬0 < -z := by linarith
    obtain ⟨hu, hv⟩ : 0 < u ∧ 0 < v := by
      rcases h' with h' | h' | h'
      · exact absurd h'.1 hzneg
      · exact h'
      · exact absurd h'.1 hzneg
    by_cases hx : 0 < x
    · exact .inr (.inr ⟨hx, hv⟩)
    · have hy : 0 < y := by
        rcases h with h | h | h
        · exact h.2
        · exact h.1
        · exact absurd h.1 hx
      have hprod : 0 < z * w := by
        linarith [mul_pos hy hv, mul_nonpos_of_nonpos_of_nonneg (not_lt.1 hx) hu.le]
      exact .inr (.inl ⟨(pos_iff_pos_of_mul_pos hprod).1 hpos, hv⟩)

end Majority

/-! ## The cyclic order -/

section Order

variable {moved : Point → Vec3 ℝ} {S : Set Point} {o a b c d : Point}

/-- The points come in the order `a`, `b`, `c` around `o` as displaced points. -/
def TurnsInOrder (moved : Point → Vec3 ℝ) (o a b c : Point) : Prop :=
  InOrder (turn moved o a b) (turn moved o b c) (turn moved o c a)

/-- The sweep test always answers, and as the displaced points lie. -/
theorem Arranges.exists_exactSweepsInOrder (h : Arranges moved o S) (ha : a ∈ S) (hb : b ∈ S)
    (hc : c ∈ S) :
    ∃ v, exactSweepsInOrder a b c o = .ok v ∧ (v = true ↔ TurnsInOrder moved o a b c) := by
  rw [exactSweepsInOrder, h.sign ha hb, h.sign hb hc, h.sign hc ha]
  refine ⟨_, rfl, ?_⟩
  simp only [Bool.or_eq_true, Bool.and_eq_true, bne_iff_ne, ne_eq, beq_iff_eq,
    Sign.of_eq_negative_iff, Sign.of_eq_positive_iff, not_lt, TurnsInOrder, InOrder, or_assoc]

theorem Arranges.exactSweepsInOrder_iff (h : Arranges moved o S) (ha : a ∈ S) (hb : b ∈ S)
    (hc : c ∈ S) : exactSweepsInOrder a b c o = .ok true ↔ TurnsInOrder moved o a b c := by
  obtain ⟨v, hv, hiff⟩ := h.exists_exactSweepsInOrder ha hb hc
  rw [hv, Except.ok.injEq, hiff]

theorem Arranges.turnsInOrder_iff (h : Arranges moved o S) (ha : a ∈ S) (hb : b ∈ S) (hc : c ∈ S)
    (hab : a.key ≠ b.key) (hbc : b.key ≠ c.key) : TurnsInOrder moved o a b c ↔
      TwoPositive (turn moved o a b) (turn moved o b c) (turn moved o c a) :=
  inOrder_iff_twoPositive (h.ne_zero ha hb hab) (h.ne_zero hb hc hbc)

/-- Of the orders `a`, `b`, `c` and `c`, `b`, `a` one holds. -/
theorem Arranges.exclusive (h : Arranges moved o S) (ha : a ∈ S) (hb : b ∈ S) (hc : c ∈ S)
    (hab : a.key ≠ b.key) (hbc : b.key ≠ c.key) (hca : c.key ≠ a.key) :
    ∃ v, exactSweepsInOrder a b c o = .ok v ∧ exactSweepsInOrder c b a o = .ok (!v) := by
  obtain ⟨v, hv, hiff⟩ := h.exists_exactSweepsInOrder ha hb hc
  obtain ⟨w, hw, hiff'⟩ := h.exists_exactSweepsInOrder hc hb ha
  rw [h.turnsInOrder_iff ha hb hc hab hbc] at hiff
  rw [h.turnsInOrder_iff hc hb ha hbc.symm hab.symm, turn_swap, turn_swap moved o a b,
    turn_swap moved o c a, twoPositive_neg (h.ne_zero ha hb hab) (h.ne_zero hb hc hbc)
      (h.ne_zero hc ha hca), ← hiff] at hiff'
  refine ⟨v, hv, hw.trans (congrArg Except.ok ?_)⟩
  rw [Bool.eq_iff_iff, hiff', Bool.not_eq_true, Bool.not_eq_true']

theorem Arranges.rotate (h : Arranges moved o S) (ha : a ∈ S) (hb : b ∈ S) (hc : c ∈ S)
    (hab : a.key ≠ b.key) (hbc : b.key ≠ c.key) (hca : c.key ≠ a.key) :
    exactSweepsInOrder b c a o = exactSweepsInOrder a b c o := by
  obtain ⟨v, hv, hiff⟩ := h.exists_exactSweepsInOrder ha hb hc
  obtain ⟨w, hw, hiff'⟩ := h.exists_exactSweepsInOrder hb hc ha
  rw [h.turnsInOrder_iff ha hb hc hab hbc] at hiff
  rw [h.turnsInOrder_iff hb hc ha hbc hca, twoPositive_rotate, ← hiff] at hiff'
  rw [hv, hw, Bool.eq_iff_iff.2 hiff']

theorem Arranges.trans (h : Arranges moved o S) (ha : a ∈ S) (hb : b ∈ S) (hc : c ∈ S) (hd : d ∈ S)
    (hab : a.key ≠ b.key) (hbc : b.key ≠ c.key) (hca : c.key ≠ a.key) (hbd : b.key ≠ d.key)
    (hcd : c.key ≠ d.key) (habc : exactSweepsInOrder a b c o = .ok true)
    (hacd : exactSweepsInOrder a c d o = .ok true) : exactSweepsInOrder a b d o = .ok true := by
  rw [h.exactSweepsInOrder_iff ha hb hc, h.turnsInOrder_iff ha hb hc hab hbc] at habc
  rw [h.exactSweepsInOrder_iff ha hc hd, h.turnsInOrder_iff ha hc hd hca.symm hcd,
    turn_swap moved o c a] at hacd
  rw [h.exactSweepsInOrder_iff ha hb hd, h.turnsInOrder_iff ha hb hd hab hbd]
  exact twoPositive_trans (h.ne_zero hc ha hca) (turn_mul_turn moved o a b c d) habc hacd

/-- Equal neighbours are always in order: the third turn undoes the one that is left. -/
theorem Arranges.neighbours (h : Arranges moved o S) (ha : a ∈ S) (hb : b ∈ S) (hc : c ∈ S)
    (hequal : a.key = b.key ∨ b.key = c.key) : exactSweepsInOrder a b c o = .ok true := by
  rw [h.exactSweepsInOrder_iff ha hb hc, TurnsInOrder, turn_swap moved o a c]
  rcases hequal with hab | hbc
  · rw [turn_eq_zero (h.congr hab), turn_congr (h.congr hab) rfl]
    exact inOrder_zero_left _
  · rw [turn_eq_zero (h.congr hbc), turn_congr rfl (h.congr hbc)]
    exact inOrder_zero_right _

/-- A sweep that ends where it starts does not come by another point. -/
theorem Arranges.ends (h : Arranges moved o S) (ha : a ∈ S) (hb : b ∈ S) (hc : c ∈ S)
    (hac : a.key = c.key) (hab : a.key ≠ b.key) : exactSweepsInOrder a b c o = .ok false := by
  obtain ⟨v, hv, hiff⟩ := h.exists_exactSweepsInOrder ha hb hc
  rw [TurnsInOrder, turn_eq_zero (h.congr hac).symm, turn_swap moved o c b,
    turn_congr (h.congr hac).symm rfl] at hiff
  rw [hv, Except.ok.injEq, ← Bool.not_eq_true, hiff]
  exact not_inOrder_zero (h.ne_zero ha hb hab)

end Order

/-- The answers of `order` are those of a cyclic order of the points around `o`. Of three different
points one of the two orders holds, wherever it starts; orders that share two points can be put
together; and an order with equal neighbours holds. -/
structure CyclicOrder (o : Point) (order : Point → Point → Point → Except Fault Bool) : Prop where
  exclusive : ∀ {a b c : Point}, Around o a → Around o b → Around o c → repeated a b c = false →
    ∃ v, order a b c = .ok v ∧ order c b a = .ok (!v)
  rotate : ∀ {a b c : Point}, Around o a → Around o b → Around o c → repeated a b c = false →
    order b c a = order a b c
  trans : ∀ {a b c d : Point}, Around o a → Around o b → Around o c → Around o d →
    repeated a b c = false → repeated a b d = false → c.same d = false →
    order a b c = .ok true → order a c d = .ok true → order a b d = .ok true
  neighbours : ∀ {a b c : Point}, Around o a → Around o b → Around o c →
    a.same b = true ∨ b.same c = true → order a b c = .ok true
  ends : ∀ {a b c : Point}, Around o a → Around o b → Around o c →
    a.same c = true → a.same b = false → order a b c = .ok false

theorem exists_arranges_around {o a b c d : Point} (ho : o.Finite) (ha : Around o a)
    (hb : Around o b) (hc : Around o c) (hd : Around o d) :
    ∃ moved, Arranges moved o {a, b, c, d} := by
  refine exists_arranges (Set.toFinite _) ho ?_
  rintro p (rfl | rfl | rfl | rfl) <;> assumption

/-- The points around a finite point are met in cyclic order by a sweep, with every turn evaluated
exactly. The sweep test agrees with this. -/
theorem sweep_cyclic {o : Point} (ho : o.Finite) :
    CyclicOrder o (fun a b c => exactSweepsInOrder a b c o) ∧
      ∀ a b c : Point, a.Finite → b.Finite → c.Finite →
        sweepsInOrder a b c o = exactSweepsInOrder a b c o where
  left := {
    exclusive := fun {a b c} ha hb hc h => by
      obtain ⟨moved, hmoved⟩ := exists_arranges_around ho ha hb hc hc
      obtain ⟨hab, hbc, hca⟩ := distinct_keys ha.1 hb.1 hc.1 h
      exact hmoved.exclusive (by simp) (by simp) (by simp) hab hbc hca
    rotate := fun {a b c} ha hb hc h => by
      obtain ⟨moved, hmoved⟩ := exists_arranges_around ho ha hb hc hc
      obtain ⟨hab, hbc, hca⟩ := distinct_keys ha.1 hb.1 hc.1 h
      exact hmoved.rotate (by simp) (by simp) (by simp) hab hbc hca
    trans := fun {a b c d} ha hb hc hd habc habd hcd hfirst hsecond => by
      obtain ⟨moved, hmoved⟩ := exists_arranges_around ho ha hb hc hd
      obtain ⟨hab, hbc, hca⟩ := distinct_keys ha.1 hb.1 hc.1 habc
      obtain ⟨-, hbd, -⟩ := distinct_keys ha.1 hb.1 hd.1 habd
      have hcd := mt (Point.same_iff hc.1 hd.1).2 (Bool.eq_false_iff.1 hcd)
      exact hmoved.trans (by simp) (by simp) (by simp) (by simp) hab hbc hca hbd hcd hfirst hsecond
    neighbours := fun {a b c} ha hb hc h => by
      obtain ⟨moved, hmoved⟩ := exists_arranges_around ho ha hb hc hc
      rw [Point.same_iff ha.1 hb.1, Point.same_iff hb.1 hc.1] at h
      exact hmoved.neighbours (by simp) (by simp) (by simp) h
    ends := fun {a b c} ha hb hc hac hab => by
      obtain ⟨moved, hmoved⟩ := exists_arranges_around ho ha hb hc hc
      have hab := mt (Point.same_iff ha.1 hb.1).2 (Bool.eq_false_iff.1 hab)
      exact hmoved.ends (by simp) (by simp) (by simp) ((Point.same_iff ha.1 hc.1).1 hac) hab }
  right := fun _ _ _ ha hb hc => sweepsInOrder_eq ha hb hc ho

/-- A sweep around a point of the equator by others of it, where only the displacements decide. -/
theorem sweep_cyclic_equator :
    exactSweepsInOrder ⟨0, 1, 0⟩ ⟨1, 1, 0⟩ ⟨1, 2, 0⟩ ⟨1, 0, 0⟩ = .ok true ∧
      exactSweepsInOrder ⟨1, 2, 0⟩ ⟨1, 1, 0⟩ ⟨0, 1, 0⟩ ⟨1, 0, 0⟩ = .ok false ∧
      exactSweepsInOrder ⟨0, 1, 0⟩ ⟨1, 1, 0⟩ ⟨1, 3, 0⟩ ⟨1, 0, 0⟩ = .ok true := by
  have hcyclic := (sweep_cyclic (o := ⟨1, 0, 0⟩) (by decide +kernel)).1
  have haround : ∀ p ∈ [(⟨0, 1, 0⟩ : Point), ⟨1, 1, 0⟩, ⟨1, 2, 0⟩, ⟨1, 3, 0⟩],
      Around ⟨1, 0, 0⟩ p := by decide +kernel
  have hfirst : exactSweepsInOrder ⟨0, 1, 0⟩ ⟨1, 1, 0⟩ ⟨1, 2, 0⟩ ⟨1, 0, 0⟩ = .ok true := by
    decide +kernel
  have hsecond : exactSweepsInOrder ⟨0, 1, 0⟩ ⟨1, 2, 0⟩ ⟨1, 3, 0⟩ ⟨1, 0, 0⟩ = .ok true := by
    decide +kernel
  obtain ⟨v, hv, hreversed⟩ := hcyclic.exclusive (haround ⟨0, 1, 0⟩ (by simp))
    (haround ⟨1, 1, 0⟩ (by simp)) (haround ⟨1, 2, 0⟩ (by simp)) (by decide +kernel)
  have hjoined := hcyclic.trans (haround ⟨0, 1, 0⟩ (by simp)) (haround ⟨1, 1, 0⟩ (by simp))
    (haround ⟨1, 2, 0⟩ (by simp)) (haround ⟨1, 3, 0⟩ (by simp)) (by decide +kernel)
    (by decide +kernel) (by decide +kernel) hfirst hsecond
  rw [hfirst, Except.ok.injEq] at hv
  exact ⟨hfirst, hreversed.trans (by rw [← hv]; rfl), hjoined⟩

end ExactSphere.Orientation
