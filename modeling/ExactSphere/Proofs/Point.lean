import ExactSphere.Vector
import ExactSphere.Proofs.Expression
import ExactSphere.Proofs.Vector
import Mathlib.Data.Prod.Lex
import Mathlib.Data.Real.Basic

/-!
# Finite points

The exact coordinates of a finite point, as rational and as real numbers. Equality and the
lexicographic order of finite points are those of their coordinates, so sorting three different
points arranges them strictly.
-/

namespace ExactSphere

theorem Sign.of_ratCast (x : ℚ) : Sign.of (x : ℝ) = Sign.of x := by
  simp only [Sign.of, Rat.cast_lt_zero, Rat.cast_eq_zero]

namespace Vec3

/-- The vector with real components. -/
def real (v : Vec3 ℚ) : Vec3 ℝ := v.map (↑)

variable (v w : Vec3 ℚ)

@[simp] theorem real_dot : v.real.dot w.real = (v.dot w : ℚ) := by
  simp only [real, map, dot, Rat.cast_add, Rat.cast_mul]

@[simp] theorem real_normSq : v.real.normSq = (v.normSq : ℚ) := v.real_dot v

theorem real_normSq_pos {v : Vec3 ℚ} (h : 0 < v.normSq) : 0 < v.real.normSq := by
  rwa [real_normSq, Rat.cast_pos]

theorem real_cross : (v.cross w).real = v.real.cross w.real := by
  simp only [real, map, cross, Rat.cast_sub, Rat.cast_mul]

end Vec3

namespace Point

/-- All coordinates are finite. -/
def Finite (p : Point) : Prop :=
  p.x.isFinite = true ∧ p.y.isFinite = true ∧ p.z.isFinite = true

instance (p : Point) : Decidable p.Finite := inferInstanceAs (Decidable (_ ∧ _ ∧ _))

/-- The exact coordinates. -/
def value (p : Point) : Vec3 ℚ := p.map Binary64.value

/-- The exact coordinates as real numbers. -/
def real (p : Point) : Vec3 ℝ := p.value.map (↑)

theorem value_neg (p : Point) : Point.value (-p) = -p.value := by
  change Vec3.mk (Binary64.value (-p.x)) (Binary64.value (-p.y)) (Binary64.value (-p.z)) = _
  rw [Binary64.value_neg, Binary64.value_neg, Binary64.value_neg]
  rfl

theorem real_neg (p : Point) : Point.real (-p) = -p.real := by
  rw [Point.real, Point.value_neg]
  change Vec3.mk _ _ _ = Vec3.mk _ _ _
  congr 1 <;> exact Rat.cast_neg _

theorem Finite.neg {p : Point} (h : p.Finite) : Point.Finite (-p) := by
  have hfinite : ∀ {a : Float}, a.isFinite = true → (-a).isFinite = true := fun {a} ha =>
    Binary64.isFinite_of_datum (v := -Binary64.value a) (by
      rw [Binary64.datum_neg, Binary64.isFinite_iff.1 ha, Binary64.Datum.neg_number])
  exact ⟨hfinite h.1, hfinite h.2.1, hfinite h.2.2⟩

/-! ## Comparison -/

/-- The exact coordinates in the order in which they are compared. -/
def key (p : Point) : ℚ ×ₗ ℚ ×ₗ ℚ :=
  toLex (Binary64.value p.x, toLex (Binary64.value p.y, Binary64.value p.z))

variable {p q : Point}

theorem value_eq_of_key_eq (h : p.key = q.key) : p.value = q.value := by
  have hx : Binary64.value p.x = Binary64.value q.x := congrArg (fun k => (ofLex k).1) h
  have hy : Binary64.value p.y = Binary64.value q.y :=
    congrArg (fun k => (ofLex (ofLex k).2).1) h
  have hz : Binary64.value p.z = Binary64.value q.z :=
    congrArg (fun k => (ofLex (ofLex k).2).2) h
  change Vec3.mk _ _ _ = Vec3.mk _ _ _
  rw [hx, hy, hz]

theorem lexOrder_eq (hp : p.Finite) (hq : q.Finite) : p.lexOrder q = compare p.key q.key := by
  unfold lexOrder coordinateOrder
  rw [Binary64.compare?_of_finite hp.1 hq.1, Binary64.compare?_of_finite hp.2.1 hq.2.1,
    Binary64.compare?_of_finite hp.2.2 hq.2.2]
  rfl

theorem lexOrder_eq_lt_iff (hp : p.Finite) (hq : q.Finite) :
    p.lexOrder q = .lt ↔ p.key < q.key := by
  rw [lexOrder_eq hp hq, compare_lt_iff_lt]

theorem lexOrder_eq_gt_iff (hp : p.Finite) (hq : q.Finite) :
    p.lexOrder q = .gt ↔ q.key < p.key := by
  rw [lexOrder_eq hp hq, compare_gt_iff_gt]

theorem same_iff (hp : p.Finite) (hq : q.Finite) : p.same q = true ↔ p.key = q.key := by
  unfold same
  simp only [Bool.and_eq_true, Binary64.beq_of_finite hp.1 hq.1,
    Binary64.beq_of_finite hp.2.1 hq.2.1, Binary64.beq_of_finite hp.2.2 hq.2.2, key,
    EmbeddingLike.apply_eq_iff_eq, Prod.mk.injEq, and_assoc]

/-! ## Sorting -/

theorem exchange_of_lt (hp : p.Finite) (hq : q.Finite) (h : p.key < q.key) :
    sort3.exchange p q = (p, q, false) := by
  rw [sort3.exchange, lexOrder_eq hp hq, compare_lt_iff_lt.2 h]
  rfl

theorem exchange_of_gt (hp : p.Finite) (hq : q.Finite) (h : q.key < p.key) :
    sort3.exchange p q = (q, p, true) := by
  rw [sort3.exchange, lexOrder_eq hp hq, compare_gt_iff_gt.2 h]
  rfl

/-- The points `p`, `q` and `r` are `a`, `b` and `c` in increasing order, after an odd or an even
number of exchanges. -/
structure Sorts (a b c p q r : Point) (odd : Bool) : Prop where
  sort3_eq : sort3 a b c = ((p, q, r), odd)
  fst_lt : p.key < q.key
  lt_thd : q.key < r.key
  mem : ∀ {P : Point → Prop}, P a → P b → P c → P p ∧ P q ∧ P r
  alternating : ∀ {K : Type} [InvolutiveNeg K] {f : Point → Point → Point → K},
    (∀ x y z, f y x z = -f x y z) → (∀ x y z, f x z y = -f x y z) →
    f p q r = if odd then -f a b c else f a b c

/-- Three different points can be sorted. -/
theorem exists_sorts {a b c : Point} (ha : a.Finite) (hb : b.Finite) (hc : c.Finite)
    (hab : a.key ≠ b.key) (hbc : b.key ≠ c.key) (hca : c.key ≠ a.key) :
    ∃ p q r odd, Sorts a b c p q r odd := by
  rcases lt_or_gt_of_ne hab with hab | hba
  · rcases lt_or_gt_of_ne hbc with hbc | hcb
    · refine ⟨a, b, c, false, ?_, hab, hbc, fun ha hb hc => ⟨ha, hb, hc⟩, fun _ _ => rfl⟩
      simp only [sort3, exchange_of_lt ha hb hab, exchange_of_lt hb hc hbc]
      rfl
    · rcases lt_or_gt_of_ne hca with hca | hac
      · refine ⟨c, a, b, false, ?_, hca, hab, fun ha hb hc => ⟨hc, ha, hb⟩, fun h h' => ?_⟩
        · simp only [sort3, exchange_of_lt ha hb hab, exchange_of_gt hb hc hcb,
            exchange_of_gt ha hc hca]
          rfl
        · rw [h, h', neg_neg]
          rfl
      · refine ⟨a, c, b, true, ?_, hac, hcb, fun ha hb hc => ⟨ha, hc, hb⟩, fun _ h' => ?_⟩
        · simp only [sort3, exchange_of_lt ha hb hab, exchange_of_gt hb hc hcb,
            exchange_of_lt ha hc hac]
          rfl
        · rw [h']
          rfl
  · rcases lt_or_gt_of_ne hca with hca | hac
    · rcases lt_or_gt_of_ne hbc with hbc | hcb
      · refine ⟨b, c, a, false, ?_, hbc, hca, fun ha hb hc => ⟨hb, hc, ha⟩, fun h h' => ?_⟩
        · simp only [sort3, exchange_of_gt ha hb hba, exchange_of_gt ha hc hca,
            exchange_of_lt hb hc hbc]
          rfl
        · rw [h', h, neg_neg]
          rfl
      · refine ⟨c, b, a, true, ?_, hcb, hba, fun ha hb hc => ⟨hc, hb, ha⟩, fun h h' => ?_⟩
        · simp only [sort3, exchange_of_gt ha hb hba, exchange_of_gt ha hc hca,
            exchange_of_gt hb hc hcb]
          rfl
        · rw [h, h', h, neg_neg]
          rfl
    · refine ⟨b, a, c, true, ?_, hba, hac, fun ha hb hc => ⟨hb, ha, hc⟩, fun h _ => ?_⟩
      · simp only [sort3, exchange_of_gt ha hb hba, exchange_of_lt ha hc hac,
          exchange_of_lt hb ha hba]
        rfl
      · rw [h]
        rfl

theorem Sorts.perm {a b c p q r : Point} {odd : Bool} (h : Sorts a b c p q r odd) :
    [p, q, r].Perm [a, b, c] := by
  have hdistinct : [p, q, r].Nodup := by
    have hpq := ne_of_apply_ne key h.fst_lt.ne
    have hpr := ne_of_apply_ne key (h.fst_lt.trans h.lt_thd).ne
    have hqr := ne_of_apply_ne key h.lt_thd.ne
    simp [hpq, hpr, hqr]
  have hsubset : [p, q, r] ⊆ [a, b, c] := by
    obtain ⟨hp, hq, hr⟩ := h.mem (P := (· ∈ [a, b, c])) (by simp) (by simp) (by simp)
    simp only [List.cons_subset, List.nil_subset, and_true]
    exact ⟨hp, hq, hr⟩
  exact (List.subperm_of_subset hdistinct hsubset).perm_of_length_le le_rfl

/-- The points in increasing order are those that sorting gives. -/
theorem exists_sorts_of_perm {a b c p q r : Point} (ha : a.Finite) (hb : b.Finite) (hc : c.Finite)
    (h : [p, q, r].Perm [a, b, c]) (hpq : p.key < q.key) (hqr : q.key < r.key) :
    ∃ odd, Sorts a b c p q r odd := by
  have hkeys : ([a, b, c].map key).Nodup := by
    rw [← (h.map key).nodup_iff]
    simp [hpq.ne, hqr.ne, (hpq.trans hqr).ne]
  simp only [List.map_cons, List.map_nil, List.nodup_cons, List.mem_cons, List.not_mem_nil,
    or_false, not_or] at hkeys
  obtain ⟨⟨hab, hac⟩, hbc, -⟩ := hkeys
  obtain ⟨p', q', r', odd, hsorts⟩ := exists_sorts ha hb hc hab hbc (Ne.symm hac)
  have hsorted : ∀ {x y z : Point}, x.key < y.key → y.key < z.key →
      [x, y, z].Pairwise (fun s t => s.key < t.key) := fun hxy hyz => by
    simp [hxy, hyz, hxy.trans hyz]
  have hlists : [p', q', r'] = [p, q, r] :=
    (hsorts.perm.trans h.symm).eq_of_pairwise (fun _ _ _ _ hst hts => (lt_asymm hst hts).elim)
      (hsorted hsorts.fst_lt hsorts.lt_thd) (hsorted hpq hqr)
  simp only [List.cons.injEq, and_true] at hlists
  obtain ⟨rfl, rfl, rfl⟩ := hlists
  exact ⟨odd, hsorts⟩

end Point
end ExactSphere
