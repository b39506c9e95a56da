import ExactSphere.Proofs.Radical.Reading
import ExactSphere.Proofs.Safety

/-!
# Depths of root sums

The budgets of the sign tests in a root difference and in a root sum are worked out from declared
depths of the parts. They cover what is tested, in every branch and for any values, finite or not
(`rootDepths_suffice`). The depths that scalars reach are those of a reading that looks at nothing
else (`Reading.ofDepth`).
-/

namespace ExactSphere

/-! ## Computations without faults -/

namespace Certify

variable {A B : Type} {m : Certify A} {f : A → Certify B}

theorem returns_pure (a : A) : Returns (pure a : Certify A).run := ⟨_, rfl⟩

/-- A step without a fault may be followed by one that has none after any answer. -/
theorem returns_bind (hm : Returns m.run) (hf : ∀ a, Returns (f a).run) :
    Returns (m >>= f).run := by
  obtain ⟨_ | a, hrun⟩ := hm
  · rw [OptionT.run_bind, hrun]
    exact ⟨_, rfl⟩
  · rw [run_bind_of_some hrun]
    exact hf a

theorem returns_lift_bind {x : Except Fault A} {a : A} (hx : x = .ok a)
    (hf : Returns (f a).run) : Returns ((liftM x : Certify A) >>= f).run := by
  rwa [hx, lift_ok_bind]

end Certify

namespace Tracked

variable {β : Type} [WorkingFloat β]

/-- A sign test has a fault just if the depth exceeds the budget, as long as words hold the budget
and its two operations to spare. -/
theorem returns_sign?_iff {x : Tracked β} {budget : ℕ} (hbudget : budget + 2 < depthLimit) :
    Returns (Scalar.sign? x budget).run ↔ x.depth ≤ budget := by
  change Returns (Tracked.sign? x budget).run ↔ _
  unfold Tracked.sign?
  split_ifs with hdeep hzero
  · refine ⟨fun ⟨answer, h⟩ => ?_, fun h => absurd hdeep h.not_gt⟩
    cases h
  · exact ⟨fun _ => not_lt.1 hdeep, fun _ => Certify.returns_pure _⟩
  · refine ⟨fun _ => not_lt.1 hdeep, fun _ => Certify.returns_lift_bind (if_pos hbudget) ?_⟩
    dsimp only
    split_ifs
    · exact Certify.returns_pure _
    · exact Certify.returns_pure _
    · exact ⟨_, rfl⟩

end Tracked

/-! ## Sign tests without faults -/

namespace Reading

variable {α : Type} [Scalar α]

/-- The sign test has no fault, if the scalar is within the budget and the budget within the
limit. -/
def Faultless (R : Reading α) (limit : ℕ) : Prop :=
  ∀ {k budget x v}, R.Reads k x v → k ≤ budget → budget ≤ limit → Returns (sign? x budget).run

variable {R : Reading α} {limit : ℕ}

theorem ReadsTerm.returns_sign (hR : R.Faultless limit) {depths : RootTerm ℕ} {t : RootTerm α}
    {v : RootTerm ℚ} (h : R.ReadsTerm depths t v) (hradicand : depths.radicand ≤ limit)
    (hcoefficient : depths.coefficient ≤ limit) : Returns (t.sign depths).run := by
  unfold RootTerm.sign
  refine Certify.returns_bind (hR h.radicand le_rfl hradicand) fun radicandSign => ?_
  split_ifs
  · exact Certify.returns_pure _
  · exact hR h.coefficient le_rfl hcoefficient

theorem ReadsDifference.returns_sign (hR : R.Faultless limit) {depths : RootDifference ℕ}
    {d : RootDifference α} {v : RootDifference ℚ} (h : R.ReadsDifference depths d v)
    (hdepth : max (2 * depths.rational + 1)
      (2 * depths.coefficient + 1 + depths.radicand + 1) + 1 ≤ limit)
    (hlimit : limit < depthLimit) : Returns (d.sign depths).run := by
  have hroot : R.ReadsTerm ⟨depths.radicand, depths.coefficient⟩ ⟨d.radicand, d.coefficient⟩
      ⟨v.radicand, v.coefficient⟩ := ⟨h.radicand, h.coefficient⟩
  have hsquares := R.sub (R.mul h.rational h.rational)
    (R.mul (R.mul h.coefficient h.coefficient) h.radicand)
  unfold RootDifference.sign
  refine Certify.returns_bind (hR h.rational le_rfl (by omega)) fun rationalSign => ?_
  refine Certify.returns_bind
    (hroot.returns_sign hR (by dsimp only; omega) (by dsimp only; omega)) fun rootSign => ?_
  split_ifs
  · exact Certify.returns_pure _
  · exact Certify.returns_pure _
  · exact Certify.returns_pure _
  · refine Certify.returns_lift_bind (depths.squaredDepth_of_lt (by omega)) ?_
    exact Certify.returns_bind (hR hsquares (by omega) hdepth) fun _ => Certify.returns_pure _

variable {depths : RootTerm ℕ} {r s t : RootTerm α} {u v w : RootTerm ℚ}

theorem returns_pairSign (hR : R.Faultless limit) (hs : R.ReadsTerm depths s v)
    (ht : R.ReadsTerm depths t w) (hdepth : 2 * depths.coefficient + depths.radicand + 3 ≤ limit)
    (hlimit : limit < depthLimit) (sSign tSign : Sign) :
    Returns (s.pairSign t sSign tSign depths).run := by
  unfold RootTerm.pairSign
  split_ifs
  · exact Certify.returns_pure _
  · exact Certify.returns_pure _
  · refine Certify.returns_lift_bind (depths.pairDepth_of_lt (by omega)) ?_
    exact Certify.returns_bind (hR (R.sub hs.square ht.square) (by omega) hdepth)
      fun _ => Certify.returns_pure _

theorem returns_sumSign (hR : R.Faultless limit) (hr : R.ReadsTerm depths r u)
    (hs : R.ReadsTerm depths s v) (ht : R.ReadsTerm depths t w)
    (hdepth : 4 * depths.coefficient + 2 * depths.radicand + 10 ≤ limit)
    (hlimit : limit < depthLimit) : Returns (RootTerm.sumSign r s t depths).run := by
  have hradicand : depths.radicand ≤ limit := by omega
  have hcoefficient : depths.coefficient ≤ limit := by omega
  unfold RootTerm.sumSign
  refine Certify.returns_bind (hr.returns_sign hR hradicand hcoefficient) fun left => ?_
  refine Certify.returns_bind (hs.returns_sign hR hradicand hcoefficient) fun sSign => ?_
  refine Certify.returns_bind (ht.returns_sign hR hradicand hcoefficient) fun tSign => ?_
  refine Certify.returns_bind (returns_pairSign hR hs ht (by omega) hlimit sSign tSign)
    fun pair => ?_
  dsimp only
  split_ifs
  · exact Certify.returns_pure _
  · exact Certify.returns_pure _
  · refine Certify.returns_lift_bind (depths.differenceDepths_of_lt (by omega) (by omega)) ?_
    exact Certify.returns_bind
      ((readsDifference_squares hr hs ht).returns_sign hR (by dsimp only; omega) hlimit)
      fun _ => Certify.returns_pure _

/-! ## Depths as readings -/

variable (β : Type) [WorkingFloat β]

/-- Tracked values read by their depths alone: they may stand for any number. -/
def ofDepth : Reading (Tracked β) where
  Reads k x _ := x.depth ≤ k
  two := le_rfl
  mono := le_trans
  sub := fun hx hy => Nat.succ_le_succ (max_le_max hx hy)
  mul := fun hx hy => Nat.succ_le_succ (add_le_add hx hy)

/-- The same for values that watch their words: a depth that fits has been reached through depths
that fit. -/
def ofGuardedDepth : Reading (Guarded (Tracked β)) where
  Reads k x _ := k < depthLimit → x.fits = true ∧ x.value.depth ≤ k
  two := fun _ => ⟨rfl, le_rfl⟩
  mono := fun hx hij hj =>
    have ⟨hfits, hdepth⟩ := hx (hij.trans_lt hj)
    ⟨hfits, hdepth.trans hij⟩
  sub := by
    intro i j x y _ _ hx hy hk
    obtain ⟨hxfits, hxdepth⟩ := hx (by omega)
    obtain ⟨hyfits, hydepth⟩ := hy (by omega)
    have hdepth : max x.value.depth y.value.depth + 1 ≤ max i j + 1 :=
      Nat.succ_le_succ (max_le_max hxdepth hydepth)
    refine ⟨?_, hdepth⟩
    rw [Guarded.fits_sub, hxfits, hyfits]
    exact decide_eq_true (hdepth.trans_lt hk)
  mul := by
    intro i j x y _ _ hx hy hk
    obtain ⟨hxfits, hxdepth⟩ := hx (by omega)
    obtain ⟨hyfits, hydepth⟩ := hy (by omega)
    have hdepth : x.value.depth + y.value.depth + 1 ≤ i + j + 1 :=
      Nat.succ_le_succ (add_le_add hxdepth hydepth)
    refine ⟨?_, hdepth⟩
    rw [Guarded.fits_mul, hxfits, hyfits]
    exact decide_eq_true (hdepth.trans_lt hk)

variable {β}

theorem faultless_ofDepth (hlimit : limit + 2 < depthLimit) : (ofDepth β).Faultless limit :=
  fun hx hk hbudget => (Tracked.returns_sign?_iff (by omega)).2 (le_trans hx hk)

theorem faultless_ofGuardedDepth (hlimit : limit + 2 < depthLimit) :
    (ofGuardedDepth β).Faultless limit := by
  intro k budget x v hx hk hbudget
  obtain ⟨hfits, hdepth⟩ := hx (by omega)
  rw [Guarded.sign?_of_fits hfits]
  exact (Tracked.returns_sign?_iff (by omega)).2 (hdepth.trans hk)

end Reading

/-! ## Tracked arguments -/

section Tracked

variable {β : Type}

/-- The parts of a term are no deeper than declared. -/
structure RootTerm.Within (t : RootTerm (Tracked β)) (depths : RootTerm ℕ) : Prop where
  radicand : t.radicand.depth ≤ depths.radicand
  coefficient : t.coefficient.depth ≤ depths.coefficient

/-- The parts of a difference are no deeper than declared. -/
structure RootDifference.Within (d : RootDifference (Tracked β)) (depths : RootDifference ℕ) :
    Prop where
  rational : d.rational.depth ≤ depths.rational
  coefficient : d.coefficient.depth ≤ depths.coefficient
  radicand : d.radicand.depth ≤ depths.radicand

/-- The term with the words of all that is computed from it watched. -/
def RootTerm.guarded (t : RootTerm (Tracked β)) : RootTerm (Guarded (Tracked β)) :=
  ⟨⟨t.radicand, true⟩, ⟨t.coefficient, true⟩⟩

/-- The difference with the words of all that is computed from it watched. -/
def RootDifference.guarded (d : RootDifference (Tracked β)) :
    RootDifference (Guarded (Tracked β)) :=
  ⟨⟨d.rational, true⟩, ⟨d.coefficient, true⟩, ⟨d.radicand, true⟩⟩

variable [WorkingFloat β]

open Reading (ofDepth ofGuardedDepth)

/-- Any number will do as what a depth stands for. -/
theorem RootTerm.Within.reads {t : RootTerm (Tracked β)} {depths : RootTerm ℕ}
    (h : t.Within depths) : (ofDepth β).ReadsTerm depths t ⟨0, 0⟩ := ⟨h.1, h.2⟩

theorem RootTerm.Within.reads_guarded {t : RootTerm (Tracked β)} {depths : RootTerm ℕ}
    (h : t.Within depths) : (ofGuardedDepth β).ReadsTerm depths t.guarded ⟨0, 0⟩ :=
  ⟨fun _ => ⟨rfl, h.1⟩, fun _ => ⟨rfl, h.2⟩⟩

theorem RootDifference.Within.reads {d : RootDifference (Tracked β)} {depths : RootDifference ℕ}
    (h : d.Within depths) : (ofDepth β).ReadsDifference depths d ⟨0, 0, 0⟩ := ⟨h.1, h.2, h.3⟩

theorem RootDifference.Within.reads_guarded {d : RootDifference (Tracked β)}
    {depths : RootDifference ℕ} (h : d.Within depths) :
    (ofGuardedDepth β).ReadsDifference depths d.guarded ⟨0, 0, 0⟩ :=
  ⟨fun _ => ⟨rfl, h.1⟩, fun _ => ⟨rfl, h.2⟩, fun _ => ⟨rfl, h.3⟩⟩

end Tracked

/-- In any rounded arithmetic a sign test has a fault if and only if its argument is deeper than its
budget. For declared depths below `2 ^ 26`, no sign test in a root difference or in a root sum of
arguments within these has one, whatever their values are, and no depth or budget overflows. -/
theorem rootDepths_suffice {β : Type} [WorkingFloat β] :
    (∀ (x : Tracked β) (budget : ℕ), budget + 2 < depthLimit →
      (Returns (sign? x budget).run ↔ x.depth ≤ budget)) ∧
    (∀ (d : RootDifference (Tracked β)) (depths : RootDifference ℕ), d.Within depths →
      depths.rational < 2 ^ 26 → depths.coefficient < 2 ^ 26 → depths.radicand < 2 ^ 26 →
      Returns (d.sign depths).run ∧ Returns (d.guarded.sign depths).run) ∧
    (∀ (r s t : RootTerm (Tracked β)) (depths : RootTerm ℕ), r.Within depths → s.Within depths →
      t.Within depths → depths.radicand < 2 ^ 26 → depths.coefficient < 2 ^ 26 →
      Returns (RootTerm.sumSign r s t depths).run ∧
        Returns (RootTerm.sumSign r.guarded s.guarded t.guarded depths).run) := by
  have hlimit : 2 ^ 29 + 2 < depthLimit := by decide
  have hdepth : (Reading.ofDepth β).Faultless (2 ^ 29) := Reading.faultless_ofDepth hlimit
  have hguarded : (Reading.ofGuardedDepth β).Faultless (2 ^ 29) :=
    Reading.faultless_ofGuardedDepth hlimit
  refine ⟨fun x budget => Tracked.returns_sign?_iff, ?difference, ?sum⟩
  case difference =>
    intro d depths hd hrational hcoefficient hradicand
    exact ⟨hd.reads.returns_sign hdepth (by omega) (by decide),
      hd.reads_guarded.returns_sign hguarded (by omega) (by decide)⟩
  case sum =>
    intro r s t depths hr hs ht hradicand hcoefficient
    exact ⟨Reading.returns_sumSign hdepth hr.reads hs.reads ht.reads (by omega) (by decide),
      Reading.returns_sumSign hguarded hr.reads_guarded hs.reads_guarded ht.reads_guarded
        (by omega) (by decide)⟩

/-- As deep as they may be, the parts of `3 - √9` in double-words and those of `√4 + √9 - √25` in
doubles pass the tests of all squares. -/
theorem rootDepths_suffice_deepest :
    let x (v : Float) : Tracked DoubleWord := { Tracked.leaf v with depth := 67108863 }
    let y (v : Float) : Tracked Float := { Tracked.leaf v with depth := 67108863 }
    (67108863 < 2 ^ 26 ∧ RootDifference.Within ⟨x 3, x 1, x 9⟩ ⟨67108863, 67108863, 67108863⟩ ∧
      ∀ v w, RootTerm.Within ⟨y v, y w⟩ ⟨67108863, 67108863⟩) ∧
      Returns (RootDifference.sign ⟨x 3, x 1, x 9⟩ ⟨67108863, 67108863, 67108863⟩).run ∧
      Returns (RootTerm.sumSign ⟨y 4, y 1⟩ ⟨y 9, y 1⟩ ⟨y 25, y (-1)⟩ ⟨67108863, 67108863⟩).run := by
  intro x y
  have hlt : 67108863 < 2 ^ 26 := by decide
  have hx : RootDifference.Within ⟨x 3, x 1, x 9⟩ ⟨67108863, 67108863, 67108863⟩ :=
    ⟨le_rfl, le_rfl, le_rfl⟩
  have hy : ∀ v w, RootTerm.Within ⟨y v, y w⟩ ⟨67108863, 67108863⟩ := fun _ _ => ⟨le_rfl, le_rfl⟩
  exact ⟨⟨hlt, hx, hy⟩, (rootDepths_suffice.2.1 _ _ hx hlt hlt hlt).1,
    (rootDepths_suffice.2.2 _ _ _ _ (hy 4 1) (hy 9 1) (hy 25 (-1)) hlt hlt).1⟩

end ExactSphere
