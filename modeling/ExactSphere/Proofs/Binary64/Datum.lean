import ExactSphere.Proofs.Binary64.Nearest

/-!
# What a double stands for

A double stands for a rational number, an infinity or nothing (`Datum`). The sign of a zero is left
out: no operation of the library but division tells the zeros apart, and it never divides by zero.
The arithmetic on `Datum` rounds the exact result once (`Datum.round`), with overflow to infinity.
-/

namespace ExactSphere.Binary64

/-- The meaning of a double. -/
inductive Datum where
  | number (x : ℚ)
  | infinity (negative : Bool)
  | nan
  deriving DecidableEq

namespace Datum

/-- A rounded number, or the infinity of its sign if it is too large for a double. -/
def clip (x : ℚ) : Datum := if |x| < 2 ^ (1024 : ℤ) then number x else infinity (x < 0)

/-- Clips a number and leaves the rest. -/
def clipped : Datum → Datum
  | number x => clip x
  | d => d

/-- The double nearest to an exact result. -/
def round (x : ℚ) : Datum := clip (nearest x)

/-- The number, or zero in its absence. -/
def value : Datum → ℚ
  | number x => x
  | infinity _ | nan => 0

def neg : Datum → Datum
  | number x => number (-x)
  | infinity negative => infinity !negative
  | nan => nan

def abs : Datum → Datum
  | number x => number |x|
  | infinity _ => infinity false
  | nan => nan

def add : Datum → Datum → Datum
  | nan, _ | _, nan => nan
  | infinity s, infinity t => if s = t then infinity s else nan
  | infinity s, number _ | number _, infinity s => infinity s
  | number x, number y => round (x + y)

def mul : Datum → Datum → Datum
  | nan, _ | _, nan => nan
  | infinity s, infinity t => infinity (s ^^ t)
  | infinity s, number x | number x, infinity s =>
    if x = 0 then nan else infinity (s ^^ decide (x < 0))
  | number x, number y => round (x * y)

instance : Neg Datum := ⟨neg⟩

instance : Add Datum := ⟨add⟩

instance : Mul Datum := ⟨mul⟩

/-- The order of the extended line; NaN is ordered with nothing. -/
def compare? : Datum → Datum → Option Ordering
  | nan, _ | _, nan => none
  | infinity s, infinity t => some (compare t s)
  | infinity s, number _ => some (if s then .lt else .gt)
  | number _, infinity s => some (if s then .gt else .lt)
  | number x, number y => some (compare x y)

variable {x y : ℚ} {d d₁ d₂ : Datum}

theorem neg_number (x : ℚ) : -number x = number (-x) := rfl

theorem neg_infinity (s : Bool) : -infinity s = infinity !s := rfl

theorem neg_nan : -nan = nan := rfl

theorem add_number (x y : ℚ) : number x + number y = round (x + y) := (rfl)

theorem mul_number (x y : ℚ) : number x * number y = round (x * y) := (rfl)

theorem nan_add (d : Datum) : nan + d = nan := by cases d <;> rfl

theorem add_nan (d : Datum) : d + nan = nan := by cases d <;> rfl

theorem nan_mul (d : Datum) : nan * d = nan := by cases d <;> rfl

theorem mul_nan (d : Datum) : d * nan = nan := by cases d <;> rfl

theorem add_comm (d₁ d₂ : Datum) : d₁ + d₂ = d₂ + d₁ := by
  change add d₁ d₂ = add d₂ d₁
  cases d₁ <;> cases d₂ <;> simp only [add, Rat.add_comm]
  grind

theorem mul_comm (d₁ d₂ : Datum) : d₁ * d₂ = d₂ * d₁ := by
  change mul d₁ d₂ = mul d₂ d₁
  cases d₁ <;> cases d₂ <;> simp only [mul, Rat.mul_comm, Bool.xor_comm]

/-- A sum with a number overflows at most to an infinity. -/
theorem number_add_ne_nan (h : d ≠ nan) : number x + d ≠ nan := by
  cases d with
  | number y =>
    rw [add_number, round, clip]
    split_ifs <;> exact nofun
  | infinity s => exact nofun
  | nan => exact absurd rfl h

theorem neg_neg (d : Datum) : - -d = d := by
  cases d <;> simp [neg_number, neg_infinity, neg_nan]

theorem number_mul_infinity (hx : 0 < x) (s : Bool) : number x * infinity s = infinity s := by
  change (if x = 0 then nan else infinity (s ^^ decide (x < 0))) = _
  rw [if_neg hx.ne', decide_eq_false hx.not_gt, Bool.xor_false]

theorem zero_mul_infinity (s : Bool) : number 0 * infinity s = nan := by
  change (if (0 : ℚ) = 0 then nan else infinity (s ^^ decide ((0 : ℚ) < 0))) = _
  rw [if_pos rfl]

/-! ## Infinities that do not come back -/

/-- Nothing but the infinity of a sign or NaN. -/
def Lost (s : Bool) (d : Datum) : Prop := d = infinity s ∨ d = nan

namespace Lost

variable {s : Bool}

theorem neg (h : Lost s d) : Lost (!s) (-d) := by
  rcases h with rfl | rfl
  · exact .inl rfl
  · exact .inr rfl

theorem add (h : Lost s d₁) (d₂ : Datum) : Lost s (d₁ + d₂) := by
  rcases h with rfl | rfl
  · cases d₂ with
    | number x => exact .inl rfl
    | nan => exact .inr rfl
    | infinity t => cases s <;> cases t <;> first | exact .inl rfl | exact .inr rfl
  · exact .inr (nan_add d₂)

theorem add_right (h : Lost s d₂) (d₁ : Datum) : Lost s (d₁ + d₂) := by
  rw [add_comm]
  exact h.add d₁

/-- Opposite infinities cancel to NaN. -/
theorem add_lost (h : Lost s d₁) (h' : Lost (!s) d₂) : d₁ + d₂ = nan := by
  rcases h with rfl | rfl
  · rcases h' with rfl | rfl
    · cases s <;> rfl
    · rfl
  · exact nan_add d₂

end Lost

/-! ## The order -/

theorem compare?_nan (d : Datum) : d.compare? nan = none := by cases d <;> rfl

theorem number_compare?_number (x y : ℚ) : (number x).compare? (number y) = some (compare x y) :=
  rfl

/-- Nothing but NaN differs from itself. -/
theorem compare?_eq_some_eq_iff : d₁.compare? d₂ = some .eq ↔ d₁ = d₂ ∧ d₁ ≠ nan := by
  cases d₁ with
  | number x =>
    cases d₂ with
    | number y =>
      rw [number_compare?_number, Option.some.injEq, compare_eq_iff_eq, number.injEq]
      exact ⟨fun h => ⟨h, nofun⟩, fun h => h.1⟩
    | infinity t => cases t <;> exact ⟨nofun, nofun⟩
    | nan => exact ⟨nofun, nofun⟩
  | infinity s =>
    cases d₂ with
    | number y => cases s <;> exact ⟨nofun, nofun⟩
    | infinity t => cases s <;> cases t <;> decide
    | nan => exact ⟨nofun, nofun⟩
  | nan => exact ⟨nofun, fun h => absurd rfl h.2⟩

theorem compare?_swap (d₁ d₂ : Datum) : d₂.compare? d₁ = (d₁.compare? d₂).map Ordering.swap := by
  cases d₁ <;> cases d₂ <;> try rfl
  case number.number x y =>
    exact congrArg some (Std.OrientedCmp.eq_swap ..)
  case number.infinity x s => cases s <;> rfl
  case infinity.number s x => cases s <;> rfl
  case infinity.infinity s t => cases s <;> cases t <;> rfl

theorem compare?_neg (d₁ d₂ : Datum) : (-d₁).compare? (-d₂) = d₂.compare? d₁ := by
  cases d₁ <;> cases d₂ <;> try rfl
  case number.number x y =>
    simp only [neg_number, number_compare?_number, compare, compareOfLessAndEq, neg_lt_neg_iff,
      neg_inj, eq_comm]
  case number.infinity x s => cases s <;> rfl
  case infinity.number s x => cases s <;> rfl
  case infinity.infinity s t => cases s <;> cases t <;> rfl

/-! ## Finite results -/

theorem round_eq_number_iff {z : ℚ} :
    round x = number z ↔ |z| < 2 ^ (1024 : ℤ) ∧ z = nearest x := by
  unfold round clip
  split_ifs with h <;> grind

theorem round_of_representable (h : Representable x) (hlt : |x| < 2 ^ (1024 : ℤ)) :
    round x = number x :=
  round_eq_number_iff.2 ⟨hlt, (nearest_eq_self h).symm⟩

/-- Few units of a small power of two are exact. -/
theorem round_natCast_mul_zpow {n : ℕ} {e : ℤ} (hn : n ≤ 2 ^ 53) (he : -1074 ≤ e) (he' : e ≤ 0) :
    round (n * 2 ^ e) = number (n * 2 ^ e) := by
  have hle : |n * (2 : ℚ) ^ e| ≤ 2 ^ (e + 53) := by
    rw [abs_of_nonneg (by positivity), Int.add_comm, zpow_add₀ two_ne_zero]
    exact mul_le_mul_of_nonneg_right (by exact_mod_cast hn) (by positivity)
  exact round_of_representable ⟨e, he, ⟨n, by simp⟩, hle⟩ (lt_zpow_of_le hle (by omega))

theorem neg_eq_number_iff {z : ℚ} : -d = number z ↔ d = number (-z) := by
  cases d <;> simp [neg_number, neg_infinity, neg_nan, neg_eq_iff_eq_neg]

/-- `op` rounds the exact result of numbers, and only numbers have a finite result. -/
structure Rounds (op : Datum → Datum → Datum) (exact : ℚ → ℚ → ℚ) : Prop where
  number : ∀ x y, op (number x) (number y) = round (exact x y)
  exists_number : ∀ {d₁ d₂ : Datum} {z : ℚ},
    op d₁ d₂ = Datum.number z → ∃ x y, d₁ = Datum.number x ∧ d₂ = Datum.number y

namespace Rounds

variable {op : Datum → Datum → Datum} {exact : ℚ → ℚ → ℚ} {z : ℚ}

theorem eq_number_iff (h : Rounds op exact) : op d₁ d₂ = Datum.number z ↔
    ∃ x y, d₁ = Datum.number x ∧ d₂ = Datum.number y ∧ round (exact x y) = Datum.number z := by
  constructor
  · intro hz
    obtain ⟨x, y, rfl, rfl⟩ := h.exists_number hz
    exact ⟨x, y, rfl, rfl, (h.number x y).symm.trans hz⟩
  · rintro ⟨x, y, rfl, rfl, hround⟩
    exact (h.number x y).trans hround

/-- A finite result is the rounded result of numbers. -/
theorem exists_nearest (h : Rounds op exact) (hz : op d₁ d₂ = Datum.number z) :
    ∃ x y, d₁ = Datum.number x ∧ d₂ = Datum.number y ∧ z = nearest (exact x y) := by
  obtain ⟨x, y, hx, hy, hround⟩ := h.eq_number_iff.1 hz
  exact ⟨x, y, hx, hy, (round_eq_number_iff.1 hround).2⟩

theorem of_lt (h : Rounds op exact) (hlt : |nearest (exact x y)| < 2 ^ (1024 : ℤ)) :
    op (Datum.number x) (Datum.number y) = Datum.number (nearest (exact x y)) :=
  (h.number x y).trans (round_eq_number_iff.2 ⟨hlt, rfl⟩)

end Rounds

theorem rounds_add : Rounds (· + ·) (· + ·) where
  number x y := rfl
  exists_number {d₁ d₂ z} h := by
    change add d₁ d₂ = _ at h
    cases d₁ <;> cases d₂ <;> simp only [add] at h <;> grind

theorem rounds_mul : Rounds (· * ·) (· * ·) where
  number x y := rfl
  exists_number {d₁ d₂ z} h := by
    change mul d₁ d₂ = _ at h
    cases d₁ <;> cases d₂ <;> simp only [mul] at h <;> grind

theorem rounds_sub : Rounds (fun d₁ d₂ => d₁ + -d₂) (· - ·) where
  number x y := congrArg round (sub_eq_add_neg x y).symm
  exists_number h := by
    obtain ⟨x, y, hx, hy⟩ := rounds_add.exists_number h
    exact ⟨x, -y, hx, neg_eq_number_iff.1 hy⟩

/-- A finite sum has finite terms. -/
theorem add_eq_number_iff {z : ℚ} :
    d₁ + d₂ = number z ↔ ∃ x y, d₁ = number x ∧ d₂ = number y ∧ round (x + y) = number z :=
  rounds_add.eq_number_iff

/-- A finite product has finite factors. -/
theorem mul_eq_number_iff {z : ℚ} :
    d₁ * d₂ = number z ↔ ∃ x y, d₁ = number x ∧ d₂ = number y ∧ round (x * y) = number z :=
  rounds_mul.eq_number_iff

end Datum
end ExactSphere.Binary64
