import ExactSphere.Scalar

/-!
Vectors in three dimensions over any numbers, and input points, which are vectors of doubles. A
point stands for its direction; it need not have unit length.
-/

namespace ExactSphere

/-- A vector in three dimensions. -/
structure Vec3 (α : Type) where
  x : α
  y : α
  z : α
  deriving DecidableEq

namespace Vec3

/-- Applies a function to every component. -/
def map (f : α → β) (v : Vec3 α) : Vec3 β := ⟨f v.x, f v.y, f v.z⟩

/-- The component of the given index. -/
def component (v : Vec3 α) : Nat → Except Fault α
  | 0 => .ok v.x
  | 1 => .ok v.y
  | 2 => .ok v.z
  | index => .error (.noComponent index)

/-- The scalar product. -/
def dot [Add α] [Mul α] (v w : Vec3 α) : α :=
  v.x * w.x + v.y * w.y + v.z * w.z

/-- The vector product. -/
def cross [Sub α] [Mul α] (v w : Vec3 α) : Vec3 α where
  x := v.y * w.z - v.z * w.y
  y := v.z * w.x - v.x * w.z
  z := v.x * w.y - v.y * w.x

/-- The squared length. -/
def normSq [Add α] [Mul α] (v : Vec3 α) : α := v.dot v

/-- The vector times a factor. -/
def scale [Mul α] (k : α) (v : Vec3 α) : Vec3 α := v.map (k * ·)

instance [Add α] : Add (Vec3 α) := ⟨fun v w => ⟨v.x + w.x, v.y + w.y, v.z + w.z⟩⟩

instance [Sub α] : Sub (Vec3 α) := ⟨fun v w => ⟨v.x - w.x, v.y - w.y, v.z - w.z⟩⟩

instance [Neg α] : Neg (Vec3 α) := ⟨fun v => v.map (-·)⟩

end Vec3

/-- An input point: a direction given by three doubles. -/
abbrev Point := Vec3 Float

namespace Point

/-- Equality of coordinates: the two zeros are equal, and NaN differs from everything. -/
def same (p q : Point) : Bool := p.x == q.x && p.y == q.y && p.z == q.z

/-- Compares two coordinates; an unordered pair counts as equal. -/
def coordinateOrder (a b : Float) : Ordering := (Binary64.compare? a b).getD .eq

/-- The lexicographic order of the coordinates. -/
def lexOrder (p q : Point) : Ordering :=
  (coordinateOrder p.x q.x).then ((coordinateOrder p.y q.y).then (coordinateOrder p.z q.z))

/-- The point with its coordinates as scalars, exactly. -/
def lift (α : Type) [Scalar α] (p : Point) : Vec3 α := p.map Scalar.ofFloat

/-- The length. -/
def norm (p : Point) : Float := p.normSq.sqrt

/-- The point scaled to unit length; a point of length zero is unchanged. -/
def normalize (p : Point) : Point :=
  if p.norm == 0 then p else p.map (· / p.norm)

/-- Three points in lexicographic order, by exchanges of neighbours that leave equal points in
place, and whether the number of exchanges is odd. -/
def sort3 (a b c : Point) : (Point × Point × Point) × Bool :=
  let (a, b, odd₁) := exchange a b
  let (b, c, odd₂) := exchange b c
  let (a, b, odd₃) := exchange a b
  ((a, b, c), odd₁ ^^ odd₂ ^^ odd₃)
where
  exchange (p q : Point) : Point × Point × Bool :=
    if p.lexOrder q = .gt then (q, p, true) else (p, q, false)

end Point
end ExactSphere
