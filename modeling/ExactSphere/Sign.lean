/-!
Signs of exact quantities, with the algebra the predicates need: negation, product, and the
correspondence with the outcomes of a comparison.
-/

namespace ExactSphere

/-- The sign of a real quantity. -/
inductive Sign where
  | negative
  | zero
  | positive
  deriving DecidableEq, Inhabited

namespace Sign

/-- The sign of an integer. -/
def ofInt (k : Int) : Sign :=
  if k < 0 then negative else if k = 0 then zero else positive

/-- The integer `-1`, `0` or `1` of this sign. -/
def toInt : Sign → Int
  | negative => -1
  | zero => 0
  | positive => 1

/-- The sign of `a - b`, given how `a` compares with `b`. -/
def ofOrdering : Ordering → Sign
  | .lt => negative
  | .eq => zero
  | .gt => positive

/-- How a quantity of this sign compares with zero. -/
def toOrdering : Sign → Ordering
  | negative => .lt
  | zero => .eq
  | positive => .gt

/-- Whether the quantity is zero. -/
def isZero : Sign → Bool
  | zero => true
  | _ => false

/-- The sign of a negated quantity. -/
def neg : Sign → Sign
  | negative => positive
  | zero => zero
  | positive => negative

instance : Neg Sign := ⟨neg⟩

/-- The sign of a product. -/
def mul : Sign → Sign → Sign
  | zero, _ => zero
  | positive, t => t
  | negative, t => t.neg

instance : Mul Sign := ⟨mul⟩

/-- Signs in increasing order: negative, zero, positive. -/
def order : Sign → Sign → Ordering
  | negative, negative => .eq
  | negative, _ => .lt
  | zero, negative => .gt
  | zero, zero => .eq
  | zero, positive => .lt
  | positive, positive => .eq
  | positive, _ => .gt

/-- The first sign of a list that is not zero. -/
def firstNonzero? (signs : List Sign) : Option Sign :=
  signs.find? (!·.isZero)

@[simp] theorem ofInt_toInt (s : Sign) : ofInt s.toInt = s := by cases s <;> rfl

@[simp] theorem toInt_ofInt (k : Int) : (ofInt k).toInt = k.sign := by
  unfold ofInt
  split
  next h => exact (Int.sign_eq_neg_one_of_neg h).symm
  next h =>
    split
    next h0 => simp [h0, toInt]
    next h0 => exact (Int.sign_eq_one_of_pos (by omega)).symm

@[simp] theorem toInt_neg (s : Sign) : (-s).toInt = -s.toInt := by cases s <;> rfl

@[simp] theorem toInt_mul (s t : Sign) : (s * t).toInt = s.toInt * t.toInt := by
  cases s <;> cases t <;> rfl

@[simp] theorem neg_neg (s : Sign) : - -s = s := by cases s <;> rfl

@[simp] theorem toOrdering_ofOrdering (o : Ordering) : (ofOrdering o).toOrdering = o := by
  cases o <;> rfl

@[simp] theorem ofOrdering_toOrdering (s : Sign) : ofOrdering s.toOrdering = s := by
  cases s <;> rfl

end Sign
end ExactSphere
