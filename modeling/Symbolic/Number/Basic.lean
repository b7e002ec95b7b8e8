import Symbolic.Number.Quantity

/-!
Numbers. A number is a quantity, and a NaN in it makes it an object that is equal to
nothing and the same as itself alone. Such numbers have an origin: they are given,
each under a label of its own, or they are computed. What is computed is new, so it lies
one step further from what is given than the numbers that it is computed from; numbers
that lie equally far are not told apart.
-/
namespace Symbolic

/-- Where a number that holds a NaN comes from. -/
inductive Number.Origin where
  | given (label : Nat)
  | computed (steps : Nat)
  deriving DecidableEq, Repr

/-- A number. If it holds a NaN it has an origin, and otherwise it has none. -/
inductive Number where
  | int (n : Int)
  | real (x : Float) (origin : Option Number.Origin) (marked : origin.isSome = (Number.Quantity.real x).hasNaN)
  | complex (z : Number.Complex) (origin : Option Number.Origin)
    (marked : origin.isSome = (Number.Quantity.complex z).hasNaN)
  deriving DecidableEq, Repr

namespace Number

def quantity : Number → Quantity
  | .int n => .int n
  | .real x _ _ => .real x
  | .complex z _ _ => .complex z

def origin? : Number → Option Origin
  | .int _ => none
  | .real _ o _ | .complex _ o _ => o

/-- The origin that a quantity needs. -/
def Origin.of (o : Origin) (q : Quantity) : Option Origin := if q.hasNaN then some o else none

theorem Origin.isSome_of (o : Origin) (q : Quantity) : (o.of q).isSome = q.hasNaN := by
  unfold Origin.of
  cases q.hasNaN <;> rfl

/-- The number that amounts to a quantity and comes from there. -/
def ofQuantity (o : Origin) : Quantity → Number
  | .int n => .int n
  | .real x => .real x (o.of (.real x)) (o.isSome_of _)
  | .complex z => .complex z (o.of (.complex z)) (o.isSome_of _)

@[simp] theorem quantity_ofQuantity (o : Origin) (q : Quantity) : (ofQuantity o q).quantity = q := by
  cases q <;> rfl

def ofFloat (x : Float) : Number := ofQuantity (.given 0) (.real x)

def ofComplex (z : Complex) : Number := ofQuantity (.given 0) (.complex z)

/-- How many steps a number lies from what is given. -/
def steps (a : Number) : Nat :=
  match a.origin? with
  | some (.computed n) => n
  | _ => 0

def compute (f : Quantity → Except Fault Quantity) (a : Number) : Except Fault Number :=
  (f a.quantity).map (ofQuantity (.computed (a.steps + 1)))

def combine (f : Quantity → Quantity → Except Fault Quantity) (a b : Number) : Except Fault Number :=
  (f a.quantity b.quantity).map (ofQuantity (.computed (max a.steps b.steps + 1)))

def denotation (a : Number) : Option Point × Option Point := a.quantity.denotation

def hasNaN (a : Number) : Bool := a.quantity.hasNaN

/-- Numbers that stand for the same thing; one that holds a NaN is the same as itself alone. Identical
numbers do, so only others need a look at what they stand for. -/
def same (a b : Number) : Bool := decide (a = b) || (!a.hasNaN && decide (a.denotation = b.denotation))

/-- What numbers that are the same have in common. -/
def identity (a : Number) : Number ⊕ Option Point × Option Point :=
  if a.hasNaN then .inl a else .inr a.denotation

theorem same_iff {a b : Number} : a.same b = true ↔ a.identity = b.identity := by
  have told : a.denotation = b.denotation → a.hasNaN = b.hasNaN := fun alike => by
    rw [hasNaN, hasNaN, Quantity.hasNaN, Quantity.hasNaN]
    exact congrArg (fun p : Option Point × Option Point => p.1.isNone || p.2.isNone) alike
  simp only [same, identity, Bool.or_eq_true, decide_eq_true_eq, Bool.and_eq_true, Bool.not_eq_true']
  constructor
  · rintro (rfl | ⟨definite, alike⟩)
    · rfl
    · rw [if_neg (by rw [definite]; decide), if_neg (by rw [← told alike, definite]; decide), alike]
  · cases a.hasNaN <;> cases b.hasNaN <;> simp +contextual

@[simp] theorem denotation_int (n : Int) : Number.denotation (.int n) = (some (.finite n), some (.finite 0)) := rfl

@[simp] theorem hasNaN_int (n : Int) : (Number.int n).hasNaN = false := rfl

@[simp] theorem same_int (m n : Int) : (Number.int m).same (.int n) = decide (m = n) := by
  simp [same]

/-- Numerical equality: a NaN equals nothing. -/
def equal (a b : Number) : Bool := a.same b && !a.hasNaN

def isZero (a : Number) : Bool := a.equal (.int 0)

def isOne (a : Number) : Bool := a.equal (.int 1)

def compare (r : Relation) (a b : Number) : Except Fault Bool := a.quantity.compare r b.quantity

def isComplex : Number → Bool
  | .complex .. => true
  | _ => false

theorem compare_eq (r : Relation) (a b : Number) : a.compare r b =
    if a.isComplex || b.isComplex then .error .unordered else .ok (r.points a.denotation.1 b.denotation.1) := by
  cases a <;> cases b <;> rfl

def add : Number → Number → Except Fault Number := combine Quantity.add

def mul : Number → Number → Except Fault Number := combine Quantity.mul

def neg (a : Number) : Number := ofQuantity (.computed (a.steps + 1)) a.quantity.neg

def abs : Number → Except Fault Number := compute Quantity.abs

def inverse : Number → Except Fault Number := compute Quantity.inverse

def pow : Number → Number → Except Fault Number := combine Quantity.pow

def collapse (a : Number) : Number :=
  match a.quantity.collapse with
  | .int n => .int n
  | _ => a

def sqrt : Number → Except Fault Number := compute Quantity.sqrt

def exp : Number → Except Fault Number := compute Quantity.exp

def expComplex : Number → Except Fault Number := compute Quantity.expComplex

def isPositive (a : Number) : Bool := a.quantity.isPositive

def log : Number → Except Fault Number := compute Quantity.log

def logComplex : Number → Except Fault Number := compute Quantity.logComplex

def logBase : Number → Number → Except Fault Number := combine Quantity.logBase

@[simp] theorem add_int (m n : Int) : (Number.int m).add (.int n) = .ok (.int (m + n)) := rfl

@[simp] theorem mul_int (m n : Int) : (Number.int m).mul (.int n) = .ok (.int (m * n)) := rfl

end Number
end Symbolic
