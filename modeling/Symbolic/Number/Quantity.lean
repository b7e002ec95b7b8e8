import Symbolic.Number.Complex
import Symbolic.Number.Nearest

/-!
Quantities: integers of any size, binary64 reals and complex numbers. Equality and
order are exact across the three kinds. An operation on mixed kinds first converts to
the wider kind; a conversion of an integer to a real can overflow.
-/
namespace Symbolic.Number

/-- What a number amounts to. -/
inductive Quantity where
  | int (n : Int)
  | real (x : Float)
  | complex (z : Complex)
  deriving DecidableEq, Repr

inductive Relation where
  | lt | le | gt | ge
  deriving DecidableEq, Repr

/-- Whether two places on the line, or two positions of any order, stand in the relation. -/
def Relation.ofOrdering : Relation → Ordering → Bool
  | .lt, o => o == .lt
  | .le, o => o != .gt
  | .gt, o => o == .gt
  | .ge, o => o != .lt

/-- The relation of two points; with a NaN no relation holds. -/
def Relation.points (r : Relation) : Option Point → Option Point → Bool
  | some a, some b => r.ofOrdering (if a.lt b then .lt else if b.lt a then .gt else .eq)
  | _, _ => false

namespace Quantity

/-- What a quantity stands for, as a point for its real and one for its imaginary part; a NaN part
stands for no point. -/
def denotation : Quantity → Option Point × Option Point
  | .int n => (some (.finite n), some (.finite 0))
  | .real x => (point? x, some (.finite 0))
  | .complex z => (point? z.re, point? z.im)

def hasNaN (a : Quantity) : Bool := a.denotation.1.isNone || a.denotation.2.isNone

/-- Compares two real numbers exactly; complex numbers have no order. -/
def compare (r : Relation) : Quantity → Quantity → Except Fault Bool
  | .complex _, _ => .error .unordered
  | _, .complex _ => .error .unordered
  | a, b => .ok (r.points a.denotation.1 b.denotation.1)

/-- The nearest binary64 number to an integer; one that is too large overflows. -/
def realOfInt (n : Int) : Except Fault Float :=
  let x := nearest n.natAbs 1
  if x.isInf then .error .overflow else .ok (if n < 0 then -x else x)

def toComplex : Quantity → Except Fault Complex
  | .int n => do return ⟨← realOfInt n, 0.0⟩
  | .real x => .ok ⟨x, 0.0⟩
  | .complex z => .ok z

def add : Quantity → Quantity → Except Fault Quantity
  | .int a, .int b => .ok (.int (a + b))
  | .int a, .real y => do return .real ((← realOfInt a) + y)
  | .real x, .int b => do return .real (x + (← realOfInt b))
  | .real x, .real y => .ok (.real (x + y))
  | a, b => do return .complex ((← a.toComplex).add (← b.toComplex))

def mul : Quantity → Quantity → Except Fault Quantity
  | .int a, .int b => .ok (.int (a * b))
  | .int a, .real y => do return .real ((← realOfInt a) * y)
  | .real x, .int b => do return .real (x * (← realOfInt b))
  | .real x, .real y => .ok (.real (x * y))
  | a, b => do return .complex ((← a.toComplex).mul (← b.toComplex))

def neg : Quantity → Quantity
  | .int a => .int (-a)
  | .real x => .real (-x)
  | .complex z => .complex z.neg

def abs : Quantity → Except Fault Quantity
  | .int a => .ok (.int a.natAbs)
  | .real x => .ok (.real x.abs)
  | .complex z => do return .real (← z.abs)

def inverse : Quantity → Except Fault Quantity
  | .int n =>
    if n = 0 then .error .divisionByZero
    else
      let x := nearest 1 n.natAbs
      .ok (.real (if n < 0 then -x else x))
  | .real x => if x == 0.0 then .error .divisionByZero else .ok (.real (1.0 / x))
  | .complex z => do return .complex (← Complex.one.div z)

/-- A zero with the sign of the given number. -/
private def zeroLike (x : Float) : Float := if signBit x then -0.0 else 0.0

/-- The power of two finite reals whose base is neither zero nor infinite. -/
private def powFinite (x y : Float) : Except Fault Quantity :=
  if x < 0.0 && (whole? y).isNone then do
    return .complex (← Complex.pow ⟨x, 0.0⟩ ⟨y, 0.0⟩)
  else
    let negative := x < 0.0 && isOddWhole y
    let base := if x < 0.0 then -x else x
    let r := if base == 1.0 then 1.0 else Float.pow base y
    if r.isInf then .error .overflow else .ok (.real (if negative then -r else r))

/-- A real power. A negative base with a fractional exponent has a complex result. -/
def powReal (x y : Float) : Except Fault Quantity :=
  if y == 0.0 then .ok (.real 1.0)
  else if x.isNaN then .ok (.real x)
  else if y.isNaN then .ok (.real (if x == 1.0 then 1.0 else y))
  else if y.isInf then
    if x.abs == 1.0 then .ok (.real 1.0)
    else if (0.0 < y) == (1.0 < x.abs) then .ok (.real y.abs)
    else .ok (.real 0.0)
  else if x.isInf then
    let odd := isOddWhole y
    if 0.0 < y then .ok (.real (if odd then x else x.abs))
    else .ok (.real (if odd then zeroLike x else 0.0))
  else if x == 0.0 then
    if y < 0.0 then .error .divisionByZero
    else .ok (.real (if isOddWhole y then x else 0.0))
  else powFinite x y

/-- An integer to a natural power. The powers of `0`, `1` and `-1` repeat, so those are told from the
parity of the exponent, however large it is. -/
def powInt (a : Int) (n : Nat) : Int :=
  if n = 0 then 1
  else if a.natAbs ≤ 1 then (if n % 2 = 0 then a * a else a)
  else Int.pow a n

/-- `a` to the power `b`: exact for integers with an exponent that is not negative. -/
def pow : Quantity → Quantity → Except Fault Quantity
  | .int a, .int b =>
    if 0 ≤ b then .ok (.int (powInt a b.toNat)) else do powReal (← realOfInt a) (← realOfInt b)
  | .int a, .real y => do powReal (← realOfInt a) y
  | .real x, .int b => do powReal x (← realOfInt b)
  | .real x, .real y => powReal x y
  | a, b => do return .complex (← (← a.toComplex).pow (← b.toComplex))

/-- A real that is a whole number becomes an integer. -/
def collapse : Quantity → Quantity
  | .real x => match whole? x with
    | some n => .int n
    | none => .real x
  | a => a

/-- The square root. A whole root is an integer, and a root of a number below zero is complex. -/
def sqrt (a : Quantity) : Except Fault Quantity := do
  if ← a.compare .ge (.int 0) then
    let r := Float.sqrt (← match a with
      | .int n => realOfInt n
      | .real x => .ok x
      | .complex _ => .error .unordered)
    if r.isInf then .error .overflow else return (Quantity.real r).collapse
  else return .complex (← (← a.toComplex).pow ⟨0.5, 0.0⟩)

def euler : Float := Float.ofBits 0x4005bf0a8b145769

/-- The exponential of a number taken as a complex one. -/
def expComplex (a : Quantity) : Except Fault Quantity := do
  return .complex (← Complex.pow ⟨euler, 0.0⟩ (← a.toComplex))

private def expReal (x : Float) : Except Fault Quantity :=
  let r := Float.exp x
  if r.isInf && x.isFinite then .error .overflow else .ok (.real r)

def exp : Quantity → Except Fault Quantity
  | .int n => do expReal (← realOfInt n)
  | .real x => expReal x
  | a => a.expComplex

/-- The logarithm of a positive integer of any size. -/
private def logNat (n : Nat) : Float :=
  let x := nearest n 1
  if x.isInf then
    let bits := n.log2 + 1
    let m := roundDiv n (1 <<< (bits - 53))
    if m = 1 <<< 53 then Float.log 0.5 + Float.log 2.0 * Float.ofNat (bits + 1)
    else Float.log (nearest m (1 <<< 53)) + Float.log 2.0 * Float.ofNat bits
  else Float.log x

def logReal : Quantity → Except Fault Float
  | .int n => .ok (logNat n.toNat)
  | .real x => .ok (Float.log x)
  | .complex _ => .error .unordered

/-- The principal logarithm of a number taken as a complex one. -/
def logComplex (a : Quantity) : Except Fault Quantity := do
  return .complex (← (← a.toComplex).log)

def isPositive (a : Quantity) : Bool :=
  match a.compare .gt (.int 0) with
  | .ok b => b
  | .error _ => false

/-- The natural logarithm: real for a positive number, else complex. -/
def log (a : Quantity) : Except Fault Quantity :=
  if a.isPositive then do return .real (← a.logReal) else a.logComplex

/-- The logarithm of a positive number to a positive base. -/
def logBase (base a : Quantity) : Except Fault Quantity := do
  let x ← a.logReal
  let y ← base.logReal
  if y == 0.0 then .error .divisionByZero else .ok (.real (x / y))

end Quantity
end Symbolic.Number
