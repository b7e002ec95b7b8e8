import Symbolic.Number.Elementary

/-!
Complex numbers with binary64 parts: products, quotients, powers and logarithms by
fixed sequences of rounded operations, and the faults that they can end in.
-/
namespace Symbolic.Number

inductive Fault where
  /-- The result is too large for a binary64 number. -/
  | overflow
  | divisionByZero
  /-- The argument lies outside the domain of the function. -/
  | domain
  /-- Complex numbers have no order. -/
  | unordered
  deriving DecidableEq, Repr

structure Complex where
  re : Float
  im : Float
  deriving DecidableEq, Repr

namespace Complex

def one : Complex := ⟨1.0, 0.0⟩

def add (a b : Complex) : Complex := ⟨a.re + b.re, a.im + b.im⟩

def mul (a b : Complex) : Complex := ⟨a.re * b.re - a.im * b.im, a.re * b.im + a.im * b.re⟩

def neg (a : Complex) : Complex := ⟨-a.re, -a.im⟩

def isZero (a : Complex) : Bool := a.re == 0.0 && a.im == 0.0

def isInfinite (a : Complex) : Bool := a.re.isInf || a.im.isInf

/-- The quotient, computed by scaling with the larger part of the divisor. -/
def div (a b : Complex) : Except Fault Complex :=
  let br := if b.re < 0.0 then -b.re else b.re
  let bi := if b.im < 0.0 then -b.im else b.im
  if bi ≤ br then
    if br == 0.0 then .error .divisionByZero
    else
      let ratio := b.im / b.re
      let d := b.re + b.im * ratio
      .ok ⟨(a.re + a.im * ratio) / d, (a.im - a.re * ratio) / d⟩
  else if br ≤ bi then
    let ratio := b.re / b.im
    let d := b.re * ratio + b.im
    .ok ⟨(a.re * ratio + a.im) / d, (a.im * ratio - a.re) / d⟩
  else
    let nan := Float.ofBits 0x7ff8000000000000
    .ok ⟨nan, nan⟩

/-- Powers by repeated squaring: the bits of the exponent are consumed from the lowest. -/
def powNatLoop : Nat → Nat → Complex → Complex → Complex
  | 0, _, _, acc => acc
  | fuel + 1, n, p, acc =>
    if n = 0 then acc
    else powNatLoop fuel (n / 2) (mul p p) (if n % 2 = 1 then mul acc p else acc)

def powNat (a : Complex) (n : Nat) : Complex := powNatLoop (n.log2 + 1) n a one

/-- A whole power; a power that is not positive is the inverse of its opposite. -/
def powInt (a : Complex) (n : Int) : Except Fault Complex :=
  if 0 < n then .ok (a.powNat n.toNat) else div one (a.powNat (-n).toNat)

/-- A general power, through the polar form of the base. A phase without bound has no direction, and
zero has no power that is negative or not real. -/
def powPolar (a b : Complex) : Except Fault Complex :=
  if b.isZero then .ok one
  else if a.isZero then
    if b.im != 0.0 || b.re < 0.0 then .error .divisionByZero else .ok ⟨0.0, 0.0⟩
  else
    let modulus := hypot a.re a.im
    let angle := Float.atan2 a.im a.re
    let length := Float.pow modulus b.re
    let phase := angle * b.re
    let length := if b.im != 0.0 then length / Float.exp (angle * b.im) else length
    let phase := if b.im != 0.0 then phase + b.im * Float.log modulus else phase
    if phase.isInf then .error .divisionByZero
    else .ok ⟨length * Float.cos phase, length * Float.sin phase⟩

/-- The whole exponent of at most one hundred in size that a complex number stands for. -/
def smallWhole? (b : Complex) : Option Int :=
  if b.im == 0.0 then
    match whole? b.re with
    | some n => if n.natAbs ≤ 100 then some n else none
    | none => none
  else none

/-- `a` to the power `b`. An infinite part in the result is an overflow. -/
def pow (a b : Complex) : Except Fault Complex := do
  let r ← match b.smallWhole? with
    | some n => a.powInt n
    | none => a.powPolar b
  if r.isInfinite then .error .overflow else .ok r

/-- The absolute value; an infinite result for finite parts is an overflow. -/
def abs (a : Complex) : Except Fault Float :=
  let r := hypot a.re a.im
  if r.isInf && !a.isInfinite then .error .overflow else .ok r

/-- `2 ^ 1022`, a quarter of the range: larger parts are halved before their length is taken. -/
private def quarterRange : Float := Float.ofBits 0x7fcfffffffffffff

private def smallestNormal : Float := Float.ofBits 0x0010000000000000

private def ln2 : Float := Float.ofBits 0x3fe62e42fefa39ef

def log (z : Complex) : Except Fault Complex :=
  let angle := Float.atan2 z.im z.re
  if !(z.re.isFinite && z.im.isFinite) then
    if z.isInfinite then .ok ⟨Float.ofBits 0x7ff0000000000000, angle⟩
    else .ok ⟨Float.ofBits 0x7ff8000000000000, Float.ofBits 0x7ff8000000000000⟩
  else
    let ax := z.re.abs
    let ay := z.im.abs
    if quarterRange < ax || quarterRange < ay then
      .ok ⟨Float.log (hypot (ax / 2.0) (ay / 2.0)) + ln2, angle⟩
    else if ax < smallestNormal && ay < smallestNormal then
      if 0.0 < ax || 0.0 < ay then
        let up := Float.ofBits 0x4340000000000000
        .ok ⟨Float.log (hypot (ax * up) (ay * up)) - 53.0 * ln2, angle⟩
      else .error .domain
    else
      let h := hypot ax ay
      if 0.71 ≤ h && h ≤ 1.73 then
        let high := if ay < ax then ax else ay
        let low := if ay < ax then ay else ax
        .ok ⟨log1p ((high - 1.0) * (high + 1.0) + low * low) / 2.0, angle⟩
      else .ok ⟨Float.log h, angle⟩

end Complex
end Symbolic.Number
