/-!
The place of a binary64 number on the extended number line. A number that is not a
NaN stands for a rational or for one of the two infinities, so numbers of
different types are compared without rounding either of them.
-/
namespace Symbolic.Number

inductive Point where
  | negInfinity
  | finite (q : Rat)
  | infinity
  deriving DecidableEq, Repr, Inhabited

namespace Point

def lt : Point → Point → Bool
  | .negInfinity, .negInfinity => false
  | .negInfinity, _ => true
  | .finite _, .negInfinity => false
  | .finite a, .finite b => decide (a < b)
  | .finite _, .infinity => true
  | .infinity, _ => false

end Point

/-- The sign bit of a binary64 number; it tells `-0.0` from `0.0`. -/
def signBit (x : Float) : Bool := x.toBits >>> 63 == 1

def exponentField (x : Float) : Nat := ((x.toBits >>> 52) &&& 0x7ff).toNat

def fractionField (x : Float) : Nat := (x.toBits &&& 0xfffffffffffff).toNat

/-- A finite binary64 number is `± mantissa · 2 ^ exponent`. -/
structure Binary where
  negative : Bool
  mantissa : Nat
  exponent : Int
  deriving DecidableEq, Repr

/-- The parts of a finite number; `none` for an infinity or a NaN. -/
def binary? (x : Float) : Option Binary :=
  let e := exponentField x
  if e = 2047 then none
  else if e = 0 then some ⟨signBit x, fractionField x, -1074⟩
  else some ⟨signBit x, fractionField x + (1 <<< 52), (e : Int) - 1075⟩

/-- `m · 2 ^ e` as an exact rational. -/
def scaled (m : Int) (e : Int) : Rat :=
  if 0 ≤ e then ((m * (1 <<< e.toNat : Nat) : Int) : Rat) else mkRat m (1 <<< (-e).toNat)

/-- The point that a number stands for; a NaN stands for none. -/
def point? (x : Float) : Option Point :=
  match binary? x with
  | some b => some (.finite (scaled (if b.negative then -(b.mantissa : Int) else b.mantissa) b.exponent))
  | none =>
    if fractionField x = 0 then some (if signBit x then .negInfinity else .infinity) else none

/-- Whether the number is finite and has no fractional part; then its integer value. -/
def whole? (x : Float) : Option Int :=
  match point? x with
  | some (.finite q) => if q.den = 1 then some q.num else none
  | _ => none

/-- The integer nearest to zero of those between which a finite number lies. -/
def truncate? (x : Float) : Option Int :=
  match point? x with
  | some (.finite q) => some (q.num.tdiv q.den)
  | _ => none

/-- A whole number that two does not divide. -/
def isOddWhole (x : Float) : Bool :=
  match whole? x with
  | some n => n % 2 != 0
  | none => false

end Symbolic.Number
