import Symbolic.Number.Point

/-!
The shortest decimal that reads back as a given binary64 number. The reals that
round to the number form an interval; for one, two, … digits the two neighbours
of the number on the decimal grid are tried, and the first grid with a neighbour in
the interval wins, the closer neighbour if both lie in it.
-/
namespace Symbolic.Number

/-- A decimal `digits · 10 ^ exponent`. -/
structure Decimal where
  digits : Nat
  exponent : Int
  deriving DecidableEq, Repr

/-- The reals that round to one binary64 number, as three numerators over one denominator. -/
structure Interval where
  low : Nat
  value : Nat
  high : Nat
  denominator : Nat
  closed : Bool
  deriving Repr

/-- The interval of `mantissa · 2 ^ exponent`; its ends belong to it when the mantissa is even. The
gap below a power of two is half the gap above it, except at the smallest exponent. -/
def Interval.ofBinary (mantissa : Nat) (exponent : Int) : Interval :=
  let below := if mantissa = 1 <<< 52 ∧ exponent > -1074 then 1 else 2
  let up := if 2 ≤ exponent then 1 <<< (exponent - 2).toNat else 1
  let down := if 2 ≤ exponent then 1 else 1 <<< (2 - exponent).toNat
  { low := (4 * mantissa - below) * up
    value := 4 * mantissa * up
    high := (4 * mantissa + 2) * up
    denominator := down
    closed := mantissa % 2 = 0 }

namespace Interval

/-- Compares the middle value with `10 ^ k`. -/
def belowPower (i : Interval) (k : Int) : Bool :=
  if 0 ≤ k then decide (i.value < Nat.pow 10 k.toNat * i.denominator)
  else decide (i.value * Nat.pow 10 (-k).toNat < i.denominator)

/-- The least `k` with the middle value below `10 ^ k`, estimated from its binary logarithm. -/
def magnitude (i : Interval) : Int :=
  let bits : Int := (i.value.log2 : Int) - (i.denominator.log2 : Int)
  let estimate := (bits * 30103).fdiv 100000
  if i.belowPower estimate then estimate
  else if i.belowPower (estimate + 1) then estimate + 1
  else estimate + 2

/-- Whether `c / unit` lies in the interval whose numerators are scaled by `factor`. -/
def holds (i : Interval) (factor unit c : Nat) : Bool :=
  let x := c * unit
  if i.closed then i.low * factor ≤ x && x ≤ i.high * factor
  else i.low * factor < x && x < i.high * factor

/-- The neighbour of the middle value on the grid `10 ^ k` that lies in the interval, if any. -/
def onGrid (i : Interval) (k : Int) : Option Nat :=
  let factor := if 0 ≤ k then 1 else Nat.pow 10 (-k).toNat
  let unit := if 0 ≤ k then Nat.pow 10 k.toNat * i.denominator else i.denominator
  let c := i.value * factor / unit
  match i.holds factor unit c, i.holds factor unit (c + 1) with
  | false, false => none
  | true, false => some c
  | false, true => some (c + 1)
  | true, true =>
    let twice := 2 * i.value * factor
    let middle := (2 * c + 1) * unit
    if twice < middle then some c
    else if middle < twice then some (c + 1)
    else some (if c % 2 = 0 then c else c + 1)

/-- The first decimal found with at least `n` and at most `n + fuel` digits. -/
def search (i : Interval) (k : Int) : Nat → Nat → Option Decimal
  | 0, _ => none
  | fuel + 1, n =>
    match i.onGrid (k - n) with
    | some c => some ⟨c, k - n⟩
    | none => i.search k fuel (n + 1)

end Interval

/-- Moves trailing zeros of the digits into the exponent. -/
def Decimal.strip : Nat → Decimal → Decimal
  | 0, d => d
  | fuel + 1, d =>
    if d.digits ≠ 0 ∧ d.digits % 10 = 0 then Decimal.strip fuel ⟨d.digits / 10, d.exponent + 1⟩ else d

/-- The shortest decimal of a positive finite number `mantissa · 2 ^ exponent`. -/
def shortest (mantissa : Nat) (exponent : Int) : Decimal :=
  let i := Interval.ofBinary mantissa exponent
  match i.search i.magnitude 17 1 with
  | some d => d.strip 20
  | none =>
    if 0 ≤ exponent then ⟨mantissa <<< exponent.toNat, 0⟩
    else ⟨mantissa * Nat.pow 5 (-exponent).toNat, exponent⟩

end Symbolic.Number
