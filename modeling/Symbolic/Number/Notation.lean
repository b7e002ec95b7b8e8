import Symbolic.Number.Basic
import Symbolic.Number.Shortest

/-!
The written form of numbers. A real is written with the fewest digits that read back
as the same number; a complex number is a sum with its imaginary part marked by `j`.
Integers have a text only up to a number of digits.
-/
namespace Symbolic.Number

structure Layout where
  /-- Decimal exponents from `lowest` up to but not including `highest` are written positionally. -/
  lowest : Int
  highest : Int
  /-- What follows a whole number that is written positionally. -/
  wholeSuffix : String

/-- Reals on their own keep `.0` on whole numbers. -/
def Layout.standard : Layout := ⟨-4, 16, ".0"⟩

/-- The parts of a complex number are written without it. -/
def Layout.part : Layout := ⟨-4, 16, ""⟩

def zeros (n : Nat) : String := String.ofList (List.replicate n '0')

/-- The exponent mark, a sign and at least two digits. -/
def exponentText (e : Int) : String :=
  let ds := Nat.repr e.natAbs
  "e" ++ (if e < 0 then "-" else "+") ++ (if ds.length < 2 then "0" ++ ds else ds)

/-- Lays out a decimal whose digits do not end in zero. -/
def Layout.decimal (l : Layout) (d : Decimal) : String :=
  let ds := Nat.repr d.digits
  let e : Int := d.exponent + (ds.length : Int) - 1
  if l.lowest ≤ e ∧ e < l.highest then
    if 0 ≤ d.exponent then ds ++ zeros d.exponent.toNat ++ l.wholeSuffix
    else if e < 0 then "0." ++ zeros (-e - 1).toNat ++ ds
    else String.ofList (ds.toList.take (e + 1).toNat) ++ "." ++ String.ofList (ds.toList.drop (e + 1).toNat)
  else
    let head := String.ofList (ds.toList.take 1)
    let tail := String.ofList (ds.toList.drop 1)
    head ++ (if tail.isEmpty then "" else "." ++ tail) ++ exponentText e

def Layout.magnitude (l : Layout) (x : Float) : String :=
  match binary? x with
  | some b => if b.mantissa = 0 then "0" ++ l.wholeSuffix else l.decimal (shortest b.mantissa b.exponent)
  | none => if fractionField x = 0 then "inf" else "nan"

def Layout.real (l : Layout) (x : Float) : String :=
  (if signBit x && !x.isNaN then "-" else "") ++ l.magnitude x

def realText (x : Float) : String := Layout.standard.real x

/-- A complex number: the real part is left out only when it is the positive zero. -/
def Complex.text (z : Complex) : String :=
  if z.re == 0.0 && !signBit z.re then Layout.part.real z.im ++ "j"
  else
    let sign := if signBit z.im && !z.im.isNaN then "-" else "+"
    "(" ++ Layout.part.real z.re ++ sign ++ Layout.part.magnitude z.im ++ "j)"

/-- The most digits of an integer that is written or read. -/
def digitLimit : Nat := 4300

def isWritable : Number → Bool
  | .int n => decide (n.natAbs < Nat.pow 10 digitLimit)
  | _ => true

def intText (n : Int) : String := if n < 0 then "-" ++ Nat.repr n.natAbs else Nat.repr n.natAbs

def text : Number → String
  | .int n => intText n
  | .real x _ _ => realText x
  | .complex z _ _ => z.text

end Symbolic.Number
