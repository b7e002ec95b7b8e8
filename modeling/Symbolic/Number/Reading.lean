import Symbolic.Number.Notation
import Symbolic.Text.Character

/-!
Reading numbers. White space around a number is ignored, digits of every script count,
and an underscore may stand between two digits.
-/
namespace Symbolic.Number

open Symbolic.Text

/-- Replaces decimal digits of every script by the ASCII ones. -/
private def plainDigits (cs : List Char) : List Char :=
  cs.map fun c => match digitValue? c with
    | some d => Char.ofNat ('0'.toNat + d)
    | none => c

/-- Removes underscores that stand between two digits; `none` if one stands elsewhere. The flag
says whether the character before was a digit. -/
private def joinDigits : Bool → List Char → Option (List Char)
  | _, [] => some []
  | afterDigit, '_' :: rest =>
    match rest with
    | c :: _ => if afterDigit && c.isDigit then joinDigits false rest else none
    | [] => none
  | _, c :: rest => (joinDigits c.isDigit rest).map (c :: ·)

/-- The characters of a number: trimmed, in ASCII digits, without underscores. -/
private def numeral? (s : String) : Option (List Char) := joinDigits false (plainDigits (trimBlank s.toList))

/-- Takes a sign off the front; `true` for minus. -/
private def splitSign : List Char → Bool × List Char
  | '-' :: cs => (true, cs)
  | '+' :: cs => (false, cs)
  | cs => (false, cs)

private def digitsValue (cs : List Char) : Nat :=
  cs.foldl (fun n c => 10 * n + (c.toNat - '0'.toNat)) 0

def readInt? (s : String) : Option Int := do
  let (negative, cs) := splitSign (← numeral? s)
  if cs.isEmpty || !cs.all Char.isDigit || digitLimit < cs.length then none
  else
    let n : Int := digitsValue cs
    some (if negative then -n else n)

/-- `m · 10 ^ e`, rounded to the nearest binary64 number. Exponents far outside the range are cut
off before any power is computed. -/
def ofDecimal (m : Nat) (e : Int) : Float :=
  if m = 0 then 0.0
  else
    let size : Int := (m.log2 : Int) * 30103 / 100000 + e
    if size > 400 then Float.ofBits 0x7ff0000000000000
    else if size < -400 then 0.0
    else if 0 ≤ e then nearest (m * Nat.pow 10 e.toNat) 1
    else nearest m (Nat.pow 10 (-e).toNat)

/-- The exponent of a numeral: nothing, or a mark, an optional sign and digits. -/
private def readExponent? : List Char → Option Int
  | [] => some 0
  | c :: cs =>
    if c == 'e' || c == 'E' then
      let (negative, ds) := splitSign cs
      if ds.isEmpty || !ds.all Char.isDigit then none
      else
        let n : Int := digitsValue ds
        some (if negative then -n else n)
    else none

private def readMagnitude? (cs : List Char) : Option Float :=
  let word := String.ofList (cs.map Char.toLower)
  if word == "inf" || word == "infinity" then some (Float.ofBits 0x7ff0000000000000)
  else if word == "nan" then some (Float.ofBits 0x7ff8000000000000)
  else
    let whole := cs.takeWhile Char.isDigit
    let rest := cs.dropWhile Char.isDigit
    let (fraction, rest) := match rest with
      | '.' :: r => (r.takeWhile Char.isDigit, r.dropWhile Char.isDigit)
      | r => ([], r)
    if whole.isEmpty && fraction.isEmpty then none
    else do
      let e ← readExponent? rest
      some (ofDecimal (digitsValue (whole ++ fraction)) (e - (fraction.length : Int)))

def readReal? (s : String) : Option Float := do
  let (negative, cs) := splitSign (← numeral? s)
  let x ← readMagnitude? cs
  some (if negative then -x else x)

end Symbolic.Number
