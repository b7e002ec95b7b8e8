/-!
The binary64 number nearest to a ratio of naturals. A tie goes to the even
mantissa, a result beyond the largest number is an infinity, and small results
lose bits as the format prescribes.
-/
namespace Symbolic.Number

/-- The quotient rounded to the nearest natural, a tie going to the even one. -/
def roundDiv (n d : Nat) : Nat :=
  let q := n / d
  let r := n % d
  if 2 * r < d then q
  else if 2 * r > d then q + 1
  else if q % 2 = 0 then q else q + 1

/-- The exponent `e` for which `n / d` has a mantissa of fifty-three bits in units of `2 ^ e`. -/
def unitExponent (n d : Nat) : Int :=
  let e : Int := (n.log2 : Int) - (d.log2 : Int) - 53
  let fits (e : Int) : Bool :=
    if 0 ≤ e then decide (n < d <<< e.toNat <<< 53) else decide (n <<< (-e).toNat < d <<< 53)
  if fits e then e else e + 1

/-- The nearest binary64 number to `n / d`, for a positive `d`. -/
def nearest (n d : Nat) : Float :=
  if n = 0 then 0.0
  else
    let e := max (unitExponent n d) (-1074)
    let m := if 0 ≤ e then roundDiv n (d <<< e.toNat) else roundDiv (n <<< (-e).toNat) d
    if m < 1 <<< 52 then Float.ofBits m.toUInt64
    else
      let field : Int := e + 1075
      if field ≥ 2047 then Float.ofBits 0x7ff0000000000000
      else Float.ofBits (field.toNat <<< 52 + (m - 1 <<< 52)).toUInt64

end Symbolic.Number
