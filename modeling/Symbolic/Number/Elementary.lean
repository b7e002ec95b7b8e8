import Symbolic.Number.Point

/-!
Elementary functions of binary64 numbers that the core library does not have: the
length of a vector and the logarithm near one. Both are evaluated by fixed
sequences of rounded operations.
-/
namespace Symbolic.Number

/-- The absolute value of the larger and of the smaller of two numbers. -/
private def hypotCore (ax ay : Float) : Float :=
  let h := Float.sqrt (ax * ax + ay * ay)
  if h ≤ 2.0 * ay then
    let delta := h - ay
    let t₁ := ax * (2.0 * delta - ax)
    let t₂ := (delta - 2.0 * (ax - ay)) * delta
    h - (t₁ + t₂) / (2.0 * h)
  else
    let delta := h - ax
    let t₁ := 2.0 * delta * (ax - 2.0 * ay)
    let t₂ := (4.0 * delta - ay) * ay + delta * delta
    h - (t₁ + t₂) / (2.0 * h)

/-- `2 ^ 511`: squares of larger numbers would overflow. -/
private def hugeLength : Float := Float.ofBits 0x5fe0000000000000

/-- `2 ^ -459`: squares of smaller numbers would lose bits. -/
private def tinyLength : Float := Float.ofBits 0x2340000000000000

/-- `2 ^ -54`: a smaller side does not change the length. -/
private def negligible : Float := Float.ofBits 0x3c90000000000000

/-- `2 ^ -600`, the scale that keeps squares in range. -/
private def lengthScale : Float := Float.ofBits 0x1a70000000000000

/-- The length of the vector `(x, y)`, without overflow or underflow on the way. -/
def hypot (x y : Float) : Float :=
  if x.isInf || y.isInf then Float.ofBits 0x7ff0000000000000
  else if x.isNaN || y.isNaN then x + y
  else
    let x := x.abs
    let y := y.abs
    let ax := if x < y then y else x
    let ay := if x < y then x else y
    if hugeLength < ax then
      if ay ≤ ax * negligible then ax + ay
      else hypotCore (ax * lengthScale) (ay * lengthScale) / lengthScale
    else if ay < tinyLength then
      if ay / negligible ≤ ax then ax + ay
      else hypotCore (ax / lengthScale) (ay / lengthScale) * lengthScale
    else if ay ≤ ax * negligible then ax + ay
    else hypotCore ax ay

private def upperWord (x : Float) : Nat := (x.toBits >>> 32).toNat

private def withUpperWord (x : Float) (w : Nat) : Float :=
  Float.ofBits ((x.toBits &&& (0xffffffff : UInt64)) ||| (w.toUInt64 <<< 32))

private def ln2High : Float := Float.ofBits 0x3fe62e42fee00000
private def ln2Low : Float := Float.ofBits 0x3dea39ef35793c76

/-- `1 + x` as a mantissa near one, a binary exponent, the rounding error of the sum relative to
it, and the distance of the mantissa from a power of two in units of the upper word. -/
private structure OnePlus where
  fraction : Float
  exponent : Int
  correction : Float
  distance : Nat

private def splitOnePlus (x : Float) : OnePlus :=
  let large := upperWord x ≥ 0x43400000 && !signBit x
  let u := if large then x else 1.0 + x
  let k : Int := ((upperWord u / 0x100000 : Nat) : Int) - 1023
  let c :=
    if large then 0.0
    else if 0 < k then (1.0 - (u - x)) / u
    else (x - (u - 1.0)) / u
  let w := upperWord u % 0x100000
  if w < 0x6a09e then ⟨withUpperWord u (w + 0x3ff00000) - 1.0, k, c, w⟩
  else ⟨withUpperWord u (w + 0x3fe00000) - 1.0, k + 1, c, (0x100000 - w) / 4⟩

/-- The logarithm of `1 + fraction` and of the power of two beside it. -/
private def logOfSplit (s : OnePlus) : Float :=
  let f := s.fraction
  let k := Float.ofInt s.exponent
  let half := 0.5 * f * f
  if s.distance = 0 then
    if f == 0.0 then
      if s.exponent = 0 then 0.0 else k * ln2High + (s.correction + k * ln2Low)
    else
      let r := half * (1.0 - 0.66666666666666666 * f)
      if s.exponent = 0 then f - r else k * ln2High - ((r - (k * ln2Low + s.correction)) - f)
  else
    let q := f / (2.0 + f)
    let z := q * q
    let z2 := z * z
    let r1 := z * Float.ofBits 0x3fe5555555555593
    let r2 := Float.ofBits 0x3fd999999997fa04 + z * Float.ofBits 0x3fd2492494229359
    let z4 := z2 * z2
    let r3 := Float.ofBits 0x3fcc71c51d8e78af + z * Float.ofBits 0x3fc7466496cb03de
    let z6 := z4 * z2
    let r4 := Float.ofBits 0x3fc39a09d078c69f + z * Float.ofBits 0x3fc2f112df3e5244
    let r := r1 + z2 * r2 + z4 * r3 + z6 * r4
    if s.exponent = 0 then f - (half - q * (half + r))
    else k * ln2High - ((half - (q * (half + r) + (k * ln2Low + s.correction))) - f)

/-- The logarithm of `1 + x`, accurate also for small `x`. -/
def log1p (x : Float) : Float :=
  let size := upperWord x.abs
  let positive := !signBit x
  if x.isNaN then x
  else if !positive && size ≥ 0x3ff00000 then
    if x == -1.0 then Float.ofBits 0xfff0000000000000 else Float.ofBits 0x7ff8000000000000
  else if size < 0x3e200000 then
    if size < 0x3c900000 then x else x - x * x * 0.5
  else if size ≥ 0x7ff00000 then x
  else if (positive && size < 0x3fda827a) || (!positive && size ≤ 0x3fd2bec3) then
    logOfSplit ⟨x, 0, 0.0, 1⟩
  else logOfSplit (splitOnePlus x)

end Symbolic.Number
