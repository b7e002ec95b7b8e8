import Mathlib
import Symbolic.Proofs.NumericFaults

/-!
Products with one. Most numbers stay the same: the product of a binary64 number and `1.0` is exact (`float_one_mul`). A
complex number is multiplied with `1 + 0i` part by part, and zero times an infinite part is a NaN. A product that holds
a NaN is a new object each time, so a number with such a product never comes to rest (`not_same_once`).
-/
namespace Symbolic.Number

open Float.Model Float.Model.UnpackedFloat

/-! ### Binary64 numbers -/

/-- The sign, mantissa and exponent of a number, or what else it is. -/
abbrev parts (x : Float) : UnpackedFloat := x.toModel.unpack

/-- The number that has these parts. -/
abbrev ofParts (u : UnpackedFloat) : Float := .ofModel (.pack u)

theorem ofParts_parts (x : Float) : ofParts (parts x) = x := Float.ofBits_toBits x

/-- The two zeros. -/
def signedZeros : List Float := [0.0, -0.0]

/-- The bits of the numbers that are written out here, and what these numbers are. -/
theorem bits_of_constants : (1.0 : Float).toModel.toBits = 0x3ff0000000000000 ∧ (0.0 : Float).toModel.toBits = 0 ∧
    (-0.0 : Float).toModel.toBits = 0x8000000000000000 ∧ Float.nan.toModel.toBits = 0x7ff8000000000000 ∧
    ofParts .notANumber = Float.nan ∧ ofParts (.zero .positive) = 0.0 ∧ ofParts (.zero .negative) = -0.0 := by
  decide +kernel

theorem points_of_constants : (∀ x ∈ signedZeros, point? x = some (.finite 0)) ∧ point? Float.nan = none ∧
    point? (ofParts (.infinity .positive)) = some .infinity ∧
    point? (ofParts (.infinity .negative)) = some .negInfinity := by
  decide +kernel

theorem parts_one : parts 1.0 = .finite .positive (2 ^ 52) (-52) (by decide) := by
  rw [parts, Float.Model.unpack, bits_of_constants.1]
  rfl

theorem parts_zero : parts 0.0 = .zero .positive := by
  rw [parts, Float.Model.unpack, bits_of_constants.2.1]
  rfl

theorem parts_negative_zero : parts (-0.0) = .zero .negative := by
  rw [parts, Float.Model.unpack, bits_of_constants.2.2.1]
  rfl

theorem parts_nan : parts Float.nan = .notANumber := by
  rw [parts, Float.Model.unpack, bits_of_constants.2.2.2.1]
  rfl

theorem ofParts_nan : ofParts .notANumber = Float.nan := bits_of_constants.2.2.2.2.1

theorem point_nan : point? Float.nan = none := points_of_constants.2.1

theorem targetExponent_binary64 (t : Int) : Format.binary64.targetExponent t = max (t - 53) (-1074) := rfl

theorem targetExponent_parts {x : Float} {s : Sign} {m : Nat} {e : Int} {positive : 0 < m}
    (finite : parts x = .finite s m e positive) : Format.binary64.targetExponent (totalExponent m e) = e := by
  rw [targetExponent_binary64, totalExponent]
  rw [parts, Float.Model.unpack, UnpackedFloat.unpack] at finite
  have bias : Format.binary64.exponentBias = 1023 := by decide
  generalize x.toModel.toBits.toBitVec = b at finite
  have bound : (@unpackMantissa .binary64 b).toNat < 2 ^ 52 := BitVec.isLt _
  split at finite
  · split at finite <;> cases finite
  · split at finite
    · next least =>
      split at finite
      · cases finite
      · -- The mantissa of a subnormal number is short, and its exponent is the least one.
        obtain ⟨-, rfl, rfl⟩ := UnpackedFloat.finite.inj finite
        have short : (@unpackMantissa .binary64 b).toNat.log2 < 52 := (Nat.log2_lt positive.ne').2 bound
        rw [least, bias]
        simp only [BitVec.toNat_ofNat, Nat.zero_mod]
        omega
    · next above =>
      obtain ⟨-, rfl, rfl⟩ := UnpackedFloat.finite.inj finite
      have value : (1#1 ++ @unpackMantissa .binary64 b).toNat =
          2 ^ 52 + (@unpackMantissa .binary64 b).toNat := by
        rw [BitVec.toNat_append, ← Nat.shiftLeft_add_eq_or_of_lt bound]
        rfl
      have full : (1#1 ++ @unpackMantissa .binary64 b).toNat.log2 = 52 := by
        refine (Nat.log2_eq_iff positive.ne').2 ⟨?_, ?_⟩
        · omega
        · omega
      have used : (@unpackExponent .binary64 b).toNat ≠ 0 := fun none => above (BitVec.eq_of_toNat_eq none)
      rw [full, bias]
      show max ((52 : Int) + 1 + (_ - (1023 + 52)) - 53) (-1074) = _ - (1023 + 52)
      omega

theorem shiftRight_exact (m n : Nat) : (⟨2 ^ n * m, false, false⟩ : ExtendedMantissa) >>> n = ⟨m, false, false⟩ := by
  show n.repeat ExtendedMantissa.shiftRightOne _ = _
  induction n generalizing m with
  | zero => simp [Nat.repeat]
  | succ n ih =>
    have doubled : 2 ^ (n + 1) * m = 2 ^ n * (2 * m) := by ring
    rw [Nat.repeat, doubled, ih, ExtendedMantissa.shiftRightOne]
    simp

theorem float_one_mul (x : Float) : 1.0 * x = x := by
  have product : 1.0 * x = ofParts (UnpackedFloat.mul Format.binary64 (parts 1.0) (parts x)) := rfl
  rw [product, parts_one]
  conv_rhs => rw [← ofParts_parts x]
  congr 2
  cases shape : parts x with
  | notANumber => rfl
  | infinity s => cases s <;> rfl
  | zero s => cases s <;> rfl
  | finite s m e positive =>
    have target := targetExponent_parts shape
    have wanted : Format.binary64.targetExponent (totalExponent (2 ^ 52 * m) (-52 + e)) = e := by
      have longer : (2 ^ 52 * m).log2 = m.log2 + 52 := by
        have low := Nat.log2_self_le positive.ne'
        have high := Nat.lt_log2_self (n := m)
        refine (Nat.log2_eq_iff (by omega)).2 ⟨?_, ?_⟩
        · rw [Nat.pow_add]
          omega
        · rw [show m.log2 + 52 + 1 = m.log2 + 1 + 52 by omega, Nat.pow_add]
          omega
      have same : totalExponent (2 ^ 52 * m) (-52 + e) = totalExponent m e := by
        rw [totalExponent, totalExponent, longer]
        omega
      rw [same, target]
    have sign : Sign.positive * s = s := by cases s <;> rfl
    have shift : (e - (-52 + e)).toNat = 52 := by omega
    simp only [UnpackedFloat.mul, roundWithAccuracy, shiftToTargetExponent, shiftToExponent, wanted, shift, sign,
      ExtendedMantissa.ofMantissaAndAccuracy, shiftRight_exact, ExtendedMantissa.roundedMantissa,
      ExtendedMantissa.accuracy, Accuracy.roundToNearestEven]
    have back : -52 + e + ((52 : Nat) : Int) = e := by omega
    have stays : (⟨m, false, false⟩ : ExtendedMantissa) >>> 0 = ⟨m, false, false⟩ := rfl
    simp only [back, target, sub_self, Int.toNat_zero, stays, Nat.cast_zero, add_zero]
    exact dif_neg positive.ne'

/-- A number is one of the two zeros. -/
def Vanishes (x : Float) : Prop := x ∈ signedZeros

theorem vanishes_iff {x : Float} : Vanishes x ↔ x = 0.0 ∨ x = -0.0 := by
  simp [Vanishes, signedZeros]

theorem ofParts_zero (s : Sign) : Vanishes (ofParts (.zero s)) := by
  obtain ⟨-, -, -, -, -, positive, negative⟩ := bits_of_constants
  cases s with
  | positive => exact vanishes_iff.2 (.inl positive)
  | negative => exact vanishes_iff.2 (.inr negative)

theorem parts_of_vanishes {x : Float} (vanishes : Vanishes x) : ∃ s, parts x = .zero s := by
  rcases vanishes_iff.1 vanishes with rfl | rfl
  · exact ⟨_, parts_zero⟩
  · exact ⟨_, parts_negative_zero⟩

theorem point_of_vanishes {x : Float} (vanishes : Vanishes x) : point? x = some (.finite 0) :=
  points_of_constants.1 x vanishes

/-- Zero times a finite number is zero; zero times an infinity or a NaN is a NaN. -/
theorem float_zero_mul (x : Float) :
    Vanishes (0.0 * x) ∨ 0.0 * x = Float.nan ∧ ∀ q, point? x ≠ some (.finite q) := by
  have product : 0.0 * x = ofParts (UnpackedFloat.mul Format.binary64 (parts 0.0) (parts x)) := rfl
  rw [product, parts_zero]
  have same := ofParts_parts x
  cases shape : parts x with
  | zero s => exact .inl (ofParts_zero _)
  | finite s m e positive => exact .inl (ofParts_zero _)
  | notANumber =>
    rw [shape, ofParts_nan] at same
    refine .inr ⟨ofParts_nan, fun q => ?_⟩
    rw [← same, point_nan]
    exact Option.some_ne_none _ |>.symm
  | infinity s =>
    refine .inr ⟨ofParts_nan, fun q => ?_⟩
    rw [shape] at same
    have far : point? (ofParts (.infinity s)) = some .infinity ∨
        point? (ofParts (.infinity s)) = some .negInfinity := by
      cases s with
      | positive => exact .inl points_of_constants.2.2.1
      | negative => exact .inr points_of_constants.2.2.2
    rw [← same]
    rcases far with up | down
    · simp [up]
    · simp [down]

theorem float_add_nan (x : Float) : x + Float.nan = Float.nan := by
  have sum : x + Float.nan = ofParts (UnpackedFloat.add Format.binary64 (parts x) (parts Float.nan)) := rfl
  rw [sum, parts_nan]
  cases parts x <;> exact ofParts_nan

theorem float_sub_nan (x : Float) : x - Float.nan = Float.nan := by
  have difference : x - Float.nan = ofParts (UnpackedFloat.sub Format.binary64 (parts x) (parts Float.nan)) := rfl
  rw [difference, parts_nan]
  cases parts x <;> exact ofParts_nan

/-- What makes a zero of a zero and leaves all else as it is does not move a number. -/
theorem point_ofParts {x : Float} {f : UnpackedFloat → UnpackedFloat}
    (zeros : ∀ t, Vanishes (ofParts (f (.zero t)))) (others : ∀ p, (∀ t, p ≠ .zero t) → f p = p) :
    point? (ofParts (f (parts x))) = point? x := by
  have same := ofParts_parts x
  cases shape : parts x with
  | zero t =>
    rw [shape] at same
    rw [point_of_vanishes (zeros t), ← same, point_of_vanishes (ofParts_zero t)]
  | notANumber | infinity t | finite t m e positive =>
    rw [shape] at same
    rw [others _ (by simp), same]

/-- To add or subtract a zero does not move a number, though it can change the sign of a zero. -/
theorem point_add_zero {x y : Float} (vanishes : Vanishes y) : point? (x + y) = point? x ∧ point? (x - y) = point? x := by
  obtain ⟨s, zero⟩ := parts_of_vanishes vanishes
  have sum : x + y = ofParts (UnpackedFloat.add Format.binary64 (parts x) (parts y)) := rfl
  have difference : x - y = ofParts (UnpackedFloat.sub Format.binary64 (parts x) (parts y)) := rfl
  rw [sum, difference, zero]
  refine ⟨point_ofParts (f := fun p => .add Format.binary64 p (.zero s)) (fun t => ?_) fun p other => ?_,
    point_ofParts (f := fun p => .sub Format.binary64 p (.zero s)) (fun t => ?_) fun p other => ?_⟩
  all_goals first
    | cases s <;> cases t <;> exact ofParts_zero _
    | cases p with
      | zero t => exact (other t rfl).elim
      | _ => rfl

theorem scaled_eq_zero {m e : Int} : scaled m e = 0 ↔ m = 0 := by
  unfold scaled
  split
  · rw [Int.cast_eq_zero, mul_eq_zero, or_iff_left]
    rw [Nat.one_shiftLeft]
    positivity
  · rw [Rat.mkRat_eq_zero]
    rw [Nat.one_shiftLeft]
    positivity

theorem vanishes_of_point {x : Float} (zero : point? x = some (.finite 0)) : Vanishes x := by
  have fields : exponentField x = 0 ∧ fractionField x = 0 := by
    unfold point? binary? at zero
    by_cases infinite : exponentField x = 2047
    · rw [if_pos infinite] at zero
      simp only at zero
      split at zero
      · split at zero <;> cases zero
      · cases zero
    rw [if_neg infinite] at zero
    by_cases least : exponentField x = 0
    · rw [if_pos least] at zero
      refine ⟨least, ?_⟩
      simp only [Option.some.injEq, Point.finite.injEq, scaled_eq_zero] at zero
      split at zero <;> omega
    · rw [if_neg least] at zero
      simp only [Option.some.injEq, Point.finite.injEq, scaled_eq_zero] at zero
      exfalso
      split at zero <;> omega
  have bits : x.toBits.toNat = 0 ∨ x.toBits.toNat = 2 ^ 63 := by
    obtain ⟨exponent, fraction⟩ := fields
    have bound := x.toBits.toNat_lt
    rw [exponentField, UInt64.toNat_and, UInt64.toNat_shiftRight] at exponent
    rw [fractionField, UInt64.toNat_and] at fraction
    change (x.toBits.toNat >>> 52) &&& (2 ^ 11 - 1) = 0 at exponent
    change x.toBits.toNat &&& (2 ^ 52 - 1) = 0 at fraction
    rw [Nat.and_two_pow_sub_one_eq_mod, Nat.shiftRight_eq_div_pow] at exponent
    rw [Nat.and_two_pow_sub_one_eq_mod] at fraction
    omega
  rcases bits with none | sign
  · exact vanishes_iff.2 (.inl (Float.toBits_inj.1 (UInt64.toNat_inj.1 none)))
  · exact vanishes_iff.2 (.inr (Float.toBits_inj.1 (UInt64.toNat_inj.1 sign)))

/-- A quantity multiplied with one. -/
def Quantity.once : Quantity → Quantity
  | .complex z => .complex (Complex.one.mul z)
  | q => q

theorem Quantity.mul_one_eq (q : Quantity) : Quantity.mul (.int 1) q = .ok q.once := by
  have unit : realOfInt 1 = .ok 1.0 := by decide +kernel
  cases q with
  | int a =>
    show Except.ok (Quantity.int (1 * a)) = .ok (.int a)
    rw [Int.one_mul]
  | real y =>
    have product : Quantity.mul (.int 1) (.real y) = .ok (.real (1.0 * y)) := by
      simp only [Quantity.mul, unit]
      rfl
    rw [product, float_one_mul]
    rfl
  | complex z =>
    simp only [Quantity.mul, toComplex, unit]
    rfl

/-- A product with one does not move a quantity, or it puts a NaN into one that was no whole number. -/
theorem Quantity.once_cases (q : Quantity) : q.once.denotation = q.denotation ∨
    q.once.hasNaN = true ∧ ∀ k : Int, q.denotation ≠ Quantity.denotation (.int k) := by
  match q with
  | .int _ | .real _ => exact .inl rfl
  | .complex ⟨re, im⟩ =>
    have product : Quantity.once (.complex ⟨re, im⟩) = .complex ⟨re - 0.0 * im, im + 0.0 * re⟩ := by
      show Quantity.complex ⟨1.0 * re - 0.0 * im, 1.0 * im + 0.0 * re⟩ = _
      rw [float_one_mul, float_one_mul]
    rw [product, hasNaN, denotation]
    rcases float_zero_mul im with small | ⟨nan, far⟩
    · rcases float_zero_mul re with smallToo | ⟨nan, far⟩
      · exact .inl (by rw [(point_add_zero small).2, (point_add_zero smallToo).1]; rfl)
      · refine .inr ⟨by simp [nan, float_add_nan, point_nan], fun k same => ?_⟩
        exact far _ (Prod.mk.inj same).1
    · refine .inr ⟨by simp [nan, float_sub_nan, point_nan], fun k same => ?_⟩
      exact far _ (Prod.mk.inj same).2

/-- A number multiplied with one. -/
def once (n : Number) : Number := ofQuantity (.computed (n.steps + 1)) n.quantity.once

theorem mul_one_eq (n : Number) : mul (.int 1) n = .ok n.once := by
  rw [mul, combine, quantity, Quantity.mul_one_eq, steps, origin?, Nat.zero_max]
  rfl

theorem denotation_once (n : Number) : n.once.denotation = n.quantity.once.denotation := by
  rw [ denotation, once, quantity_ofQuantity]

theorem hasNaN_congr {a b : Number} (same : a.denotation = b.denotation) : a.hasNaN = b.hasNaN :=
  congrArg (fun d : Option Point × Option Point => d.1.isNone || d.2.isNone) same

theorem equal_eq (a b : Number) : a.equal b = (!a.hasNaN && decide (a.denotation = b.denotation)) := by
  unfold equal same
  by_cases identical : a = b
  · simp [identical]
  · cases a.hasNaN <;> simp [identical]

theorem equal_congr {a b : Number} (same : a.denotation = b.denotation) (n : Number) : a.equal n = b.equal n := by
  rw [equal_eq, equal_eq, hasNaN_congr same, same]

theorem equal_of_hasNaN {a : Number} (nan : a.hasNaN = true) (n : Number) : a.equal n = false := by
  rw [equal, nan, Bool.not_true, Bool.and_false]

/-- A number whose product with one holds a NaN: one that holds a NaN itself, or a complex one with an infinite part. -/
def isRestless (n : Number) : Bool := n.once.hasNaN

theorem isRestless_of_hasNaN {n : Number} (nan : n.hasNaN = true) : n.isRestless = true := by
  rcases n.quantity.once_cases with same | ⟨spoilt, -⟩
  · exact (hasNaN_congr ((denotation_once n).trans same)).trans nan
  · rw [isRestless, hasNaN, once, quantity_ofQuantity, spoilt]

theorem denotation_once_of_rests {n : Number} (rests : n.isRestless = false) : n.once.denotation = n.denotation := by
  rcases n.quantity.once_cases with same | ⟨spoilt, -⟩
  · exact (denotation_once n).trans same
  · rw [isRestless, hasNaN, once, quantity_ofQuantity, spoilt] at rests
    cases rests

/-- All other numbers stay the same if they are multiplied with one. -/
theorem same_once {n : Number} (rests : n.isRestless = false) : n.once.same n = true := by
  have definite : n.once.hasNaN = false := rests
  simp [same, definite, denotation_once_of_rests rests]

/-- A product is a new object, so one that holds a NaN is not what it is the product of. -/
theorem not_same_once {n : Number} (restless : n.isRestless = true) : n.once.same n = false := by
  have further : n.once.steps = n.steps + 1 := by
    rw [isRestless, hasNaN, once, quantity_ofQuantity] at restless
    rw [once]
    cases shape : n.quantity.once with
    | int a => rw [shape] at restless; cases restless
    | real x | complex z => rw [shape] at restless; simp [ofQuantity, steps, origin?, Origin.of, restless]
  have apart : n.once ≠ n := fun same => by
    rw [same] at further
    omega
  have nan : n.once.hasNaN = true := restless
  simp [same, nan, apart]

/-- A restless number is no whole number, and never comes to rest. -/
theorem isRestless_once {n : Number} (restless : n.isRestless = true) : n.once.isRestless = true :=
  isRestless_of_hasNaN restless

theorem equal_int_of_isRestless {n : Number} (restless : n.isRestless = true) (k : Int) : n.equal (.int k) = false := by
  rcases n.quantity.once_cases with same | ⟨-, apart⟩
  · exact equal_of_hasNaN ((hasNaN_congr ((denotation_once n).trans same)).symm.trans restless) _
  · have other : n.denotation ≠ Number.denotation (.int k) := apart k
    rw [equal_eq, decide_eq_false other, Bool.and_false]

theorem isZero_once (n : Number) : n.once.isZero = n.isZero := by
  cases restless : n.isRestless with
  | false => exact equal_congr (denotation_once_of_rests restless) _
  | true => exact (equal_of_hasNaN restless _).trans (equal_int_of_isRestless restless 0).symm

theorem isOne_once (n : Number) : n.once.isOne = n.isOne := by
  cases restless : n.isRestless with
  | false => exact equal_congr (denotation_once_of_rests restless) _
  | true => exact (equal_of_hasNaN restless _).trans (equal_int_of_isRestless restless 1).symm

theorem denotation_of_isZero {n : Number} (zero : n.isZero = true) :
    n.denotation = (some (.finite 0), some (.finite 0)) :=
  of_decide_eq_true (Bool.and_eq_true_iff.1 ((equal_eq n _).symm.trans zero)).2

theorem eq_zero_of_isZero {a : Int} (zero : (Number.int a).isZero = true) : a = 0 := by
  have placed := denotation_of_isZero zero
  rw [denotation_int] at placed
  simpa using (Prod.mk.inj placed).1

theorem isOne_of_isZero {n : Number} (zero : n.isZero = true) : n.isOne = false := by
  have same : n.denotation = Number.denotation (.int 0) := denotation_of_isZero zero
  exact (equal_congr same (.int 1)).trans (by decide +kernel)

theorem pow_neg_one_of_isZero {n : Number} (zero : n.isZero = true) : n.pow (.int (-1)) = .error .divisionByZero := by
  have none : Quantity.pow (.int 0) (.int (-1)) = .error .divisionByZero ∧ ∀ x ∈ signedZeros,
      Quantity.pow (.real x) (.int (-1)) = .error .divisionByZero ∧ ∀ y ∈ signedZeros,
        Quantity.pow (.complex ⟨x, y⟩) (.int (-1)) = .error .divisionByZero := by
    decide +kernel
  have failed : n.quantity.pow (.int (-1)) = .error .divisionByZero := by
    obtain ⟨left, right⟩ := Prod.mk.inj (denotation_of_isZero zero)
    match n, left, right with
    | .int a, _, _ =>
      rw [eq_zero_of_isZero zero]
      exact none.1
    | .real x _ _, left, _ => exact (none.2 x (vanishes_of_point left)).1
    | .complex ⟨x, y⟩ _ _, left, right => exact (none.2 x (vanishes_of_point left)).2 y (vanishes_of_point right)
  show (n.quantity.pow (.int (-1))).map _ = _
  rw [failed]
  rfl

end Symbolic.Number
