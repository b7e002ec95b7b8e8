import Mathlib.Tactic.Common
import Symbolic.Builtin.Arithmetic

/-!
The faults that operations on numbers can end in. A result can lie out of range, in one of several ways, and complex
numbers have no order. Sums, products, powers, reciprocals, exponentials and logarithms never ask for an order of
complex numbers; a square root asks for the order of its argument and zero.
-/
namespace Symbolic.Number

/-- An operation that fails ends in a fault of this sort. -/
def Faults {α : Type} (P : Fault → Prop) (r : Except Fault α) : Prop := ∀ f, r = .error f → P f

namespace Faults

variable {α β : Type} {P Q : Fault → Prop}

theorem ok (a : α) : Faults P (.ok a) := fun _ fails => by cases fails

theorem error {f : Fault} (sort : P f) : Faults P (.error f : Except Fault α) := fun _ fails => by
  cases fails
  exact sort

theorem mono {r : Except Fault α} (faults : Faults P r) (weaker : ∀ f, P f → Q f) : Faults Q r :=
  fun f fails => weaker f (faults f fails)

theorem bind {r : Except Fault α} {k : α → Except Fault β} (first : Faults P r) (next : ∀ a, Faults P (k a)) :
    Faults P (r >>= k) := by
  cases r with
  | ok a => exact next a
  | error f => exact error (first f rfl)

theorem map {r : Except Fault α} (faults : Faults P r) (g : α → β) : Faults P (r.map g) := by
  cases r with
  | ok a => exact ok (g a)
  | error f => exact error (faults f rfl)

theorem choose {p : Prop} [Decidable p] {r q : Except Fault α} (yes : Faults P r) (no : Faults P q) :
    Faults P (if p then r else q) := by
  split
  · exact yes
  · exact no

theorem foldlM {g : α → β → Except Fault α} (each : ∀ a b, Faults P (g a b)) (bs : List β) (a : α) :
    Faults P (bs.foldlM g a) := by
  induction bs generalizing a with
  | nil => exact ok a
  | cons b bs ih =>
    rw [List.foldlM_cons]
    exact bind (each a b) ih

end Faults

/-- Faults that say that a result is out of range. -/
def Fault.OfRange (f : Fault) : Prop := f ≠ .unordered

def Fault.OfPower (f : Fault) : Prop := f = .overflow ∨ f = .divisionByZero

theorem Fault.OfPower.ofRange {f : Fault} (sort : f.OfPower) : f.OfRange := by
  rcases sort with rfl | rfl
  · exact fun same => by cases same
  · exact fun same => by cases same

section Operations

open Faults (ok error choose)

theorem Fault.ofPower_overflow : Fault.OfPower .overflow := .inl rfl

theorem Fault.ofPower_divisionByZero : Fault.OfPower .divisionByZero := .inr rfl

theorem Complex.div_faults (a b : Complex) : Faults Fault.OfPower (a.div b) := by
  unfold Complex.div
  dsimp only
  refine choose (choose ?_ (ok _)) (choose (ok _) (ok _))
  exact error Fault.ofPower_divisionByZero

theorem Complex.powPolar_faults (a b : Complex) : Faults Fault.OfPower (a.powPolar b) := by
  unfold Complex.powPolar
  dsimp only
  refine choose (ok _) (choose (choose ?_ (ok _)) (choose ?_ (ok _)))
  · exact error Fault.ofPower_divisionByZero
  · exact error Fault.ofPower_divisionByZero

theorem Complex.pow_faults (a b : Complex) : Faults Fault.OfPower (a.pow b) := by
  unfold Complex.pow
  dsimp only
  have bounded (r : Complex) : Faults Fault.OfPower (if r.isInfinite then .error .overflow else .ok r) :=
    choose (error Fault.ofPower_overflow) (ok r)
  split
  · exact Faults.bind (choose (ok _) (Complex.div_faults _ _)) bounded
  · exact (Complex.powPolar_faults a b).bind bounded

theorem Complex.log_faults (z : Complex) : Faults Fault.OfRange z.log := by
  unfold Complex.log
  dsimp only
  refine choose (choose (ok _) (ok _)) (choose (ok _) (choose (choose (ok _) ?_) (choose (ok _) (ok _))))
  exact error fun same => by cases same

namespace Quantity

theorem realOfInt_faults (n : Int) : Faults Fault.OfPower (realOfInt n) :=
  choose (error Fault.ofPower_overflow) (ok _)

theorem toComplex_faults (a : Quantity) : Faults Fault.OfPower a.toComplex := by
  cases a with
  | int n => exact (realOfInt_faults n).bind fun x => ok _
  | real x => exact ok _
  | complex z => exact ok _

theorem add_faults (a b : Quantity) : Faults Fault.OfPower (a.add b) := by
  unfold add
  split
  · exact ok _
  · exact (realOfInt_faults _).bind fun x => ok _
  · exact (realOfInt_faults _).bind fun x => ok _
  · exact ok _
  · exact (toComplex_faults a).bind fun x => (toComplex_faults b).bind fun y => ok _

theorem mul_faults (a b : Quantity) : Faults Fault.OfPower (a.mul b) := by
  unfold mul
  split
  · exact ok _
  · exact (realOfInt_faults _).bind fun x => ok _
  · exact (realOfInt_faults _).bind fun x => ok _
  · exact ok _
  · exact (toComplex_faults a).bind fun x => (toComplex_faults b).bind fun y => ok _

theorem powReal_faults (x y : Float) : Faults Fault.OfPower (powReal x y) := by
  unfold powReal
  dsimp only
  refine choose (ok _) (choose (ok _) (choose (ok _) (choose ?_ (choose ?_ (choose ?_ ?_)))))
  · exact choose (ok _) (choose (ok _) (ok _))
  · exact choose (ok _) (ok _)
  · exact choose (error Fault.ofPower_divisionByZero) (ok _)
  · -- A power of finite numbers is complex if the base is below zero and the exponent is not whole.
    refine choose ?_ ?_
    · exact (Complex.pow_faults _ _).bind fun z => ok _
    · exact choose (error Fault.ofPower_overflow) (ok _)

theorem pow_faults (a b : Quantity) : Faults Fault.OfPower (a.pow b) := by
  unfold pow
  split
  · exact choose (ok _) ((realOfInt_faults _).bind fun x => (realOfInt_faults _).bind fun y => powReal_faults x y)
  · exact (realOfInt_faults _).bind fun x => powReal_faults x _
  · exact (realOfInt_faults _).bind fun y => powReal_faults _ y
  · exact powReal_faults _ _
  · refine (toComplex_faults a).bind fun x => (toComplex_faults b).bind fun y => ?_
    exact (Complex.pow_faults x y).bind fun z => ok _

theorem logReal_faults {a : Quantity} (positive : a.isPositive = true) : Faults Fault.OfRange a.logReal := by
  cases a with
  | int n => exact ok _
  | real x => exact ok _
  | complex z => cases positive

theorem log_faults (a : Quantity) : Faults Fault.OfRange a.log := by
  unfold log
  split
  · next positive => exact (logReal_faults positive).bind fun x => ok _
  · refine ((toComplex_faults a).mono fun f => Fault.OfPower.ofRange).bind fun z => ?_
    exact (Complex.log_faults z).bind fun w => ok _

end Quantity

/-! ### Numbers -/

section Numbers

variable {P : Fault → Prop} {a b : Number}

theorem compute_faults {f : Quantity → Except Fault Quantity} (faults : Faults P (f a.quantity)) :
    Faults P (compute f a) :=
  faults.map _

theorem combine_faults {f : Quantity → Quantity → Except Fault Quantity}
    (faults : Faults P (f a.quantity b.quantity)) : Faults P (combine f a b) :=
  faults.map _

variable (a b)

theorem add_faults : Faults Fault.OfPower (a.add b) := combine_faults (Quantity.add_faults _ _)

theorem mul_faults : Faults Fault.OfPower (a.mul b) := combine_faults (Quantity.mul_faults _ _)

theorem pow_faults : Faults Fault.OfPower (a.pow b) := combine_faults (Quantity.pow_faults _ _)

theorem log_faults : Faults Fault.OfRange a.log := compute_faults (Quantity.log_faults _)

variable {a b}

end Numbers
end Operations
end Symbolic.Number
