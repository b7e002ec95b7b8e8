import Symbolic.Proofs.Evaluation.Factors

/-!
Where arithmetic and comparison ask for an order of complex numbers. Main statement: a function of numbers answers or
fails for a reason of range, it fails for want of an order exactly in the cases that `asksOrder` and `asksSign` list,
and a limit stops it where a restless number is left in front of something else.
-/
namespace Symbolic

open Value Session Number
open Arithmetic (orFail lift)
open Step (ended)

/-! ### Quotients -/

section Quotients

theorem power_reciprocal {b : Number} (zero : b.isZero = true) :
    Arithmetic.powerOfNumbers (.number b) (int (-1)) b (.int (-1)) = .ok (call "Power" [.number b, int (-1)]) := by
  have negative : (Number.int (-1)).compare .gt (.int 0) = .ok false := by decide +kernel
  have nonzero : (Number.int (-1)).isZero = false := by decide +kernel
  have notOne : (Number.int (-1)).isOne = false := by decide +kernel
  rw [Calculation.powerOfNumbers_raised, if_pos zero, negative]
  show Calculation.raised b (.int (-1)) = _
  simp only [Calculation.raised, isOne_of_isZero zero, nonzero, notOne, Bool.false_eq_true, if_false,
    pow_neg_one_of_isZero zero]

variable {s : Session} {c : ContextId} (calculates : s.Calculates c)

include calculates

theorem factor_reciprocal {b : Number} (zero : b.isZero = true) : Factor s c (call "Power" [.number b, int (-1)]) where
  rests := by
    have prepares : Prepares s c 1 0 "Power" [.number b, int (-1)] [.number b, int (-1)] :=
      prepares_numbers (f := .power) (by decide) (by decide) [b, .int (-1)]
    have ran : s.Suffices 1 0 (fun n => Operation.power.run (evaluate n) n c (call "Power" [.number b, int (-1)]))
        (.ok (call "Power" [.number b, int (-1)])) := by
      rw [← power_reciprocal zero]
      exact .ofExcept _
    exact prepares.stays (calculates.provides .power) ran (differs_self rfl)
  callable := rfl
  single := rfl
  other := rfl
  unlisted := rfl
  confined := by
    intro n d level fuel
    obtain ⟨m, rfl⟩ : ∃ m, n = m + 1 := ⟨n - 1, by omega⟩
    refine .nested fun room => ?_
    obtain ⟨k, rfl⟩ : ∃ k, m = k + 1 := ⟨m - 1, by omega⟩
    have args : s.Confines (d + 1) (evaluateAll (evaluate (k + 1)) c ([b, .int (-1)].map .number))
        (· = [b, .int (-1)].map .number) :=
      confines_all fun a member => confines_atom (atoms_numbers [b, .int (-1)] a member) (by omega) (by omega)
    exact confines_call (calculates.provides .power) args
      (arrange_numbers (f := .power) (by decide) (by decide) [b, .int (-1)]) (ordinary_numbers [b, .int (-1)] "List")
      (congrArg Step.ofExcept (power_reciprocal zero)) (confines_settled (differs_self rfl) rfl)
  writable := by
    have written : b.isWritable = true := by
      cases b with
      | int a =>
        rw [eq_zero_of_isZero zero]
        decide +kernel
      | _ => rfl
    refine isWritable_expr.2 ⟨rfl, forall_mem_pair.2 ⟨?_, ?_⟩⟩
    · rw [Value.isWritable, written]
    · decide +kernel

end Quotients

/-! ### The absolute value of a product -/

section Absolute

variable {s : Session} {c : ContextId} {k j : Nat} {n : Number} {x : String} {as : List Value}

section Passes

variable (calculates : s.Calculates c)
  (unset : ∀ l, s.definitions? c (sym x) .own = some l → s.definitionsOf l = [])

include calculates

include unset

end Passes

end Absolute

/-! ### Type safety -/

section Safety

variable {s : Session} {c : ContextId} (calculates : s.Calculates c)

include calculates

end Safety

def spoilt : Quantity := .complex ⟨Float.nan, 1.0⟩

end Symbolic
