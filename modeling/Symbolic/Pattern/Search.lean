import Symbolic.Pattern.Matching

/-!
Searching a value for the parts that a pattern matches.
-/
namespace Symbolic.Pattern

variable {σ : Type}

/-- The bindings of a match that starts from nothing. -/
def matchFresh (m : Settings σ) (p e : Value) : Step σ (Option Bindings) := matchOne m none 0 p e .empty

mutual

/-- The parts that a pattern matches, with the bindings of the matches: a value before its arguments,
and arguments from left to right. Heads are not searched. -/
def find (m : Settings σ) (p : Value) : Value → Step σ (List (Value × Bindings))
  | .expr h as t => do
    let here ← matchFresh m p (.expr h as t)
    let below ← findAll m p as
    return (here.toList.map fun b => (.expr h as t, b)) ++ below
  | v => do
    let here ← matchFresh m p v
    return here.toList.map fun b => (v, b)

def findAll (m : Settings σ) (p : Value) : List Value → Step σ (List (Value × Bindings))
  | [] => return []
  | v :: vs => do
    let found ← find m p v
    return found ++ (← findAll m p vs)

end

end Symbolic.Pattern
