import Symbolic.Error

/-!
Computations that change a state and can stop early. The state at the point where a
computation stops is kept. Running out of fuel is kept apart from failure: it
says nothing about the computation but that it was not given enough.
-/
namespace Symbolic

inductive Halt where
  | failure (e : Error)
  | outOfFuel
  deriving Repr, Inhabited

abbrev Step (σ : Type) (α : Type) := EStateM Halt σ α

namespace Step

variable {σ α : Type}

def fail (e : Error) : Step σ α := throw (.failure e)

/-- Goes on with a result, or stops with the failure in its place. -/
def ofExcept : Except Error α → Step σ α
  | .ok a => pure a
  | .error e => fail e

def ofFault : Except Number.Fault α → Step σ α
  | .ok a => pure a
  | .error f => fail (.arithmetic f)

end Step
end Symbolic
