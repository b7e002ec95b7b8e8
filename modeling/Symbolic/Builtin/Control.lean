import Symbolic.Builtin.Comparison
import Symbolic.Pattern.Matching

/-!
Assignment, conditionals, sequencing and loops. These receive their arguments
unevaluated and evaluate those that they need.
-/
namespace Symbolic.Control

open Value

/-- `Set[symbol, value]` evaluates the value and gives the symbol it as its only definition. -/
def assign (ev : Evaluator) (c : ContextId) (e : Value) : List Value → Eval Value
  | target :: body :: _ => do
    let v ← ev c body
    match target with
    | .symbol _ => do
      modify fun s => s.define c target .own [⟨target, v, .null⟩]
      return v
    | _ => return e
  | _ => return e

/-- `SetDelayed[symbol, body]` adds a definition of expressions that the symbol heads. -/
def assignDelayed (c : ContextId) (e : Value) : List Value → Eval Value
  | target :: body :: _ => do
    match target with
    | .symbol _ => do
      modify fun s => s.addDefinition c target .down ⟨target, body, .null⟩
      return nothing
    | _ => return e
  | _ => return e

def conditional (ev : Evaluator) (c : ContextId) (e : Value) : List Value → Eval Value
  | test :: yes :: more => do
    if (← ev c test).isTrue then ev c yes
    else match more with
      | no :: _ => ev c no
      | [] => return nothing
  | _ => return e

/-- Evaluates tests up to the first that is true, and then the value beside it. -/
def firstTrue (ev : Evaluator) (c : ContextId) : List Value → Eval Value
  | test :: v :: more => do
    if (← ev c test).isTrue then ev c v else firstTrue ev c more
  | _ => return nothing

def which (ev : Evaluator) (c : ContextId) (e : Value) (as : List Value) : Eval Value :=
  if as.length < 2 then return e else firstTrue ev c as

/-- Matches a pattern against a value without running conditions. -/
def matchPlain (p v : Value) : Eval (Option Bindings) :=
  Pattern.matchOne ⟨none, Pattern.defaultDepth⟩ none 0 p v .empty

/-- Evaluates what stands beside the first pattern that matches; a last value without a pattern is
the default. -/
def firstMatch (ev : Evaluator) (c : ContextId) (subject : Value) : List Value → Eval Value
  | p :: v :: more => do
    if (← matchPlain p subject).isSome then ev c v else firstMatch ev c subject more
  | [v] => ev c v
  | [] => return nothing

/-- `Switch[subject, pattern, value, …, default]`. -/
def switch (ev : Evaluator) (c : ContextId) (e : Value) : List Value → Eval Value
  | subject :: a :: as => do firstMatch ev c (← ev c subject) (a :: as)
  | _ => return e

/-- Evaluates one value after the other and gives the last result. -/
def sequence (ev : Evaluator) (c : ContextId) : Value → List Value → Eval Value
  | last, [] => return last
  | _, a :: as => do sequence ev c (← ev c a) as

def force (ev : Evaluator) (c : ContextId) (e : Value) : List Value → Eval Value
  | a :: _ => ev c a
  | [] => return e

/-- `ReleaseHold[v]` evaluates what a hold holds first. -/
def release (ev : Evaluator) (c : ContextId) (e : Value) : List Value → Eval Value
  | a :: _ =>
    match a.argsOf? "Hold" with
    | some (b :: _) => ev c b
    | _ => ev c a
  | [] => return e

/-- Evaluates the steps of a loop as long as its test is true. -/
def loopWhile (ev : Evaluator) (c : ContextId) (test : Value) (steps : List Value) : Nat → Eval Value
  | 0 => throw .outOfFuel
  | fuel + 1 => do
    if (← ev c test).isTrue then
      let _ ← sequence ev c nothing steps
      loopWhile ev c test steps fuel
    else return nothing

def whileLoop (ev : Evaluator) (fuel : Nat) (c : ContextId) (e : Value) : List Value → Eval Value
  | test :: body :: _ => loopWhile ev c test [body] fuel
  | _ => return e

def forLoop (ev : Evaluator) (fuel : Nat) (c : ContextId) (e : Value) : List Value → Eval Value
  | start :: test :: increment :: body :: _ => do
    let _ ← ev c start
    loopWhile ev c test [body, increment] fuel
  | _ => return e

end Symbolic.Control
