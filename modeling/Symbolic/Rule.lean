import Symbolic.Evaluate
import Symbolic.Sorting

/-!
Rules: what matches the left side is replaced by the right side. An immediate rule
evaluates the replacement, a delayed one does not. Rules with a higher priority are
tried first.
-/
namespace Symbolic

inductive RuleBody where
  /-- A value with the bindings of the match substituted. -/
  | value (v : Value)
  /-- What a function with a name makes of the bindings of the match. -/
  | native (name : String) (run : Bindings → Eval Value)

def RuleBody.text : RuleBody → Except Error String
  | .value v => v.spelled
  | .native name _ => .ok name

structure Rule where
  lhs : Value
  rhs : RuleBody
  delayed : Bool
  /-- What must count as true for the rule to apply; absent if there is no condition. -/
  condition : Value
  priority : Int

namespace Rule

def text (r : Rule) : Except Error String := do
  return "Rule(" ++ (← r.lhs.spelled) ++ (if r.delayed then " :> " else " -> ") ++ (← r.rhs.text) ++ ")"

section Application

variable (ev : Evaluator) (c : ContextId)

def allows (r : Rule) (b : Bindings) : Eval Bool :=
  match r.condition.present? with
  | none => return true
  | some t => do return (← ev c (← Step.ofExcept (b.substitute t))).isTruthy

def result (r : Rule) (b : Bindings) : Eval Value :=
  match r.rhs with
  | .native _ run => run b
  | .value v => do
    let w ← Step.ofExcept (b.substitute v)
    if r.delayed then return w else ev c w

def tryOn (r : Rule) (e : Value) : Eval (Option Value) := do
  match ← Control.matchPlain r.lhs e with
  | none => return none
  | some b => if ← r.allows ev c b then return some (← r.result ev c b) else return none

/-- The result of the first rule that applies, or the value itself. -/
def applyFirst (e : Value) : List Rule → Eval Value
  | [] => return e
  | r :: rs => do
    match ← r.tryOn ev c e with
    | some v => return v
    | none => applyFirst e rs

/-- Rules in the order in which they are tried; equal priorities keep their order. -/
def byPriority (rs : List Rule) : List Rule :=
  sortBy (fun a b => b.priority ≤ a.priority) rs

def applyAny (rs : List Rule) (e : Value) : Eval Value := applyFirst ev c e (byPriority rs)

/-- Applies rules again and again, up to a fixed point or a number of times. -/
def applyRepeatedly (rs : List Rule) (limit : Nat) (e : Value) : Eval Value :=
  fixedPoint (applyAny ev c rs) (fun a b => return a.equal b) limit e

def defaultRepetitions : Nat := 1000

end Application

end Rule
end Symbolic
