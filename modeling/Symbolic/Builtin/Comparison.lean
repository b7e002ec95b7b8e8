import Symbolic.Session

/-!
Comparison of numbers, logic and predicates. An expression that cannot be decided is
left as it is.
-/
namespace Symbolic

abbrev Evaluator := ContextId → Value → Eval Value

namespace Comparison

open Value

/-- Evaluates the first two arguments and joins them, if there are two. -/
def withTwo (ev : Evaluator) (c : ContextId) (short : Value) (f : Value → Value → Eval Value) :
    List Value → Eval Value
  | a :: b :: _ => do
    let x ← ev c a
    let y ← ev c b
    f x y
  | _ => return short

/-- Evaluates the first argument, if there is one. -/
def withOne (ev : Evaluator) (c : ContextId) (short : Value) (f : Value → Eval Value) :
    List Value → Eval Value
  | a :: _ => do f (← ev c a)
  | [] => return short

def relation (r : Number.Relation) (ev : Evaluator) (c : ContextId) (e : Value) (as : List Value) : Eval Value :=
  withTwo ev c e (fun x y => match x, y with
    | .number m, .number n => do return .bool (← Step.ofFault (m.compare r n))
    | _, _ => return e) as

def equality (negated : Bool) (ev : Evaluator) (c : ContextId) (e : Value) (as : List Value) : Eval Value :=
  withTwo ev c e (fun x y => match x, y with
    | .number m, .number n => return .bool (m.equal n != negated)
    | _, _ => return e) as

/-- Conjunction: false at the first false argument, undecided at the first that is neither. -/
def conjunction (ev : Evaluator) (c : ContextId) (e : Value) : List Value → Eval Value
  | [] => return .bool true
  | a :: as => do
    let v ← ev c a
    if v.isFalse then return .bool false
    else if v.isTrue then conjunction ev c e as
    else return e

/-- Disjunction: true at the first true argument, undecided at the first that is neither. -/
def disjunction (ev : Evaluator) (c : ContextId) (e : Value) : List Value → Eval Value
  | [] => return .bool false
  | a :: as => do
    let v ← ev c a
    if v.isTrue then return .bool true
    else if v.isFalse then disjunction ev c e as
    else return e

def negation (ev : Evaluator) (c : ContextId) (e : Value) (as : List Value) : Eval Value :=
  withOne ev c e (fun v =>
    if v.isTrue then return .bool false
    else if v.isFalse then return .bool true
    else return e) as

/-- A property of the value of the first argument; false without arguments. -/
def predicate (p : Value → Bool) (ev : Evaluator) (c : ContextId) (as : List Value) : Eval Value :=
  withOne ev c (.bool false) (fun v => return .bool (p v)) as

def sameness (ev : Evaluator) (c : ContextId) (e : Value) (as : List Value) : Eval Value :=
  withTwo ev c e (fun x y => return .bool (x.equal y)) as

def difference (ev : Evaluator) (c : ContextId) (e : Value) (as : List Value) : Eval Value :=
  withTwo ev c e (fun x y => return .bool (x.differs y)) as

def headIs (x h : Value) : Bool :=
  match x with
  | .expr k _ _ => k.equal h
  | .symbol _ => (sym "Symbol").equal h
  | _ => false

def headTest (ev : Evaluator) (c : ContextId) (as : List Value) : Eval Value :=
  withTwo ev c (.bool false) (fun x h => return .bool (headIs x h)) as

def isEven (v : Value) : Bool := v.int?.any (· % 2 == 0)

def isOdd (v : Value) : Bool := v.int?.any (· % 2 != 0)

/-- Whether a value is a number; truth values are not. -/
def isNumber : Value → Bool
  | .number _ => true
  | _ => false

def isText : Value → Bool
  | .text _ => true
  | _ => false

def isReal : Value → Bool
  | .number (.real ..) => true
  | _ => false

end Comparison
end Symbolic
