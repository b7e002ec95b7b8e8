import Symbolic.Builtin.Arithmetic
import Symbolic.Builtin.Comparison
import Symbolic.Pattern.Substitution
import Symbolic.Progression

/-!
Iteration over arithmetic progressions and lists: tables, loops, sums and products,
repeated application and folds. Values are taken one at a time, so a failure on an early
one ends an iteration over however many.
-/
namespace Symbolic.Iteration

open Value

/-- The integers that an iterator runs through: those of a range, or those of a loop that goes by
steps until it has passed its bound. -/
inductive Integers where
  | range (low high : Int)
  | steps (first last step : Int) (proceeds : step ≠ 0)

namespace Integers

def progression : Integers → Progression
  | .range a b => .between a b 1
  | .steps a b s _ => .between a b s

def foldM {β : Type} (d : Integers) (f : β → Int → Eval β) (x : β) : Eval β :=
  match d with
  | .range a b => (Progression.between a b 1).foldM f x
  | .steps a b s _ => Progression.stepping f b s a x

theorem foldM_eq_foldlM {β : Type} (d : Integers) (f : β → Int → Eval β) (x : β) :
    d.foldM f x = d.progression.toList.foldlM f x := by
  cases d with
  | range a b => exact Progression.foldM_eq_foldlM _ f x
  | steps a b s proceeds => exact Progression.stepping_eq_foldlM f proceeds a b x

end Integers

/-- What an iterator runs through: the items of a list or integers. -/
inductive Domain where
  | items (xs : List Value)
  | integers (d : Integers)

namespace Domain

def toList : Domain → List Value
  | .items xs => xs
  | .integers d => d.progression.toList.map .int

def foldM {β : Type} (d : Domain) (f : β → Value → Eval β) (b : β) : Eval β :=
  match d with
  | .items xs => xs.foldlM f b
  | .integers d => d.foldM (fun b n => f b (.int n)) b

theorem foldM_eq_foldlM {β : Type} (d : Domain) (f : β → Value → Eval β) (b : β) :
    d.foldM f b = d.toList.foldlM f b := by
  cases d with
  | items xs => rfl
  | integers d =>
    simp only [foldM, toList, List.foldlM_map]
    exact d.foldM_eq_foldlM _ b

end Domain

/-- A body with a value in place of the iteration variable. -/
def instantiate (body var v : Value) : Except Error Value := do
  requireKeys [var]
  body.substitute true (var.symbol?.toList.map (·, v))

def evaluateAt (ev : Evaluator) (c : ContextId) (body var x : Value) : Eval Value := do
  ev c (← Step.ofExcept (instantiate body var x))

def evaluateEach (ev : Evaluator) (c : ContextId) (body var : Value) (d : Domain) : Eval (List Value) := do
  let rs ← d.foldM (fun rs x => do return (← evaluateAt ev c body var x) :: rs) []
  return rs.reverse

/-- Evaluates the body for one value after the other and keeps no result. -/
def visitEach (ev : Evaluator) (c : ContextId) (body var : Value) (d : Domain) : Eval Unit :=
  d.foldM (fun _ x => do let _ ← evaluateAt ev c body var x) ()

/-- Evaluates the body for one integer after the other and accumulates the results. -/
def accumulateEach (ev : Evaluator) (c : ContextId) (join : Value → Value → Except Error Value)
    (body var start : Value) (d : Integers) : Eval Value :=
  d.foldM (fun acc n => do Step.ofExcept (join acc (← evaluateAt ev c body var (.int n)))) start

/-- The values that an iterator of a loop or a table runs through: the items of a list, or the
integers between two by steps. Whatever is neither gives none. -/
def loopValues (ev : Evaluator) (c : ContextId) : List Value → Eval Domain
  | [] => return .items []
  | [l] => do return .items (((← ev c l).argsOf? "List").getD [])
  | low :: high :: more => do
    let a ← ev c low
    let b ← ev c high
    let s ← match more with
      | step :: _ => ev c step
      | [] => pure (int 1)
    match a, b, s with
    | .int a, .int b, .int s => return if proceeds : s ≠ 0 then .integers (.steps a b s proceeds) else .items []
    | _, _, _ => return .items []

/-- The variable and the specification of an iterator with at least two parts. -/
def iterator? : Value → Option (Value × List Value)
  | .expr _ (var :: a :: as) _ => some (var, a :: as)
  | _ => none

def loop (ev : Evaluator) (c : ContextId) (e : Value) : List Value → Eval Value
  | body :: it :: _ => do
    match iterator? it with
    | none => return e
    | some (var, spec) => do
      visitEach ev c body var (← loopValues ev c spec)
      return nothing
  | _ => return e

def table (ev : Evaluator) (c : ContextId) (e : Value) : List Value → Eval Value
  | body :: it :: _ => do
    match iterator? it with
    | none => return e
    | some (var, spec) => return ofItems (← evaluateEach ev c body var (← loopValues ev c spec))
  | _ => return e

/-- The integers that an iterator of a sum or product runs through, if it is one of the known
forms: up to a positive bound, between two bounds, or between two bounds by a step. -/
def accumulationValues (ev : Evaluator) (c : ContextId) : List Value → Eval (Option Integers)
  | [high] => do
    match ← ev c high with
    | .int b => return if 0 < b then some (.range 1 b) else none
    | _ => return none
  | [low, high] => do
    let a ← ev c low
    let b ← ev c high
    match a, b with
    | .int a, .int b => return some (.range a b)
    | _, _ => return none
  | [low, high, step] => do
    let a ← ev c low
    let b ← ev c high
    let s ← ev c step
    match a, b, s with
    | .int a, .int b, .int s => return if proceeds : s ≠ 0 then some (.steps a b s proceeds) else none
    | _, _, _ => return none
  | _ => return none

/-- Accumulates over the first iterator of a known form; without one the result is `rest`. -/
def accumulateOver (ev : Evaluator) (c : ContextId) (join : Value → Value → Except Error Value)
    (start body e rest : Value) : List Value → Eval Value
  | [] => return rest
  | it :: its => do
    match iterator? it with
    | none => return e
    | some (var, spec) =>
      match ← accumulationValues ev c spec with
      | some d => accumulateEach ev c join body var start d
      | none => accumulateOver ev c join start body e rest its

/-- A sum or a product, by its name, the value that it starts with and the way to join. -/
def accumulate (name : String) (start : Value) (join : Value → Value → Except Error Value)
    (ev : Evaluator) (c : ContextId) (e : Value) : List Value → Eval Value
  | [] => return e
  | [body] => return body
  | body :: its => accumulateOver ev c join start body e (call name (body :: its)) its

def sum : Evaluator → ContextId → Value → List Value → Eval Value :=
  accumulate "Sum" (int 0) Arithmetic.accumulateSum

def product : Evaluator → ContextId → Value → List Value → Eval Value :=
  accumulate "Product" (int 1) Arithmetic.accumulateProduct

/-- Applies a function to a value, to the value of that, and so on, and gives the last value. -/
def applyTimes (ev : Evaluator) (c : ContextId) (f : Value) : Nat → Value → Eval Value
  | 0, x => return x
  | n + 1, x => do applyTimes ev c f n (← ev c (← Step.ofExcept (f.apply [x])))

/-- Applies a function again and again and adds each value to those collected, the latest first. -/
def collectTimes (ev : Evaluator) (c : ContextId) (f : Value) : Nat → Value → List Value → Eval (List Value)
  | 0, _, results => return results
  | n + 1, x, results => do
    let y ← ev c (← Step.ofExcept (f.apply [x]))
    collectTimes ev c f n y (y :: results)

def nest (ev : Evaluator) (c : ContextId) (e : Value) : List Value → Eval Value
  | f :: x :: n :: _ => do
    match ← ev c n with
    | .int n => do
      if n < 0 then return e
      applyTimes ev c f n.toNat (← ev c x)
    | _ => return e
  | _ => return e

def nestList (ev : Evaluator) (c : ContextId) (e : Value) : List Value → Eval Value
  | f :: x :: n :: _ => do
    match ← ev c n with
    | .int n => do
      if n < 0 then return e
      let start ← ev c x
      return ofItems (← collectTimes ev c f n.toNat start [start]).reverse
    | _ => return e
  | _ => return e

/-- Applies a function to an accumulated value and one item after the other. -/
def foldItems (ev : Evaluator) (c : ContextId) (f : Value) : Value → List Value → Eval Value
  | acc, [] => return acc
  | acc, x :: xs => do foldItems ev c f (← ev c (← Step.ofExcept (f.apply [acc, x]))) xs

def fold (ev : Evaluator) (c : ContextId) (e : Value) : List Value → Eval Value
  | f :: start :: l :: _ => do
    let acc ← ev c start
    let items := ((← ev c l).argsOf? "List").getD []
    foldItems ev c f acc items
  | _ => return e

def mapItems (ev : Evaluator) (c : ContextId) (f : Value) (xs : List Value) : Eval (List Value) := do
  let ys ← xs.foldlM (fun ys x => do return (← ev c (← Step.ofExcept (f.apply [x]))) :: ys) []
  return ys.reverse

def map (ev : Evaluator) (c : ContextId) (e : Value) : List Value → Eval Value
  | f :: l :: _ => do
    match (← ev c l).argsOf? "List" with
    | some xs => return ofItems (← mapItems ev c f xs)
    | none => return e
  | _ => return e

end Symbolic.Iteration
