import Symbolic.Builtin.Run
import Symbolic.Canonical

/-!
Evaluation. An expression is evaluated by evaluating its head and its arguments,
bringing it into the form that its attributes ask for, and then applying the first
definition or builtin that changes it; the result is evaluated again. Two limits bound
this: how deep evaluations are nested, and how often an expression is replaced.

`evaluate` runs on fuel. Each nested evaluation and each unbounded loop gets one unit
less, so a result does not depend on how much fuel was left.
-/
namespace Symbolic

open Value

/-- Runs a computation one level deeper. The outermost level starts counting replacements anew. -/
def deeper {α : Type} (run : Eval α) : Eval α := fun s =>
  let iterations := if s.depth = 0 then 0 else s.iterations
  if (s.depth + 1 : Int) > s.recursionLimit then
    .error (.failure (.recursionLimit s.recursionLimit)) { s with iterations := iterations }
  else
    match run { s with depth := s.depth + 1, iterations := iterations } with
    | .ok a t => .ok a { t with depth := t.depth - 1 }
    | .error h t => .error h { t with depth := t.depth - 1 }

def countReplacement : Eval Unit := do
  modify fun s => { s with iterations := s.iterations + 1 }
  let s ← get
  if (s.iterations : Int) > s.iterationLimit then Step.fail (.iterationLimit s.iterationLimit)

section Definitions

variable (ev : Evaluator) (fuel : Nat) (c : ContextId)

def admits (condition : Value) (b : Bindings) : Eval Bool :=
  match condition.present? with
  | none => return true
  | some t => do return Pattern.holds (← ev c (← Step.ofExcept (b.substitute t)))

def Definition.apply (d : Definition) (e : Value) : Eval (Option Value) := do
  match ← Control.matchPlain d.pattern e with
  | none => return none
  | some b =>
    if ← admits ev c d.condition b then return some (← Step.ofExcept (b.substitute d.replacement))
    else return none

/-- Applies the first definition of a list that applies, from a position on. The list is read
anew for each position, since conditions can add to it. -/
def applyFrom (l : ListId) (e : Value) : Nat → Nat → Eval (Option Value)
  | 0, _ => throw .outOfFuel
  | fuel + 1, i => do
    match ((← get).definitionsOf l)[i]? with
    | none => return none
    | some d =>
      match ← d.apply ev c e with
      | some r => return some r
      | none => applyFrom l e fuel (i + 1)

/-- Applies the first definition of one kind that a symbol has for a value. -/
def applyDefinitions (k : DefinitionKind) (s e : Value) : Eval (Option Value) := do
  match (← get).definitions? c s k with
  | none => return none
  | some l => applyFrom ev c l e fuel 0

/-- The value of a symbol: that of what its own definitions replace it by. -/
def evaluateSymbol (s : Value) : Eval Value := do
  match ← applyDefinitions ev fuel c .own s s with
  | some r => ev c r
  | none => return s

/-- The symbol whose definitions speak about expressions with a value as an argument. -/
def subject? : Value → Option Value
  | .symbol s => some (.symbol s)
  | .expr (.symbol s) _ _ => some (.symbol s)
  | _ => none

/-- The definitions that can apply to an expression, in the order in which they are tried: those of
its arguments, from left to right, and then those of its head. -/
def sources : Value → List (DefinitionKind × Value)
  | .expr h as _ =>
    as.filterMap (fun a => (subject? a).map (.up, ·)) ++
      match h with
      | .symbol s => [(.down, .symbol s)]
      | .expr (.symbol s) _ _ => [(.sub, .symbol s)]
      | _ => []
  | _ => []

/-- The first result of some definitions that is different from the expression. -/
def firstChange (e : Value) : List (DefinitionKind × Value) → Eval (Option Value)
  | [] => return none
  | (k, s) :: more => do
    match ← applyDefinitions ev fuel c k s e with
    | some r => if r.differs e then return some r else firstChange e more
    | none => firstChange e more

/-- Replaces an expression by the first definition that changes it, or else by its builtin. -/
def replaceOnce (e : Value) : Eval Value := do
  match ← firstChange ev fuel c e (sources e) with
  | some r => return r
  | none => runBuiltin ev fuel c e

end Definitions

def evaluateAll (ev : Evaluator) (c : ContextId) : List Value → Eval (List Value)
  | [] => return []
  | v :: vs => do
    let w ← ev c v
    return w :: (← evaluateAll ev c vs)

def evaluateArgs (ev : Evaluator) (c : ContextId) (attrs : SymbolSet) (as : List Value) : Eval (List Value) := do
  if attrs.contains Attribute.holdAllComplete || attrs.contains Attribute.holdAll then return as
  else if attrs.contains Attribute.holdFirst then
    return as.take 1 ++ (← evaluateAll ev c (as.drop 1))
  else if attrs.contains Attribute.holdRest then
    return (← evaluateAll ev c (as.take 1)) ++ as.drop 1
  else evaluateAll ev c as

def evaluateHead (ev : Evaluator) (fuel : Nat) (c : ContextId) (h : Value) : Eval Value :=
  match h with
  | .symbol _ => evaluateSymbol ev fuel c h
  | .expr .. => ev c h
  | _ => return h

/-- Brings an expression into the form that attributes ask for, short of threading. -/
def arrange (attrs : SymbolSet) (e : Value) : Except Error Value :=
  let held := attrs.contains Attribute.holdAllComplete || attrs.contains Attribute.sequenceHold
  let e := if held then e else e.spliceSequences
  let e := if attrs.contains Attribute.flat then e.flattenNested else e
  if attrs.contains Attribute.orderless then e.sortArgs else .ok e

/-- Evaluates the head and the arguments of an expression. Attributes are those of the head before
it is evaluated. -/
def evaluateParts (ev : Evaluator) (fuel : Nat) (c : ContextId) (attrs : SymbolSet)
    (h : Value) (as : List Value) (t : SymbolSet) : Eval Value := do
  let h ← if attrs.contains Attribute.holdAllComplete then pure h
    else do
      let k ← evaluateHead ev fuel c h
      if k.differs h then
        let _ ← Step.ofExcept (k.build as t)
        pure k
      else pure h
  let bs ← evaluateArgs ev c attrs as
  return .expr h (if sameItems bs as then as else bs) t

/-- Evaluates an expression whose parts are evaluated and in order. -/
def evaluateArranged (ev : Evaluator) (fuel : Nat) (c : ContextId) (attrs : SymbolSet) (e : Value) :
    Eval Value := do
  let threaded := e.threadLists
  if attrs.contains Attribute.listable && threaded.differs e then ev c threaded
  else
    let r ← replaceOnce ev fuel c e
    if r.differs e then
      countReplacement
      ev c r
    else return e

/-- Evaluates a value, given how to evaluate the values that this leads to. -/
def evaluateWith (ev : Evaluator) (fuel : Nat) (c : ContextId) (v : Value) : Eval Value := do
  match v with
  | .symbol _ => evaluateSymbol ev fuel c v
  | .expr h as t => do
    let attrs := (← get).effectiveAttributes c h t
    let e ← evaluateParts ev fuel c attrs h as t
    evaluateArranged ev fuel c attrs (← Step.ofExcept (arrange attrs e))
  | _ => return v

def evaluate : Nat → Evaluator
  | 0, _, _ => throw .outOfFuel
  | fuel + 1, c, v => deeper (evaluateWith (evaluate fuel) fuel c v)

/-- Evaluates a value; a limit that is exceeded gives the default instead of a failure. -/
def evaluateOr (fuel : Nat) (c : ContextId) (default v : Value) : Eval Value := fun s =>
  match evaluate fuel c v s with
  | .error (.failure e) t => if e.isLimit then .ok default t else .error (.failure e) t
  | r => r

def evaluateTimes (fuel : Nat) (c : ContextId) : Nat → Value → Eval Value
  | 0, v => return v
  | n + 1, v => do evaluateTimes fuel c n (← evaluate fuel c v)

/-- Applies a step until the result is the same as before, at most a given number of times. -/
def fixedPoint (step : Value → Eval Value) (same : Value → Value → Eval Bool) : Nat → Value → Eval Value
  | 0, v => return v
  | n + 1, v => do
    let w ← step v
    if ← same w v then return v else fixedPoint step same n w

end Symbolic
