import Symbolic.Value.Expression

/-!
Expressions with one of their parts changed. Only expressions have parts.
-/
namespace Symbolic.Value

def withHead (v head : Value) : Except Error Value :=
  match v with
  | .expr _ as t => head.build as t
  | _ => .error .noSuchField

def withArgs (f : List Value → List Value) : Value → Except Error Value
  | .expr h as t => .ok (.expr h (f as) t)
  | _ => .error .noSuchField

def addAttributes (xs : List Value) : Value → Except Error Value
  | .expr h as t => do return .expr h as (t.union (← attributeSet xs))
  | _ => .error .noSuchField

def removeAttributes (xs : List Value) : Value → Except Error Value
  | .expr h as t => do
    requireKeys xs
    return .expr h as (t.diff (symbolsOf xs))
  | _ => .error .noSuchField

def setAttributes (xs : List Value) : Value → Except Error Value
  | .expr h as _ => do return .expr h as (← attributeSet xs)
  | _ => .error .noSuchField

def hasAttribute (v a : Value) : Except Error Bool := do
  requireKeys [a]
  return a.symbol?.any v.attributes.contains

def hasAnyAttribute (xs : List Value) : Value → Except Error Bool
  | .expr _ _ t => do
    requireKeys xs
    return t.meets (symbolsOf xs)
  | _ => .error .noSuchField

def hasAllAttributes (xs : List Value) : Value → Except Error Bool
  | .expr _ _ t => do
    requireKeys xs
    return xs.all isSymbol && (symbolsOf xs).isSubset t
  | _ => .error .noSuchField

/-- The item of a compound at an index: a symbol and an expression count as their components, and
bindings are read by name. -/
def itemOf (v index : Value) : Except Error Value :=
  match v, v.components? with
  | .bindings es, _ => do
    requireKeys [index]
    match index with
    | .symbol s => match es.lookup s with
      | some w => return w
      | none => .error .missingKey
    | _ => .error .missingKey
  | _, some xs => itemAt xs index
  | _, none => .error .noSuchField

def sizeOf? : Value → Option Nat
  | .symbol _ => some 1
  | .expr _ as _ => some as.length
  | .bindings es => some es.length
  | _ => none

end Symbolic.Value
