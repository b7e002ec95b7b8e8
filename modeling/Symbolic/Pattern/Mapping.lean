import Symbolic.Pattern.Substitution

/-!
Bindings joined with other values that map names to values: tables and bindings.
-/
namespace Symbolic.Bindings

open Value

def toValue (b : Bindings) : Value := .bindings b.entries

def ofSelf : Value → Except Error Bindings
  | .bindings es => .ok (ofEntries es)
  | _ => .error .noSuchField

/-- The entries of a value that maps keys to values. -/
def entriesOf : Value → Except Error (List (Value × Value))
  | .table es => .ok es
  | .bindings es => .ok (ofEntries es).pairs
  | _ => .error .noSuchField

/-- Joins bindings with a mapping. What is empty adds nothing, and empty bindings give the mapping
itself. -/
def mergeWith (b : Bindings) (other : Value) : Except Error Value :=
  if !other.isTruthy then .ok b.toValue
  else if b.isEmpty then .ok other
  else do return (← b.bindAll (← entriesOf other)).toValue

def isCompatibleWith (b : Bindings) (other : Value) : Except Error Bool := do
  let es ← entriesOf other
  return es.all fun e => match e.1.symbol?.bind b.get? with
    | some old => !old.differs e.2
    | none => true

def unbindValue (b : Bindings) (name : Value) : Except Error Bindings := do
  requireKeys [name]
  return match name with
    | .symbol s => b.unbind s
    | _ => b

def getValue (b : Bindings) (name : Value) : Except Error (Option Value) := do
  requireKeys [name]
  return name.symbol?.bind b.get?

/-- Bindings from pairs; a later pair of a name replaces an earlier one. -/
def ofPairs (ps : List Value) : Except Error Bindings := do
  let es ← ps.foldlM (fun es p => match p.items? with
    | some [k, v] => do
      requireKeys [k]
      return writeKey k v es
    | some _ => .error .malformed
    | none => .error .wrongKind) []
  ofTable es

end Symbolic.Bindings

namespace Symbolic.Value

/-- Substitutes what a mapping maps symbols to; what is empty changes nothing. -/
def substituteFrom (v mapping : Value) (splice : Bool) : Except Error Value :=
  match mapping with
  | .bindings es => v.substituteTable splice (Bindings.ofEntries es).pairs
  | .table es => v.substituteTable splice es
  | m => if m.isTruthy then .error .wrongKind else .ok v

end Symbolic.Value
