import Symbolic.Session

/-!
Reading and writing what contexts hold, by the name of what is stored, and looking
names up in a row of contexts.
-/
namespace Symbolic

open Value

inductive ValueType where
  | definitions (k : DefinitionKind)
  /-- The value of the symbol where it is left out as an argument. -/
  | default
  deriving DecidableEq, Repr

def ValueType.named : List (String × ValueType) :=
  [("own", .definitions .own), ("down", .definitions .down), ("up", .definitions .up),
    ("sub", .definitions .sub), ("n", .definitions .numeric), ("default", .default),
    ("format", .definitions .format)]

def ValueType.ofName (name : String) : Except Error ValueType :=
  match named.lookup name with
  | some t => .ok t
  | none => .error (.unknownValueType name)

def Definition.toValue (d : Definition) : Value := .tuple [d.pattern, d.replacement, d.condition]

def definitionsValue (ds : List Definition) : Value := .list (ds.map Definition.toValue)

namespace Session

variable (s : Session) (c : ContextId)

/-- What a context or its parents store about a symbol. -/
def stored (v : Value) (typeName : String) : Except Error Value := do
  let t ← ValueType.ofName typeName
  requireKeys [v]
  match t with
  | .default => return s.defaultOf c v
  | .definitions k => return definitionsValue ((s.definitions? c v k).elim [] s.definitionsOf)

/-- Stores definitions, or a default value, about a symbol. -/
def store (v : Value) (typeName : String) (ds : List Definition) (default : Value) : Except Error Session := do
  let t ← ValueType.ofName typeName
  requireKeys [v]
  match t with
  | .default => return s.updateContext c fun ctx => ctx.setDefault v default
  | .definitions k => return s.define c v k ds

/-- Empties what is stored about a symbol under one type, or removes all of it. -/
def clearStored (v : Value) (typeName : Option String) : Except Error Session :=
  match typeName with
  | some t => s.store c v t [] .null
  | none => do
    requireKeys [v]
    return s.updateContext c fun ctx => ctx.clearEntry v

def assignAttributes (v : Value) (xs : List Value) : Except Error Session := do
  requireKeys (v :: xs)
  return s.updateContext c fun ctx => ctx.setAttributes v (distinct xs)

def dropAttributes (v : Value) : Except Error Session := do
  requireKeys [v]
  return s.updateContext c fun ctx => ctx.clearAttributes v

def attributesValue (v : Value) : Except Error Value := do
  requireKeys [v]
  return .set (s.attributesOf c v)

def isAttributed (v a : Value) : Except Error Bool := do
  requireKeys [v, a]
  return a.isIn (s.attributesOf c v)

def internName (name : String) (v : Value) : Session :=
  s.updateContext c fun ctx => ctx.intern name v

/-- What a name, or the name of a symbol, stands for in the first context of a row that knows it. -/
def findInRow (cs : List ContextId) (key : Value) : Except Error (Option Value) := do
  requireKeys [key]
  match key with
  | .symbol n => return cs.findSome? fun c => (s.symbolNamed? c n.name).bind present?
  | .text n => return cs.findSome? fun c => (s.symbolNamed? c n).bind present?
  | _ => return none

/-- What a name stands for in a row of contexts; unknown names are a failure. -/
def getInRow (cs : List ContextId) (key : Value) : Except Error Value := do
  match ← s.findInRow cs key with
  | some v => return v
  | none => .error (.nameNotFound key)

/-- The symbols that the contexts of a row hold themselves, each once. -/
def symbolsInRow (cs : List ContextId) : Except Error (List Value) := do
  let vs := cs.flatMap fun c => (s.contexts[c]?.map fun ctx => ctx.symbols.map Prod.snd).getD []
  requireKeys vs
  return distinct vs

end Session
end Symbolic
