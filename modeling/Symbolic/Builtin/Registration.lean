import Symbolic.Builtin.Run

/-!
Adding builtins to the registry of the language or to scoped registries, and calling a
builtin on an expression as it stands.
-/
namespace Symbolic

open Value

def Builtin.make (v : Value) (op : Operation) (attrs : List Value) (auto : Bool) : Except Error Builtin := do
  requireKeys (v :: attrs)
  return ⟨v, op, distinct attrs, auto⟩

namespace Session

variable (s : Session)

/-- Adds a builtin to the language, over one of the same symbol. -/
def register (b : Builtin) : Session := { s with registry := Context.write b.symbol b s.registry }

/-- Makes a registry that overrides another one, or the registry of the language. -/
def newRegistry (parent : Option Nat) : Nat × Session :=
  (s.registries.size, { s with registries := s.registries.push ⟨parent, []⟩ })

def registerIn (r : Nat) (b : Builtin) : Session :=
  { s with registries := s.registries.modify r fun reg => { reg with own := Context.write b.symbol b reg.own } }

def findBuiltin (v : Value) : Except Error (Option Builtin) := do
  requireKeys [v]
  return s.builtin? v

def findScopedBuiltin (r : Nat) (v : Value) : Except Error (Option Builtin) := do
  requireKeys [v]
  return s.scopedBuiltin? r v

end Session

/-- Runs the builtin of the head of an expression without evaluating anything first. -/
def callBuiltin (ev : Evaluator) (fuel : Nat) (c : ContextId) (e : Value) : Eval Value :=
  if e.isExpr then runBuiltin ev fuel c e else Step.fail .noSuchField

def callScopedBuiltin (ev : Evaluator) (fuel : Nat) (r : Nat) (c : ContextId) (e : Value) : Eval Value :=
  match e with
  | .expr h _ _ => do
    match ← Step.ofExcept ((← get).findScopedBuiltin r h) with
    | some b => b.operation.run ev fuel c e
    | none => Step.fail .wrongKind
  | _ => Step.fail .noSuchField

end Symbolic
