import Symbolic.Builtin.Basic
import Symbolic.Context
import Symbolic.Web.Message

/-!
The state that evaluation runs on: contexts, the store of definition lists, the stack
of active contexts, limits and counters, the builtins, and the web server that
requests go to.
-/
namespace Symbolic

/-- A registry that overrides another one, or the registry of the language. -/
structure ScopedRegistry where
  parent : Option Nat
  own : Registry
  deriving Inhabited

structure Session where
  contexts : Array Context
  lists : Array (List Definition)
  /-- The active contexts, the innermost first. -/
  stack : List ContextId
  /-- How many evaluations are under way. -/
  depth : Nat
  /-- How many times the evaluation under way has replaced an expression. -/
  iterations : Nat
  recursionLimit : Int
  iterationLimit : Int
  /-- The stems of the symbols generated so far, the last one first. -/
  stems : List String
  registry : Registry
  registries : Array ScopedRegistry
  reply : Web.Reply
  sent : List Web.Sent
  /-- The headers that a request was given and then extended: their place among the tables in its
  arguments, and what they became. -/
  extendedHeaders : Option (Nat × List (Value × Value))
  deriving Inhabited

abbrev Eval (α : Type) := Step Session α

namespace Session

def globalId : ContextId := 0

def defaultRecursionLimit : Int := 256

def defaultIterationLimit : Int := 1000

def initial : Session where
  contexts := #[.fresh "Global" none]
  lists := #[]
  stack := [globalId]
  depth := 0
  iterations := 0
  recursionLimit := defaultRecursionLimit
  iterationLimit := defaultIterationLimit
  stems := []
  registry := Builtin.standard
  registries := #[]
  reply := .unreachable ""
  sent := []
  extendedHeaders := none

variable {α : Type}

/-- What the nearest context has, from a context up through its parents. A parent was made before
its children. -/
def nearest (s : Session) (f : Context → Option α) (c : ContextId) : Option α :=
  match s.contexts[c]? with
  | none => none
  | some ctx => match f ctx with
    | some a => some a
    | none => match ctx.parent with
      | some p => if p < c then nearest s f p else none
      | none => none
termination_by c

def current (s : Session) : ContextId := s.stack.headD globalId

def definitions? (s : Session) (c : ContextId) (v : Value) (k : DefinitionKind) : Option ListId :=
  s.nearest (fun ctx => (ctx.entry v).list? k) c

def definitionsOf (s : Session) (l : ListId) : List Definition := s.lists.getD l []

/-- The default value of a symbol, absent if it has none. -/
def defaultOf (s : Session) (c : ContextId) (v : Value) : Value :=
  (s.nearest (fun ctx => (ctx.entry v).default) c).getD .null

def attributesOf (s : Session) (c : ContextId) (v : Value) : List Value :=
  (s.nearest (fun ctx => Context.find? v ctx.attributes) c).getD []

def symbolNamed? (s : Session) (c : ContextId) (name : String) : Option Value :=
  s.nearest (fun ctx => ctx.symbols.lookup name) c

def builtin? (s : Session) (v : Value) : Option Builtin := Context.find? v s.registry

/-- The builtin of a symbol in a scoped registry, up through the registries that it overrides. -/
def scopedBuiltin? (s : Session) (r : Nat) (v : Value) : Option Builtin :=
  match s.registries[r]? with
  | none => s.builtin? v
  | some reg => match Context.find? v reg.own with
    | some b => some b
    | none => match reg.parent with
      | some p => if p < r then scopedBuiltin? s p v else s.builtin? v
      | none => s.builtin? v
termination_by r

/-- The attributes that apply to an expression: those of its head in the context, those of the
builtin of its head, and its own. -/
def effectiveAttributes (s : Session) (c : ContextId) (head : Value) (own : SymbolSet) : SymbolSet :=
  match head with
  | .symbol _ =>
    let builtin := (s.builtin? head).elim [] Builtin.attributes
    ((Value.symbolsOf (s.attributesOf c head)).union (Value.symbolsOf builtin)).union own
  | _ => own

def updateContext (s : Session) (c : ContextId) (f : Context → Context) : Session :=
  { s with contexts := s.contexts.modify c f }

def newList (s : Session) (ds : List Definition) : ListId × Session :=
  (s.lists.size, { s with lists := s.lists.push ds })

def newContext (s : Session) (name : String) (parent : Option ContextId) : ContextId × Session :=
  (s.contexts.size, { s with contexts := s.contexts.push (.fresh name parent) })

def define (s : Session) (c : ContextId) (v : Value) (k : DefinitionKind) (ds : List Definition) : Session :=
  let (l, s) := s.newList ds
  s.updateContext c fun ctx => ctx.setList v k l

/-- Adds a definition at the end of the list that a symbol has, also one found in a parent, and
makes the context hold that list itself. -/
def addDefinition (s : Session) (c : ContextId) (v : Value) (k : DefinitionKind) (d : Definition) : Session :=
  match s.definitions? c v k with
  | some l =>
    { s with lists := s.lists.modify l (· ++ [d]) }.updateContext c fun ctx => ctx.setList v k l
  | none => s.define c v k [d]

/-- The number that the next generated symbol gets, whatever its stem. -/
def nextSymbol (s : Session) : Nat := s.stems.length + 1

/-- A symbol whose name is the given one followed by a number that was not used before. -/
def generate (s : Session) (stem : String) : Value × Session :=
  (.symbol ⟨stem ++ Nat.repr s.nextSymbol⟩, { s with stems := stem :: s.stems })

end Session
end Symbolic
