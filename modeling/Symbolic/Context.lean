import Symbolic.Step
import Symbolic.Value.Expression

/-!
Contexts hold what symbols mean: names, attributes and definitions. A context can have
a parent, in which everything is looked up that it does not hold itself. Lists of
definitions live in a store of their own, since several contexts can share one list.
-/
namespace Symbolic

/-- A definition: what matches the pattern, under the condition, is replaced. The condition is
absent if there is none. -/
structure Definition where
  pattern : Value
  replacement : Value
  condition : Value
  deriving Repr, Inhabited

/-- The kinds of definitions that come as lists. -/
inductive DefinitionKind where
  /-- Definitions of a symbol itself. -/
  | own
  /-- Definitions of expressions that the symbol heads. -/
  | down
  /-- Definitions of expressions that the symbol is an argument of. -/
  | up
  /-- Definitions of expressions whose head the symbol heads. -/
  | sub
  /-- Numerical approximations. -/
  | numeric
  /-- Written forms. -/
  | format
  deriving DecidableEq, Repr

/-- The name of a list of definitions in the store. -/
abbrev ListId := Nat

structure Entry where
  lists : List (DefinitionKind × ListId)
  /-- The default value of the symbol as an argument. -/
  default : Option Value
  deriving Repr, Inhabited

namespace Entry

def empty : Entry := ⟨[], none⟩

def list? (e : Entry) (k : DefinitionKind) : Option ListId := e.lists.lookup k

def setList (e : Entry) (k : DefinitionKind) (l : ListId) : Entry :=
  { e with lists := (k, l) :: e.lists.filter fun p => p.1 != k }

end Entry

/-- The name of a context in a session. -/
abbrev ContextId := Nat

/-- A context. Its tables are keyed by values, symbols as a rule. -/
structure Context where
  name : String
  parent : Option ContextId
  symbols : List (String × Value)
  attributes : List (Value × List Value)
  entries : List (Value × Entry)
  deriving Repr, Inhabited

namespace Context

def fresh (name : String) (parent : Option ContextId) : Context := ⟨name, parent, [], [], []⟩

def text (c : Context) : String := "EvaluationContext(" ++ Text.quoted c.name ++ ")"

variable {α : Type}

/-- What a table holds under a key. -/
def find? (k : Value) : List (Value × α) → Option α
  | [] => none
  | (l, a) :: es => if k.same l then some a else find? k es

/-- Writes under a key; a new key goes to the end. -/
def write (k : Value) (a : α) : List (Value × α) → List (Value × α)
  | [] => [(k, a)]
  | (l, b) :: es => if k.same l then (l, a) :: es else (l, b) :: write k a es

def erase (k : Value) (es : List (Value × α)) : List (Value × α) := es.filter fun e => !k.same e.1

def entry (c : Context) (s : Value) : Entry := (find? s c.entries).getD .empty

def setList (c : Context) (s : Value) (k : DefinitionKind) (l : ListId) : Context :=
  { c with entries := write s ((c.entry s).setList k l) c.entries }

def setDefault (c : Context) (s v : Value) : Context :=
  { c with entries := write s { c.entry s with default := some v } c.entries }

/-- Removes everything stored about a symbol except its attributes. -/
def clearEntry (c : Context) (s : Value) : Context := { c with entries := erase s c.entries }

def setAttributes (c : Context) (s : Value) (as : List Value) : Context :=
  { c with attributes := write s as c.attributes }

def clearAttributes (c : Context) (s : Value) : Context := { c with attributes := erase s c.attributes }

/-- Writes a symbol under a name; a new name goes to the end. -/
def writeName (name : String) (s : Value) : List (String × Value) → List (String × Value)
  | [] => [(name, s)]
  | (n, t) :: es => if name = n then (n, s) :: es else (n, t) :: writeName name s es

def intern (c : Context) (name : String) (s : Value) : Context :=
  { c with symbols := writeName name s c.symbols }

end Context
end Symbolic
