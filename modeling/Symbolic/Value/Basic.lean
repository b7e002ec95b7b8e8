import Symbolic.Number.Basic
import Symbolic.Symbol

/-!
Values: what expressions are made of and what evaluation yields. The elements of the
language are the atoms (nothing, truth values, numbers, texts), symbols and expressions
`head[arg, …]`. Tuples, lists, sets, tables and bindings can stand inside an
expression as foreign data; evaluation leaves them alone.
-/
namespace Symbolic

inductive Value where
  /-- The absent value. -/
  | null
  | bool (b : Bool)
  | number (n : Number)
  | text (s : String)
  | symbol (s : Symbol)
  /-- An expression: a head, arguments and attributes of its own. -/
  | expr (head : Value) (args : List Value) (attributes : SymbolSet)
  | tuple (items : List Value)
  | list (items : List Value)
  /-- A set of values, each once. -/
  | set (items : List Value)
  /-- A table in the order in which its keys were first written. -/
  | table (entries : List (Value × Value))
  /-- The bindings of pattern names, ordered by name. -/
  | bindings (entries : List (Symbol × Value))
  deriving Repr, Inhabited

inductive Kind where
  | null | bool | int | real | complex | text | symbol | expr | tuple | list | set | table | bindings
  deriving DecidableEq, Repr

namespace Value

@[match_pattern] abbrev int (n : Int) : Value := .number (.int n)

abbrev real (x : Float) : Value := .number (.ofFloat x)

@[match_pattern] abbrev sym (name : String) : Value := .symbol ⟨name⟩

/-- The expression without attributes whose head is the symbol of a given name. -/
@[match_pattern] abbrev call (name : String) (args : List Value) : Value :=
  .expr (sym name) args ⟨[], List.Pairwise.nil⟩

abbrev ofItems (items : List Value) : Value := call "List" items

abbrev nothing : Value := sym "Null"

def kind : Value → Kind
  | .null => .null
  | .bool _ => .bool
  | .number (.int _) => .int
  | .number (.real ..) => .real
  | .number (.complex ..) => .complex
  | .text _ => .text
  | .symbol _ => .symbol
  | .expr .. => .expr
  | .tuple _ => .tuple
  | .list _ => .list
  | .set _ => .set
  | .table _ => .table
  | .bindings _ => .bindings

/-- The number that a value counts as in arithmetic; the truth values count as one and zero. -/
def number? : Value → Option Number
  | .bool b => some (.int (if b then 1 else 0))
  | .number n => some n
  | _ => none

def present? : Value → Option Value
  | .null => none
  | v => some v

def symbol? : Value → Option Symbol
  | .symbol s => some s
  | _ => none

def isSymbol : Value → Bool
  | .symbol _ => true
  | _ => false

def isExpr : Value → Bool
  | .expr .. => true
  | _ => false

/-- Atoms are the values without structure: nothing, truth values, numbers and texts. -/
def isAtom : Value → Bool
  | .null | .bool _ | .number _ | .text _ => true
  | _ => false

/-- Whether a value is an integer that is not a truth value. -/
def int? : Value → Option Int
  | .number (.int n) => some n
  | _ => none

def args : Value → List Value
  | .expr _ as _ => as
  | _ => []

def attributes : Value → SymbolSet
  | .expr _ _ t => t
  | _ => .empty

def hasHead (name : String) : Value → Bool
  | .expr (.symbol s) _ _ => s.name == name
  | _ => false

def argsOf? (name : String) : Value → Option (List Value)
  | .expr (.symbol s) as _ => if s.name == name then some as else none
  | _ => none

/-- Whether a value counts as true: numbers other than zero, and whatever is not empty. A symbol
counts as true. -/
def isTruthy : Value → Bool
  | .null => false
  | .bool b => b
  | .number n => !n.isZero
  | .text s => !s.isEmpty
  | .symbol _ => true
  | .expr _ as _ => !as.isEmpty
  | .tuple xs | .list xs | .set xs => !xs.isEmpty
  | .table es => !es.isEmpty
  | .bindings es => !es.isEmpty

/-- The truth value, or the symbol, for true. -/
def isTrue : Value → Bool
  | .bool b => b
  | .symbol s => s.name == "True"
  | _ => false

/-- The truth value, or the symbol, for false. -/
def isFalse : Value → Bool
  | .bool b => !b
  | .symbol s => s.name == "False"
  | _ => false

mutual

/-- Whether a value can be a key: tables and lists cannot, nor what holds one. -/
def isKey : Value → Bool
  | .expr h as _ => isKey h && areKeys as
  | .tuple xs => areKeys xs
  | .list _ => false
  | .table _ => false
  | .bindings es => entriesAreKeys es
  | _ => true

def areKeys : List Value → Bool
  | [] => true
  | x :: xs => isKey x && areKeys xs

def entriesAreKeys : List (Symbol × Value) → Bool
  | [] => true
  | (_, v) :: es => isKey v && entriesAreKeys es

end

end Value
end Symbolic
