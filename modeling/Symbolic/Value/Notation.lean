import Symbolic.Number.Notation
import Symbolic.Text.Quoted
import Symbolic.Value.Basic

/-!
The written form of values. A value has a display text and a literal text; they differ
for texts, which are quoted in their literal form, for symbols, and for expressions,
whose literal form names their attributes. Inside an expression texts are quoted and
everything else is displayed. A value that holds an integer with too many digits has
neither text.
-/
namespace Symbolic

def Kind.name : Kind → String
  | .null => "NoneType"
  | .bool => "bool"
  | .int => "int"
  | .real => "float"
  | .complex => "complex"
  | .text => "str"
  | .symbol => "Symbol"
  | .expr => "Expression"
  | .tuple => "tuple"
  | .list => "list"
  | .set => "frozenset"
  | .table => "dict"
  | .bindings => "Bindings"

namespace Value

def commaSeparated (ts : List String) : String := ", ".intercalate ts

def boolText (b : Bool) : String := if b then "True" else "False"

mutual

def display : Value → String
  | .null => "None"
  | .bool b => boolText b
  | .number n => n.text
  | .text s => s
  | .symbol s => s.name
  | .expr h as _ => display h ++ "[" ++ commaSeparated (displayArgs as) ++ "]"
  | .tuple xs => "(" ++ commaSeparated (literals xs) ++ (if xs.length == 1 then ",)" else ")")
  | .list xs => "[" ++ commaSeparated (literals xs) ++ "]"
  | .set xs =>
    if xs.isEmpty then "frozenset()" else "frozenset(\x7b" ++ commaSeparated (literals xs) ++ "\x7d)"
  | .table es => "\x7b" ++ commaSeparated (literalEntries es) ++ "\x7d"
  | .bindings es => "\x7b" ++ commaSeparated (displayBindings es) ++ "\x7d"

def literal : Value → String
  | .null => "None"
  | .bool b => boolText b
  | .number n => n.text
  | .text s => Text.quoted s
  | .symbol s => "Symbol(\"" ++ s.name ++ "\")"
  | .expr h as t =>
    let base := display h ++ "[" ++ commaSeparated (displayArgs as) ++ "]"
    if t.isEmpty then base
    else base ++ " \x7battrs: " ++ commaSeparated (t.members.map Symbol.name) ++ "\x7d"
  | .tuple xs => "(" ++ commaSeparated (literals xs) ++ (if xs.length == 1 then ",)" else ")")
  | .list xs => "[" ++ commaSeparated (literals xs) ++ "]"
  | .set xs =>
    if xs.isEmpty then "frozenset()" else "frozenset(\x7b" ++ commaSeparated (literals xs) ++ "\x7d)"
  | .table es => "\x7b" ++ commaSeparated (literalEntries es) ++ "\x7d"
  | .bindings es => "Bindings(\x7b" ++ commaSeparated (literalBindings es) ++ "\x7d)"

/-- The arguments of an expression: texts are quoted. -/
def displayArgs : List Value → List String
  | [] => []
  | .text s :: xs => Text.quoted s :: displayArgs xs
  | x :: xs => display x :: displayArgs xs

def literals : List Value → List String
  | [] => []
  | x :: xs => literal x :: literals xs

def literalEntries : List (Value × Value) → List String
  | [] => []
  | (k, v) :: es => (literal k ++ ": " ++ literal v) :: literalEntries es

def displayBindings : List (Symbol × Value) → List String
  | [] => []
  | (s, v) :: es => (s.name ++ " → " ++ display v) :: displayBindings es

def literalBindings : List (Symbol × Value) → List String
  | [] => []
  | (s, v) :: es => (s.name ++ ": " ++ literal v) :: literalBindings es

end

mutual

/-- Whether a value has a text: every integer in it can be written. -/
def isWritable : Value → Bool
  | .number n => n.isWritable
  | .expr h as _ => isWritable h && areWritable as
  | .tuple xs | .list xs | .set xs => areWritable xs
  | .table es => entriesAreWritable es
  | .bindings es => bindingsAreWritable es
  | _ => true

def areWritable : List Value → Bool
  | [] => true
  | x :: xs => isWritable x && areWritable xs

def entriesAreWritable : List (Value × Value) → Bool
  | [] => true
  | (k, v) :: es => isWritable k && isWritable v && entriesAreWritable es

def bindingsAreWritable : List (Symbol × Value) → Bool
  | [] => true
  | (_, v) :: es => isWritable v && bindingsAreWritable es

end

end Value
end Symbolic
