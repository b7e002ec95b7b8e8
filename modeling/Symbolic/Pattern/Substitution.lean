import Symbolic.Pattern.Bindings

/-!
Substitution of values for symbols. A list that lands among the arguments of an
expression is spliced into them, unless asked not to. An expression in which nothing
changes is kept as it is.
-/
namespace Symbolic.Value

/-- Replaces every argument `List[…]` by its own arguments. -/
def spliceLists (xs : List Value) : List Value :=
  xs.flatMap fun x => (x.argsOf? "List").getD [x]

mutual

/-- Replaces bound symbols by their values, at heads and in arguments. -/
def substitute (splice : Bool) (es : List (Symbol × Value)) : Value → Except Error Value
  | .symbol s => .ok ((Bindings.lookup s es).getD (.symbol s))
  | .expr h as t => do
    let k ← substitute splice es h
    let bs ← substituteAll splice es as
    let bs := if splice then spliceLists bs else bs
    if k.equal h && sameItems bs as then return .expr h as t else k.build bs t
  | v => .ok v

def substituteAll (splice : Bool) (es : List (Symbol × Value)) : List Value → Except Error (List Value)
  | [] => .ok []
  | x :: xs => do
    let y ← substitute splice es x
    let ys ← substituteAll splice es xs
    return y :: ys

end

end Symbolic.Value

namespace Symbolic.Bindings

/-- Substitutes bound values into a value; without bindings nothing changes. -/
def substitute (b : Bindings) (v : Value) : Except Error Value :=
  if b.isEmpty then .ok v else v.substitute true b.entries

end Symbolic.Bindings

namespace Symbolic.Value

/-- Substitutes the symbols among the keys of a table; an empty table changes nothing. -/
def substituteTable (splice : Bool) (es : List (Value × Value)) (v : Value) : Except Error Value :=
  if es.isEmpty then .ok v
  else v.substitute splice (es.filterMap fun e => e.1.symbol?.map (·, e.2))

/-- Writes a key into a table: a new key goes to the end, a present one keeps its place. -/
def writeKey (k v : Value) : List (Value × Value) → List (Value × Value)
  | [] => [(k, v)]
  | (l, w) :: es => if k.same l then (l, v) :: es else (l, w) :: writeKey k v es

def readKey (k : Value) : List (Value × Value) → Option Value
  | [] => none
  | (l, w) :: es => if k.same l then some w else readKey k es

/-- A table from entries; a later entry replaces the value of an equal key before it. -/
def tableOf (es : List (Value × Value)) : Except Error (List (Value × Value)) :=
  es.foldlM (fun acc e => do requireKeys [e.1]; return writeKey e.1 e.2 acc) []

end Symbolic.Value
