import Symbolic.Attribute
import Symbolic.Value.Equality

/-!
Builtins: the functions that the language comes with. A builtin joins an operation
with the attributes that its symbol has.
-/
namespace Symbolic

inductive Operation where
  | plus | times | power | minus | divide | subtract | abs | sqrt | exp | log | sum | product
  | less | greater | lessEqual | greaterEqual | equal | unequal | and | or | not | evenQ | oddQ
  | set | setDelayed
  | ifThen | which | switch
  | compound | evaluate | releaseHold | hold | holdForm
  | doLoop | whileLoop | forLoop | table | nest | nestList | fold | map
  | moduleScope | blockScope | withScope
  | trueQ | sameQ | unsameQ | numericQ | atomQ | headQ | listQ | stringQ | integerQ | realQ
  | request
  /-- Always the given value. -/
  | const (v : Value)
  /-- The number of arguments. -/
  | count
  /-- The first argument. -/
  | first
  /-- The list of the arguments. -/
  | list
  /-- The same expression with its arguments in reverse. -/
  | reverse
  /-- The value of the first argument. -/
  | evaluateFirst
  deriving Repr, Inhabited

structure Builtin where
  symbol : Value
  operation : Operation
  attributes : List Value
  /-- Whether arguments are meant to arrive evaluated. -/
  auto : Bool
  deriving Repr, Inhabited

abbrev Registry := List (Value × Builtin)

namespace Builtin

open Attribute

def named (name : String) (operation : Operation) (attributes : List Symbol) (auto : Bool) : Builtin :=
  ⟨.symbol ⟨name⟩, operation, attributes.map .symbol, auto⟩

def arithmetic : List Builtin :=
  let ring := [flat, orderless, listable, numericFunction]
  let numeric := [listable, numericFunction]
  [named "Plus" .plus ring true, named "Times" .times ring true, named "Power" .power numeric true,
    named "Minus" .minus numeric true, named "Divide" .divide numeric true,
    named "Subtract" .subtract numeric true, named "Abs" .abs numeric true,
    named "Sqrt" .sqrt numeric true, named "Exp" .exp numeric true, named "Log" .log numeric true,
    named "Sum" .sum [holdRest] false, named "Product" .product [holdRest] false]

def comparison : List Builtin :=
  [named "Less" .less [] true, named "Greater" .greater [] true,
    named "LessEqual" .lessEqual [] true, named "GreaterEqual" .greaterEqual [] true,
    named "Equal" .equal [] true, named "Unequal" .unequal [] true,
    named "And" .and [holdAll] false, named "Or" .or [holdAll] false, named "Not" .not [] true,
    named "EvenQ" .evenQ [] true, named "OddQ" .oddQ [] true]

def control : List Builtin :=
  [named "Set" .set [holdFirst] false, named "SetDelayed" .setDelayed [holdAll] false,
    named "If" .ifThen [holdAll] false, named "Which" .which [holdAll] false,
    named "Switch" .switch [holdFirst] false, named "CompoundExpression" .compound [holdAll] false,
    named "Evaluate" .evaluate [holdAll] false, named "ReleaseHold" .releaseHold [holdAll] false,
    named "Hold" .hold [holdAll] false, named "HoldForm" .holdForm [holdAll] false,
    named "Do" .doLoop [holdAll] false, named "While" .whileLoop [holdAll] false,
    named "For" .forLoop [holdAll] false, named "Table" .table [holdAll] false,
    named "Nest" .nest [holdAll] false, named "NestList" .nestList [holdAll] false,
    named "Fold" .fold [holdAll] false, named "Map" .map [holdFirst] false,
    named "Module" .moduleScope [holdAll] false, named "Block" .blockScope [holdAll] false,
    named "With" .withScope [holdAll] false]

def predicates : List Builtin :=
  [named "TrueQ" .trueQ [] true, named "SameQ" .sameQ [] true, named "UnsameQ" .unsameQ [] true,
    named "NumericQ" .numericQ [] true, named "AtomQ" .atomQ [] true, named "HeadQ" .headQ [] true,
    named "ListQ" .listQ [] true, named "StringQ" .stringQ [] true,
    named "IntegerQ" .integerQ [] true, named "RealQ" .realQ [] true]

def all : List Builtin :=
  arithmetic ++ comparison ++ control ++ predicates ++ [named "Request" .request [] true]

def standard : Registry := all.map fun b => (b.symbol, b)

end Builtin
end Symbolic
