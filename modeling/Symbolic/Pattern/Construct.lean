import Symbolic.Pattern.Matching

/-!
Building patterns and reading their parts.
-/
namespace Symbolic.Pattern

open Value

/-- A blank, with the head that it asks for if there is one. -/
def blank (b : BlankKind) (constraint : Value) : Except Error Value :=
  match constraint with
  | .null => .ok (call b.name [])
  | .symbol s => .ok (call b.name [.symbol s])
  | v => .error (.blankHeadNotSymbol b v.kind)

/-- A pattern with a name; without an inner pattern it takes anything. -/
def named (name inner : Value) : Except Error Value :=
  match name with
  | .symbol _ => .ok (call "Pattern" [name, (inner.present?).getD (call "Blank" [])])
  | v => .error (.patternNameNotSymbol v.kind)

/-- A choice of at least two patterns. -/
def alternatives (ps : List Value) : Except Error Value :=
  if ps.length < 2 then .error .tooFewAlternatives else .ok (call "Alternatives" ps)

/-- A construct with a second part that can be left out. -/
def construct (name : String) (inner second : Value) : Value := call name (inner :: second.present?.toList)

/-- The head that a blank asks for, absent if it asks for none. -/
def constraintOf (b : Value) : Except Error Value :=
  match blankKind? b with
  | some _ => .ok (b.args.headD .null)
  | none => .error (.notBlank b.kind)

def blankAccepts (b e : Value) : Except Error Bool := do accepts (← constraintOf b).present? e

def leastLength (b : Value) : Except Error Nat :=
  match blankKind? b with
  | some .nullSequence => .ok 0
  | some _ => .ok 1
  | none => .error (.notBlank b.kind)

/-- How many values a blank takes at most; `none` if there is no bound. -/
def greatestLength (b : Value) : Except Error (Option Nat) :=
  match blankKind? b with
  | some .one => .ok (some 1)
  | some _ => .ok none
  | none => .error (.notBlank b.kind)

/-- An argument of a construct of the given name, absent if there is none. -/
def partOf (name : String) (i : Nat) (v : Value) : Value :=
  ((v.argsOf? name).bind fun as => as[i]?).getD .null

mutual

/-- The names in a pattern, in order. Inside a named pattern only its inner pattern is searched. -/
def namesIn : Value → List Value
  | .expr h as _ =>
    if h.equal (sym "Pattern") then (first? as).toList ++ namesInSecond as else namesInAll as
  | _ => []

def namesInSecond : List Value → List Value
  | _ :: v :: _ => namesIn v
  | _ => []

def namesInAll : List Value → List Value
  | [] => []
  | v :: vs => namesIn v ++ namesInAll vs

end

def nameSet (v : Value) : Except Error Value := do
  requireKeys (namesIn v)
  return .set (distinct (namesIn v))

end Symbolic.Pattern
