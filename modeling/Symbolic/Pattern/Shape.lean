import Symbolic.Value.Expression

/-!
What a value means as a pattern. `shape` reads a pattern that stands for one value, and
`role` what a pattern does in an argument list, where it can also take a segment
of arguments or none.
-/
namespace Symbolic.Pattern

open Value

/-- The meaning of a pattern for one value. -/
inductive Shape where
  /-- Exactly the given value. -/
  | verbatim (v : Option Value)
  /-- Any value, or any value with the given head. -/
  | blank (constraint : Option Value)
  /-- A pattern whose match is bound to a name. -/
  | named (name inner : Option Value)
  /-- A pattern and a test over its bindings. -/
  | condition (inner test : Option Value)
  | alternatives (choices : List Value)
  /-- A pattern and a function that is applied to the value. -/
  | test (parts : Option (Value × Value))
  /-- What must not match, and what must match instead. -/
  | except (excluded alternative : Option Value)
  | repeated (inner : Option Value)
  | repeatedNull (inner : Option Value)
  /-- An atom or a symbol. -/
  | literal (v : Value)
  /-- An expression, matched part by part. -/
  | compound (head : Value) (args : List Value)
  /-- Foreign data matches nothing. -/
  | foreign
  deriving Repr

def first? (as : List Value) : Option Value := as.head?.bind present?

def second? (as : List Value) : Option Value := (as.drop 1).head?.bind present?

def shapeOfCall (s : Symbol) (as : List Value) : Shape :=
  if s.name = "Verbatim" then .verbatim as.head?
  else if s.name = "Blank" then .blank (first? as)
  else if s.name = "Pattern" then .named (first? as) (second? as)
  else if s.name = "Condition" then .condition (first? as) (second? as)
  else if s.name = "Alternatives" then .alternatives as
  else if s.name = "PatternTest" then
    .test (match as with
      | p :: f :: _ => some (p, f)
      | _ => none)
  else if s.name = "Except" then .except as.head? (as.drop 1).head?
  else if s.name = "Repeated" then .repeated (first? as)
  else if s.name = "RepeatedNull" then .repeatedNull (first? as)
  else .compound (.symbol s) as

def unwrapHold : Value → Value
  | .expr (.symbol s) (a :: as) t => if s.name = "HoldPattern" then a else .expr (.symbol s) (a :: as) t
  | v => v

def shape : Value → Shape
  | .expr (.symbol s) as _ => shapeOfCall s as
  | .expr h as _ => .compound h as
  | v => if v.isAtom || v.isSymbol then .literal v else .foreign

def blankKind? (v : Value) : Option BlankKind :=
  if v.hasHead "Blank" then some .one
  else if v.hasHead "BlankSequence" then some .sequence
  else if v.hasHead "BlankNullSequence" then some .nullSequence
  else none

/-- What a pattern does in an argument list. -/
inductive Role where
  /-- It takes what the inner pattern takes, or nothing if it has a default. -/
  | optional (inner default : Option Value)
  /-- It takes a segment of values with the given head, which a name is bound to. -/
  | segment (name : Option Value) (atLeast : Nat) (constraint : Option Value)
  /-- It takes a segment each value of which the inner pattern matches. -/
  | repeated (inner : Option Value) (atLeast : Nat)
  /-- It takes one value. -/
  | single
  deriving Repr

/-- The least length of a segment that a sequence blank takes; `none` for other values. -/
def segmentLength? (v : Value) : Option Nat :=
  match blankKind? v with
  | some .sequence => some 1
  | some .nullSequence => some 0
  | _ => none

def role (v : Value) : Role :=
  match segmentLength? v with
  | some n => .segment none n (first? v.args)
  | none =>
    if v.hasHead "Optional" then .optional (first? v.args) (second? v.args)
    else if v.hasHead "Pattern" then
      match second? v.args with
      | some inner => match segmentLength? inner with
        | some n => .segment (first? v.args) n (first? inner.args)
        | none => .single
      | none => .single
    else if v.hasHead "Repeated" then .repeated (first? v.args) 1
    else if v.hasHead "RepeatedNull" then .repeated (first? v.args) 0
    else .single

/-- Whether a value is a sequence blank, named or not, that can take nothing. -/
def takesNothing (v : Value) : Bool :=
  match role v with
  | .segment _ 0 _ => true
  | _ => false

/-- How many values the patterns after a sequence blank are taken to need. -/
def neededAfterSegment (ps : List Value) : Nat := (ps.filter (!takesNothing ·)).length

/-- How many values a list of patterns is taken to need: one for each pattern that cannot take
nothing. An optional pattern counts as one. -/
def needed (ps : List Value) : Nat :=
  (ps.filter fun p => !takesNothing p && !p.hasHead "RepeatedNull").length

/-- Whether a value is headed by one of the symbols that patterns are built with. -/
def isConstruct (v : Value) : Bool :=
  ["Pattern", "Condition", "Alternatives", "PatternTest", "Optional", "Repeated", "RepeatedNull",
    "Except", "Verbatim", "HoldPattern", "Blank", "BlankSequence", "BlankNullSequence"].any v.hasHead

end Symbolic.Pattern
