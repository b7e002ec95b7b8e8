import Symbolic.Attribute
import Symbolic.Error
import Symbolic.Number.Reading
import Symbolic.Value.Order

/-!
Building and taking apart expressions. An expression can only be headed by a symbol
or another expression; every value of the language has a head, and atoms have the head
that names their sort.
-/
namespace Symbolic.Value

/-- A symbol of a given name, which must not be empty. -/
def makeSymbol : Value → Except Error Value
  | .text s => if s.isEmpty then .error .symbolNameEmpty else .ok (.symbol ⟨s⟩)
  | v => .error (.symbolNameNotText v.kind)

def canHead : Value → Bool
  | .symbol _ | .expr .. => true
  | _ => false

/-- The expression of a head, arguments and attributes, if the head can head one. -/
def build (head : Value) (args : List Value) (attributes : SymbolSet) : Except Error Value :=
  if head.canHead then .ok (.expr head args attributes) else .error (.headNotCallable head.kind)

def apply (head : Value) (args : List Value) : Except Error Value := head.build args .empty

def requireKeys (xs : List Value) : Except Error Unit :=
  if areKeys xs then .ok () else .error .wrongKind

def requireWritable (xs : List Value) : Except Error Unit :=
  if areWritable xs then .ok () else .error .malformed

def shown (v : Value) : Except Error String := do
  requireWritable [v]
  return v.display

def spelled (v : Value) : Except Error String := do
  requireWritable [v]
  return v.literal

/-- The attributes listed by values, all of which must be symbols. -/
def attributeSet (xs : List Value) : Except Error SymbolSet := do
  requireKeys xs
  match xs.find? (!·.isSymbol) with
  | some v => .error (.attributeNotSymbol v.kind)
  | none => .ok (.ofList (xs.filterMap symbol?))

def symbolsOf (xs : List Value) : SymbolSet := .ofList (xs.filterMap symbol?)

def atomHead : Value → Except Error Value
  | .null | .bool _ => .ok (sym "Symbol")
  | .number (.int _) => .ok (sym "Integer")
  | .number (.real ..) => .ok (sym "Real")
  | .number (.complex ..) => .ok (sym "Complex")
  | .text _ => .ok (sym "String")
  | v => .error (.notAtom v.kind)

/-- The head of an element; foreign data has none. -/
def headOf : Value → Except Error Value
  | .expr h _ _ => .ok h
  | .symbol _ => .ok (sym "Symbol")
  | v => v.atomHead

/-- The number that a value denotes: numbers denote themselves and texts are read. -/
def toNumeric : Value → Except Error Value
  | .bool _ => .error .truthNotNumeric
  | .number n => .ok (.number n)
  | .text s =>
    let read : Option Value :=
      if s.contains '.' || s.contains 'e' || s.contains 'E' then (Number.readReal? s).map real
      else (Number.readInt? s).map .int
    match read with
    | some v => .ok v
    | none => .error (.notNumeric .text)
  | v => .error (.notNumeric v.kind)

/-- The widest kind of number among some values; integers if there is none. -/
def widestKind (xs : List Value) : Kind :=
  if xs.any (·.kind == .complex) then .complex
  else if xs.any (·.kind == .real) then .real
  else .int

/-- The items that a value is a sequence of. A text is the sequence of its characters, and an
expression that of its arguments. -/
def items? : Value → Option (List Value)
  | .text s => some (s.toList.map fun c => .text (String.singleton c))
  | .symbol s => some [.text s.name]
  | .expr _ as _ => some as
  | .tuple xs | .list xs | .set xs => some xs
  | .table es => some (es.map Prod.fst)
  | .bindings es => some (es.map fun e => .symbol e.1)
  | _ => none

def occursIn (part : List Char) : List Char → Bool
  | [] => part.isEmpty
  | c :: cs => part.isPrefixOf (c :: cs) || occursIn part cs

def hasMember (collection v : Value) : Except Error Bool :=
  match collection, v with
  | .text s, .text t => .ok (occursIn t.toList s.toList)
  | .text _, _ => .error .wrongKind
  | .set xs, v => do requireKeys [v]; return v.isIn xs
  | .table es, v => do requireKeys [v]; return v.isIn (es.map Prod.fst)
  | .bindings es, v => do requireKeys [v]; return v.isIn (es.map fun e => .symbol e.1)
  | c, v => match c.items? with
    | some xs => .ok (v.isIn xs)
    | none => .error .wrongKind

/-- The item at an index; a negative index counts from the end. -/
def itemAt (xs : List Value) (index : Value) : Except Error Value :=
  match index.number? with
  | some (.int i) =>
    let j := if i < 0 then i + xs.length else i
    if j < 0 then .error .indexOutOfRange
    else match xs[j.toNat]? with
      | some x => .ok x
      | none => .error .indexOutOfRange
  | _ => .error .wrongKind

/-- Replaces every argument by what a function makes of its position and itself. -/
def mapArgs (f : Nat → Value → Except Error Value) : Value → Except Error Value
  | .expr h as t => do
    let bs ← as.zipIdx.mapM fun a => f a.2 a.1
    h.build bs t
  | _ => .error .noSuchField

end Symbolic.Value
