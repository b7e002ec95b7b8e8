import Symbolic.Value.Notation

/-!
Everything that an operation can fail with, by cause. Some causes have a message of
their own; the others are failures of an elementary operation on a value of the
wrong sort or size, which need none.
-/
namespace Symbolic

inductive BlankKind where
  | one | sequence | nullSequence
  deriving DecidableEq, Repr

def BlankKind.name : BlankKind → String
  | .one => "Blank"
  | .sequence => "BlankSequence"
  | .nullSequence => "BlankNullSequence"

inductive Error where
  | symbolNameNotText (got : Kind)
  | symbolNameEmpty
  | headNotCallable (got : Kind)
  | attributeNotSymbol (got : Kind)
  | notAtom (got : Kind)
  | truthNotNumeric
  | notNumeric (got : Kind)
  | blankHeadNotSymbol (blank : BlankKind) (got : Kind)
  | notBlank (got : Kind)
  | patternNameNotSymbol (got : Kind)
  | tooFewAlternatives
  | bindingKeyNotSymbol (got : Kind)
  | bindingsNotTable (got : Kind)
  | bindingNameNotSymbol (got : Kind)
  | bindingConflict (name : Symbol) (existing new : Value)
  | unknownValueType (name : String)
  /-- No context of a chain knows the name. -/
  | nameNotFound (key : Value)
  | recursionLimit (limit : Int)
  | iterationLimit (limit : Int)
  /-- An elementary operation met a value of the wrong sort. -/
  | wrongKind
  /-- A table or mapping has no such key. -/
  | missingKey
  | indexOutOfRange
  /-- A value of this sort has no such field or operation. -/
  | noSuchField
  /-- A text or a collection does not have the form that is asked for. -/
  | malformed
  /-- A sequence would have more items than there is room for. -/
  | noRoom
  /-- A text with half of a surrogate pair has no bytes. -/
  | unencodable
  /-- A record whose fields are fixed cannot be changed. -/
  | immutable
  | arithmetic (fault : Number.Fault)
  deriving Repr, Inhabited

namespace Error

def message? : Error → Option String
  | .symbolNameNotText k => some ("Symbol name must be str, got " ++ k.name)
  | .symbolNameEmpty => some "Symbol name cannot be empty"
  | .headNotCallable k => some ("Expression head must be Symbol or Expression, got " ++ k.name)
  | .attributeNotSymbol k => some ("Expression attributes must be Symbols, got " ++ k.name)
  | .notAtom k => some ("Not an atom: " ++ k.name)
  | .truthNotNumeric => some "Cannot convert bool to numeric"
  | .notNumeric k => some ("Cannot convert " ++ k.name ++ " to numeric")
  | .blankHeadNotSymbol b k => some (b.name ++ " head constraint must be Symbol, got " ++ k.name)
  | .notBlank k => some ("Expected blank pattern, got " ++ k.name)
  | .patternNameNotSymbol k => some ("Pattern name must be Symbol, got " ++ k.name)
  | .tooFewAlternatives => some "Alternatives requires at least 2 patterns"
  | .bindingKeyNotSymbol k => some ("Bindings keys must be Symbols, got " ++ k.name)
  | .bindingsNotTable k => some ("Bindings data must be dict or Bindings, got " ++ k.name)
  | .bindingNameNotSymbol k => some ("Binding name must be Symbol, got " ++ k.name)
  | .bindingConflict s existing new =>
    some ("Cannot bind " ++ s.name ++ " to " ++ new.literal ++ ": already bound to " ++ existing.literal)
  | .unknownValueType t => some ("Unknown value type: " ++ t)
  | .nameNotFound key => some key.literal
  | .recursionLimit n => some ("Recursion depth of " ++ Number.intText n ++ " exceeded")
  | .iterationLimit n => some ("Iteration limit of " ++ Number.intText n ++ " exceeded")
  | _ => none

def isLimit : Error → Bool
  | .recursionLimit _ | .iterationLimit _ => true
  | _ => false

end Error
end Symbolic
