import Symbolic.Value.Basic

/-!
Equality of values. Numbers are equal when they stand for the same quantity, whatever
their kind, and this also inside compounds. A NaN on its own equals nothing, but a
compound that holds one is the same as itself.
-/
namespace Symbolic.Value

mutual

/-- Whether two values are the same up to the kind of their numbers. -/
def same : Value → Value → Bool
  | .null, .null => true
  | .bool a, w => match w.number? with
    | some n => (Number.int (if a then 1 else 0)).same n
    | none => false
  | .number m, w => match w.number? with
    | some n => m.same n
    | none => false
  | .text a, .text b => a == b
  | .symbol a, .symbol b => a == b
  | .expr h as t, .expr k bs u => same h k && sameItems as bs && t == u
  | .tuple xs, .tuple ys => sameItems xs ys
  | .list xs, .list ys => sameItems xs ys
  | .set xs, .set ys => xs.length == ys.length && sameMembers xs ys
  | .table es, .table fs => es.length == fs.length && sameEntries es fs
  | .bindings es, .bindings fs => es.length == fs.length && sameBindings es fs
  | _, _ => false

def sameItems : List Value → List Value → Bool
  | [], [] => true
  | x :: xs, y :: ys => same x y && sameItems xs ys
  | _, _ => false

/-- Every value of the first list is the same as one of the second. -/
def sameMembers : List Value → List Value → Bool
  | [], _ => true
  | x :: xs, ys => ys.any (fun y => same x y) && sameMembers xs ys

/-- Every key of the first table has the same value in the second. -/
def sameEntries : List (Value × Value) → List (Value × Value) → Bool
  | [], _ => true
  | (k, v) :: es, fs => fs.any (fun f => same k f.1 && same v f.2) && sameEntries es fs

/-- Every name bound in the first is bound to the same value in the second. -/
def sameBindings : List (Symbol × Value) → List (Symbol × Value) → Bool
  | [], _ => true
  | (s, v) :: es, fs => fs.any (fun f => s == f.1 && same v f.2) && sameBindings es fs

end

/-- Equality. Two numbers are compared as numbers, so a NaN is not equal to itself. -/
def equal (a b : Value) : Bool :=
  match a.number?, b.number? with
  | some m, some n => m.equal n
  | _, _ => a.same b

/-- The items of a value that is laid out as a tuple: a symbol holds its name, an expression its
head, arguments and attributes. -/
def components? : Value → Option (List Value)
  | .symbol s => some [.text s.name]
  | .expr h as t => some [h, .tuple as, .set (t.members.map .symbol)]
  | .tuple xs => some xs
  | _ => none

/-- Whether two values are different. Between a plain tuple and a symbol or expression only the
components count; otherwise this is the negation of equality. -/
def differs : Value → Value → Bool
  | .tuple xs, .symbol s => !sameItems xs [.text s.name]
  | .symbol s, .tuple xs => !sameItems [.text s.name] xs
  | .tuple xs, .expr h as t => !sameItems xs [h, .tuple as, .set (t.members.map .symbol)]
  | .expr h as t, .tuple xs => !sameItems [h, .tuple as, .set (t.members.map .symbol)] xs
  | a, b => !a.equal b

def isIn (v : Value) (xs : List Value) : Bool := xs.any (same v)

/-- Keeps the first of values that are equal. -/
def distinct (xs : List Value) : List Value :=
  xs.foldl (fun acc x => if acc.any (x.equal ·) then acc else acc ++ [x]) []

end Symbolic.Value
