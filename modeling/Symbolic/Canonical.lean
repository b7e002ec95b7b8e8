import Symbolic.Sorting
import Symbolic.Value.Expression

/-!
The structural steps of evaluation: splicing of sequences, flattening of nested
expressions with one head, sorting of arguments into canonical order and threading
over lists.
-/
namespace Symbolic.Value

/-- Replaces every argument `Sequence[…]` by its own arguments, one level deep. -/
def spliceSequences : Value → Value
  | .expr h as t => .expr h (as.flatMap fun a => (a.argsOf? "Sequence").getD [a]) t
  | v => v

/-- The arguments of nested expressions with one head, in order. -/
def flatArgs (head : Value) : List Value → List Value
  | [] => []
  | .expr h as t :: xs =>
    (if h.equal head then flatArgs h as else [.expr h as t]) ++ flatArgs head xs
  | x :: xs => x :: flatArgs head xs

/-- Flattens nested expressions with the head of the whole. -/
def flattenNested : Value → Value
  | .expr h as t => .expr h (flatArgs h as) t
  | v => v

mutual

def depth : Value → Nat
  | .expr _ as _ => depths as + 1
  | _ => 0

def depths : List Value → Nat
  | [] => 0
  | x :: xs => max (depth x) (depths xs)

end

mutual

/-- How many leaves a value has; an expression without arguments is one. -/
def leafCount : Value → Nat
  | .expr _ [] _ => 1
  | .expr _ (a :: as) _ => leafCount a + leafCounts as
  | _ => 1

def leafCounts : List Value → Nat
  | [] => 0
  | x :: xs => leafCount x + leafCounts xs

end

/-- What the canonical order compares, in this order: the sort of a value, its depth, its number of
leaves and its text. -/
structure SortKey where
  rank : Nat
  depth : Nat
  leaves : Nat
  text : String
  deriving DecidableEq, Repr

/-- Numbers come first, then texts, symbols, expressions and the rest. Only expressions are compared
by their size. -/
def sortKey (v : Value) : SortKey :=
  match v with
  | .bool _ | .number _ => ⟨0, 0, 0, v.display⟩
  | .text s => ⟨1, 0, 0, s⟩
  | .symbol s => ⟨2, 0, 0, s.name⟩
  | .expr .. => ⟨3, v.depth, v.leafCount, v.display⟩
  | _ => ⟨4, 0, 0, v.display⟩

def SortKey.compare (a b : SortKey) : Ordering :=
  (Ord.compare a.rank b.rank).then <| (Ord.compare a.depth b.depth).then <|
    (Ord.compare a.leaves b.leaves).then (Text.compare a.text b.text)

def SortKey.le (a b : SortKey) : Bool := a.compare b != .gt

/-- The number that the key of a value ends with; all but numbers end alike. -/
def keyNumber (v : Value) : Number := v.number?.getD (.int 0)

/-- Whether a value comes before another. What their keys do not tell apart is told apart by size, if
it has one. -/
def precedes (a b : SortKey × Value) : Except Error Bool :=
  match a.1.compare b.1 with
  | .lt => .ok true
  | .gt => .ok false
  | .eq =>
    let m := a.2.keyNumber
    let n := b.2.keyNumber
    if m.same n then .ok false else (m.compare .lt n).mapError .arithmetic

/-- Sorts values into canonical order, if they all have a text and can be compared; equals keep their
order. -/
def sorted (xs : List Value) : Except Error (List Value) := do
  requireWritable xs
  return (← sortWith precedes (xs.map fun x => (x.sortKey, x))).map Prod.snd

/-- Sorts the arguments of an expression, unless the sorted ones are equal to them one by one. Fewer
than two are in order. -/
def sortArgs : Value → Except Error Value
  | .expr h as t =>
    if as.length < 2 then .ok (.expr h as t)
    else do
      let bs ← sorted as
      return if sameItems bs as then .expr h as t else .expr h bs t
  | v => .ok v

def listLengths (as : List Value) : List Nat := as.filterMap fun a => (a.argsOf? "List").map List.length

/-- The arguments at one position of a threading: lists give their item at that position. -/
def threadAt (i : Nat) (as : List Value) : List Value :=
  as.map fun a => match a.argsOf? "List" with
    | some xs => xs.getD i a
    | none => a

/-- Threads a head over lists of one length: the list of the head applied to the items at each
position, other arguments being repeated. Lists of different lengths are left alone. -/
def threadLists : Value → Value
  | .expr h as t =>
    match listLengths as with
    | [] => .expr h as t
    | n :: ns =>
      if ns.all (· == n) then ofItems ((List.range n).map fun i => .expr h (threadAt i as) t)
      else .expr h as t
  | v => v

end Symbolic.Value
