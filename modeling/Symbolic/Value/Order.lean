import Symbolic.Text.Order
import Symbolic.Value.Equality

/-!
The order of values. Numbers are ordered by size, texts and symbols by code point, sets
by inclusion and compounds by their first items that differ. Values of different
sorts have no order.
-/
namespace Symbolic.Value

open Number (Relation)

def relateSizes (r : Relation) (m n : Nat) : Bool := r.ofOrdering (Ord.compare m n)

/-- Sets are ordered by inclusion. -/
def relateSets (r : Relation) (xs ys : List Value) : Bool :=
  let below := sameMembers xs ys
  let above := sameMembers ys xs
  match r with
  | .le => below
  | .ge => above
  | .lt => below && !above
  | .gt => above && !below

mutual

/-- Whether two values stand in an order relation; `none` if they have no order. -/
def relate (r : Relation) : Value → Value → Option Bool
  | .bool a, w => match w.number? with
    | some n => ((Number.int (if a then 1 else 0)).compare r n).toOption
    | none => none
  | .number m, w => match w.number? with
    | some n => (m.compare r n).toOption
    | none => none
  | .text a, .text b => some (r.ofOrdering (Text.compare a b))
  | .symbol a, .symbol b => some (r.ofOrdering (Text.compare a.name b.name))
  | .symbol a, w => match w.components? with
    | some (.text b :: ys) =>
      if a.name == b then some (relateSizes r 1 (ys.length + 1))
      else some (r.ofOrdering (Text.compare a.name b))
    | some [] => some (relateSizes r 1 0)
    | _ => none
  | .expr h as t, w => match w.components? with
    | none => none
    | some [] => some (relateSizes r 3 0)
    | some (k :: rest) =>
      if !same h k then relate r h k
      else match rest with
        | [] => some (relateSizes r 3 1)
        | b :: rest =>
          if !same (.tuple as) b then
            match b.components? with
            | some bs => relateItems r as bs
            | none => none
          else match rest with
            | [] => some (relateSizes r 3 2)
            | c :: rest =>
              let u := t.members.map Value.symbol
              if !same (.set u) c then
                match c with
                | .set cs => some (relateSets r u cs)
                | _ => none
              else some (relateSizes r 3 (rest.length + 3))
  | .tuple xs, w => match w.components? with
    | some ys => relateItems r xs ys
    | none => none
  | .list xs, .list ys => relateItems r xs ys
  | .set xs, .set ys => some (relateSets r xs ys)
  | _, _ => none

/-- The first items that differ decide; if there are none, the lengths do. -/
def relateItems (r : Relation) : List Value → List Value → Option Bool
  | [], ys => some (relateSizes r 0 ys.length)
  | xs, [] => some (relateSizes r xs.length 0)
  | x :: xs, y :: ys =>
    if !same x y then relate r x y else relateItems r xs ys

end

end Symbolic.Value
