import Symbolic.Pattern.Substitution
import Symbolic.Pattern.Weight
import Symbolic.Step

/-!
Matching a pattern against a value, and a list of patterns against a list of values.
The parts of a pattern are tried from left to right, and every choice is undone when
what follows does not match. Conditions and tests are run by an evaluator, which
can change a state; without one they do not match. Nesting is cut off at a depth.
-/
namespace Symbolic.Pattern

open Value

/-- What matching depends on besides the pattern and the value. -/
structure Settings (σ : Type) where
  /-- Runs conditions and tests. -/
  evaluator : Option (Value → Step σ Value)
  /-- How deep a pattern is followed. -/
  maxDepth : Int

def defaultDepth : Int := 128

section Search

variable {σ α β : Type}

/-- Runs a search on one choice after the other and joins what is found; a search for one result
ends with the first choice that has one. -/
def collect (all : Bool) (f : α → Step σ (List β)) : List α → Step σ (List β)
  | [] => pure []
  | x :: xs => do
    let found ← f x
    if !all && !found.isEmpty then return found
    return found ++ (← collect all f xs)

/-- The result of the first choice that has one. -/
def firstOf (f : α → Step σ (Option β)) : List α → Step σ (Option β)
  | [] => pure none
  | x :: xs => do
    match ← f x with
    | some r => return some r
    | none => firstOf f xs

/-- Threads a result through a list, up to the first item that gives none. -/
def threadAll (f : α → β → Step σ (Option β)) : List α → β → Step σ (Option β)
  | [], b => pure (some b)
  | x :: xs, b => do
    match ← f x b with
    | some c => threadAll f xs c
    | none => return none

end Search

/-- The ways to cut a list in two, leaving at least `atLeast` items in front and `rest` behind. -/
def cuts (atLeast rest : Nat) (es : List Value) : List (List Value × List Value) :=
  ((List.range (es.length + 1 - rest)).drop atLeast).map fun n => (es.take n, es.drop n)

/-- The ways to take one item out of a list. -/
def picks : List Value → List (Value × List Value)
  | [] => []
  | e :: es => (e, es) :: (picks es).map fun p => (p.1, e :: p.2)

def accepts (constraint : Option Value) (e : Value) : Except Error Bool :=
  match constraint with
  | none => .ok true
  | some c => do return (← e.headOf).equal c

def acceptsAll (constraint : Option Value) : List Value → Except Error Bool
  | [] => .ok true
  | e :: es => do if ← accepts constraint e then acceptsAll constraint es else return false

def holds (v : Value) : Bool :=
  match v with
  | .bool b => b
  | v => !v.differs (sym "True")

/-- Binds a name, if there is one; `none` if it is bound to something else. -/
def bindName (b : Bindings) (name : Option Value) (e : Value) : Except Error (Option Bindings) :=
  match name with
  | none => .ok (some b)
  | some n => match b.bindValue n e with
    | .ok c => .ok (some c)
    | .error (.bindingConflict ..) => .ok none
    | .error err => .error err

/-- The bindings with which an optional pattern is left out, if it can be: a named one needs a
default, which the name is bound to; an unnamed blank needs one too. -/
def skipOptional (b : Bindings) (inner : Value) (default : Option Value) : Except Error (Option Bindings) :=
  match default with
  | none => .ok none
  | some v =>
    if inner.hasHead "Pattern" then
      match first? inner.args with
      | some name => bindName b (some name) v
      | none => .ok none
    else if inner.hasHead "Blank" then .ok (some b)
    else .ok none

variable {σ : Type}

/-- Runs a test on the values that a pattern matched; without an evaluator it fails. -/
def runTest (m : Settings σ) (test : Except Error Value) (b : Bindings) : Step σ (Option Bindings) :=
  match m.evaluator with
  | none => return none
  | some run => do
    let r ← run (← Step.ofExcept test)
    return if holds r then some b else none

mutual

/-- Matches a pattern against one value, extending bindings. `attrs` are the attributes that the
value is taken to have; by default an expression has its own. -/
def matchOne (m : Settings σ) (attrs : Option SymbolSet) (depth : Nat) (p e : Value) (b : Bindings) :
    Step σ (Option Bindings) :=
  if (depth : Int) > m.maxDepth then return none
  else
    match _h : shape (unwrapHold p) with
    | .verbatim none => return none
    | .verbatim (some v) => return if v.equal e then some b else none
    | .blank c => do return if ← Step.ofExcept (accepts c e) then some b else none
    | .named name none => Step.ofExcept (bindName b name e)
    | .named name (some q) => do
      match ← matchOne m none (depth + 1) q e b with
      | none => return none
      | some c => Step.ofExcept (bindName c name e)
    | .condition none _ => return none
    | .condition (some q) test => do
      match ← matchOne m attrs (depth + 1) q e b, test with
      | none, _ => return none
      | some c, none => return some c
      | some c, some t => runTest m (c.substitute t) c
    | .alternatives ps => firstOf (fun q => matchOne m none (depth + 1) q.1 e b) ps.attach
    | .test none => return none
    | .test (some (q, f)) => do
      match ← matchOne m attrs (depth + 1) q e b with
      | none => return none
      | some c => runTest m (f.apply [e]) c
    | .except none _ => return none
    | .except (some x) none => do
      return if (← matchOne m attrs (depth + 1) x e b).isSome then none else some b
    | .except (some x) (some q) => do
      if (← matchOne m attrs (depth + 1) x e b).isSome then return none
      matchOne m attrs (depth + 1) q e b
    | .repeated none => return none
    | .repeated (some q) => matchOne m attrs (depth + 1) q e b
    | .repeatedNull none => return none
    | .repeatedNull (some q) => do return (← matchOne m attrs (depth + 1) q e b).or (some b)
    | .literal v => return if v.equal e then some b else none
    | .foreign => return none
    | .compound h as =>
      match e with
      | .expr k es t => do
        match ← matchOne m attrs (depth + 1) h k b with
        | none => return none
        | some c =>
          let effective := attrs.getD t
          let flat := effective.contains Attribute.flat
          let found ← matchMany m false (effective.contains Attribute.orderless) (depth + 1)
            (if flat then flatten h as else as) (if flat then flatten k es else es) c
          return found.head?
      | _ => return none
termination_by 2 * weight p
decreasing_by
  all_goals refine Nat.lt_of_lt_of_le ?_ (Nat.mul_le_mul_left 2 (weight_unwrapHold_le p))
  · exact twice_lt (weight_part_lt (by simp [_h, Shape.parts]))
  · exact twice_lt (weight_part_lt (by simp [_h, Shape.parts]))
  · exact twice_lt (weight_part_lt (by simpa [_h, Shape.parts] using q.2))
  · exact twice_lt (weight_part_lt (by simp [_h, Shape.parts]))
  · exact twice_lt (weight_part_lt (by simp [_h, Shape.parts]))
  · exact twice_lt (weight_part_lt (by simp [_h, Shape.parts]))
  · exact twice_lt (weight_part_lt (by simp [_h, Shape.parts]))
  · exact twice_lt (weight_part_lt (by simp [_h, Shape.parts]))
  · exact twice_lt (weight_part_lt (by simp [_h, Shape.parts]))
  · exact twice_lt (weight_part_lt (by simp [_h, Shape.parts]))
  · have inside := weights_compound_lt _h
    refine Nat.lt_of_le_of_lt (Nat.succ_le_succ (Nat.mul_le_mul_left 2 ?_))
      (by omega : 2 * weights as + 1 < 2 * weight (unwrapHold p))
    split
    · exact weights_flatten_le h as
    · exact Nat.le_refl _

/-- Matches patterns against values, extending bindings, and gives the bindings of the matches in
order: all of them, or the first. With `orderless` the first pattern that takes one value can take
any of them. -/
def matchMany (m : Settings σ) (all orderless : Bool) (depth : Nat) (ps es : List Value) (b : Bindings) :
    Step σ (List Bindings) :=
  match ps with
  | [] => return if es.isEmpty then [b] else []
  | p :: rest =>
    match _h : role p with
    | .optional none _ => return []
    | .optional (some q) default => do
      let present ← matchMany m all orderless (depth + 1) (q :: rest) es b
      if !all && !present.isEmpty then return present
      match ← Step.ofExcept (skipOptional b q default) with
      | some c => return present ++ (← matchMany m all orderless (depth + 1) rest es c)
      | none => return present
    | .segment name atLeast constraint =>
      collect all (fun (front, back) => do
        if ← Step.ofExcept (acceptsAll constraint front) then
          match ← Step.ofExcept (bindName b name (ofItems front)) with
          | some c => matchMany m all orderless (depth + 1) rest back c
          | none => return []
        else return []) (cuts atLeast (neededAfterSegment rest) es)
    | .repeated none _ => return []
    | .repeated (some q) atLeast =>
      collect all (fun (front, back) => do
        match ← threadAll (fun e c => matchOne m none (depth + 1) q e c) front b with
        | some c => matchMany m all orderless (depth + 1) rest back c
        | none => return []) (cuts atLeast (needed rest) es)
    | .single =>
      match es with
      | [] => return []
      | e :: later =>
        if orderless then
          collect all (fun (x, others) => do
            match ← matchOne m none (depth + 1) p x b with
            | some c => matchMany m all false (depth + 1) rest others c
            | none => return []) (picks (e :: later))
        else do
          match ← matchOne m none (depth + 1) p e b with
          | some c => matchMany m all orderless (depth + 1) rest later c
          | none => return []
termination_by 2 * weights ps + 1
decreasing_by
  · have := weight_optional_lt _h
    simp only [weights]
    omega
  · exact after_lt p rest
  · exact after_lt p rest
  · have := weight_repeated_lt _h
    simp only [weights]
    omega
  · exact after_lt p rest
  · simp only [weights]
    omega
  · exact after_lt p rest
  · simp only [weights]
    omega
  · exact after_lt p rest

end

end Symbolic.Pattern
