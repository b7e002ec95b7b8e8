import Symbolic.Value.Expression

/-!
Arithmetic on numbers and on expressions with symbolic parts. Numbers among the
arguments are combined; what is left stays an expression.
-/
namespace Symbolic.Arithmetic

open Value

def lift (r : Except Number.Fault Number) : Except Error Value :=
  match r with
  | .ok n => .ok (.number n)
  | .error f => .error (.arithmetic f)

/-- The numbers among some values, and the other values, both in order. -/
def separate (xs : List Value) : List Number × List Value :=
  (xs.filterMap number?, xs.filter (·.number?.isNone))

def sumOf (ns : List Number) : Except Number.Fault Number := ns.foldlM Number.add (.int 0)

def productOf (ns : List Number) : Except Number.Fault Number := ns.foldlM Number.mul (.int 1)

def orFail {α : Type} (r : Except Number.Fault α) : Except Error α :=
  match r with
  | .ok n => .ok n
  | .error f => .error (.arithmetic f)

/-- One value by itself, several as a list. -/
def soleOrList : List Value → Value
  | [v] => v
  | vs => .list vs

def addNumbers (xs : List Value) : Except Error Value := do
  let (ns, rest) := separate xs
  let total ← orFail (sumOf ns)
  return soleOrList (if !total.isZero || rest.isEmpty then .number total :: rest else rest)

/-- The product of the numbers in front of the other values; zero absorbs them. -/
def multiplyNumbers (xs : List Value) : Except Error Value := do
  let (ns, rest) := separate xs
  let product ← orFail (productOf ns)
  if product.isZero then return int 0
  else if rest.isEmpty then return .number product
  else return soleOrList (if product.isOne then rest else .number product :: rest)

/-- The number in front of a product and what it is multiplied with. Both are absent if the value
is no product or has no number in it; the second is absent if it has nothing else. -/
def coefficient (v : Value) : Except Error (Value × Value) :=
  match v.argsOf? "Times" with
  | none => .ok (.null, .null)
  | some as => do
    let (ns, rest) := separate as
    if ns.isEmpty then return (.null, .null)
    let c ← orFail (productOf ns)
    match rest with
    | [] => return (.number c, .null)
    | [r] => return (.number c, r)
    | rs => return (.number c, call "Times" rs)

/-- Replaces arguments with the given head by their own arguments, one level deep. -/
def inline (name : String) (as : List Value) : List Value :=
  as.flatMap fun a => (a.argsOf? name).getD [a]

/-- A term of a sum without its coefficient, if that is one. -/
def simplifyTerm (v : Value) : Except Error Value := do
  match ← coefficient v with
  | (.null, _) => return v
  | (c, rest) => return if c.equal (int 1) && rest.isTruthy then rest else v

/-- One value by itself, several under a head. -/
def soleOrCall (name : String) : List Value → Value
  | [v] => v
  | vs => call name vs

def plus : List Value → Except Error Value
  | [] => .ok (int 0)
  | [a] => .ok a
  | as => do
    let flat := inline "Plus" as
    let total ← orFail (sumOf (flat.filterMap number?))
    let terms ← (flat.filter (·.number?.isNone)).mapM simplifyTerm
    if terms.isEmpty then return .number total
    return soleOrCall "Plus" (if total.isZero then terms else .number total :: terms)

def times : List Value → Except Error Value
  | [] => .ok (int 1)
  | [a] => .ok a
  | as => do
    if as.any (·.equal (int 0)) then return int 0
    let (ns, factors) := separate (inline "Times" as)
    let product ← orFail (productOf ns)
    if product.isZero then return int 0
    else if factors.isEmpty then return if product.isOne then int 1 else .number product
    else return soleOrCall "Times" (if product.isOne then factors else .number product :: factors)

/-- A power of numbers; one that overflows or divides by zero stays as it is. -/
def powerOfNumbers (base exponent : Value) (m n : Number) : Except Error Value := do
  if m.isZero then
    if ← orFail (n.compare .gt (.int 0)) then return int 0
  if m.isOne then return int 1
  if n.isZero then return int 1
  if n.isOne then return base
  match m.pow n with
  | .ok r => return .number r.collapse
  | .error .overflow | .error .divisionByZero => return call "Power" [base, exponent]
  | .error f => .error (.arithmetic f)

def power (e : Value) : List Value → Except Error Value
  | [a] => .ok a
  | [base, exponent] =>
    match base.number?, exponent.number? with
    | some m, some n => powerOfNumbers base exponent m n
    | _, _ =>
      if exponent.equal (int 0) then .ok (int 1)
      else if exponent.equal (int 1) then .ok base
      else if base.equal (int 1) then .ok (int 1)
      else .ok (call "Power" [base, exponent])
  | _ => .ok e

def minus (e : Value) : List Value → Except Error Value
  | [a] => .ok (call "Times" [int (-1), a])
  | _ => .ok e

def divide (e : Value) : List Value → Except Error Value
  | [a, b] =>
    match b.number? with
    | some n =>
      if n.isZero then .ok (call "Times" [a, call "Power" [b, int (-1)]])
      else do return call "Times" [a, ← lift n.inverse]
    | none => .ok (call "Times" [a, call "Power" [b, int (-1)]])
  | _ => .ok e

def subtract (e : Value) : List Value → Except Error Value
  | [a, b] => .ok (call "Plus" [a, call "Times" [int (-1), b]])
  | _ => .ok e

/-- The absolute value of a product whose first factor is below zero is that of its opposite. -/
def absOfProduct (a : Value) : List Value → Except Error Value
  | [] => .error .indexOutOfRange
  | f :: rest =>
    match f.number? with
    | none => .ok (call "Abs" [a])
    | some n => do
      if ← orFail (n.compare .lt (.int 0)) then
        let others := match rest with
          | [r] => r
          | rs => call "Times" rs
        return call "Abs" [call "Times" [.number n.neg, others]]
      else return call "Abs" [a]

def abs (e : Value) : List Value → Except Error Value
  | [a] =>
    match a.number?, a.argsOf? "Times" with
    | some n, _ => lift n.abs
    | none, some as => absOfProduct a as
    | none, none => .ok (call "Abs" [a])
  | _ => .ok e

def sqrt (e : Value) : List Value → Except Error Value
  | [a] =>
    match a.number? with
    | some n => lift n.sqrt
    | none => .ok (call "Power" [a, real 0.5])
  | _ => .ok e

def exp (e : Value) : List Value → Except Error Value
  | [a] =>
    match a with
    | .number n => lift n.exp
    | .bool b => lift (Number.int (if b then 1 else 0)).expComplex
    | _ => .ok (call "Power" [sym "E", a])
  | _ => .ok e

/-- Whether a value is a positive real number; truth values are not. -/
def isPositiveReal : Value → Bool
  | .number n => n.isPositive
  | _ => false

def log (e : Value) : List Value → Except Error Value
  | [a] =>
    match a with
    | .number n => lift n.log
    | .bool b => lift (Number.int (if b then 1 else 0)).logComplex
    | _ => .ok (call "Log" [a])
  | [base, a] =>
    match base, a with
    | .number m, .number n => if m.isPositive && n.isPositive then lift (m.logBase n) else .ok e
    | _, _ => .ok e
  | _ => .ok e

def accumulateSum (acc v : Value) : Except Error Value :=
  match acc.number?, v.number? with
  | some m, some n => lift (m.add n)
  | _, _ => .error .wrongKind

/-- Counts and positions are below this. -/
def indexLimit : Nat := 1 <<< 63

/-- Sequences have fewer items than this. -/
def roomLimit : Nat := 1 <<< 29

/-- How often a sequence is repeated for an integer; a count beyond the range of an index fails. -/
def repetitions (n : Int) : Except Error Nat :=
  if -indexLimit ≤ n ∧ n < indexLimit then .ok n.toNat else .error (.arithmetic .overflow)

/-- Items repeated. No items stay none, however often they are repeated. -/
def repeatList (xs : List Value) (n : Nat) : Except Error (List Value) :=
  if xs.isEmpty then .ok []
  else if roomLimit ≤ xs.length * n then .error .noRoom
  else .ok (List.replicate n xs).flatten

/-- A text repeated. Its length must be in the range of an index and there must be room for it. -/
def repeatText (s : String) (n : Nat) : Except Error String :=
  if s.isEmpty then .ok ""
  else if indexLimit ≤ s.length * n then .error (.arithmetic .overflow)
  else if roomLimit ≤ s.length * n then .error .noRoom
  else .ok (String.join (List.replicate n s))

/-- A sequence repeated. Symbols and expressions are sequences of their components. -/
def repeatItems (v : Value) (n : Int) : Except Error Value :=
  match v with
  | .text s => do return .text (← repeatText s (← repetitions n))
  | .list xs => do return .list (← repeatList xs (← repetitions n))
  | v => match v.components? with
    | some xs => do return .tuple (← repeatList xs (← repetitions n))
    | none => .error .wrongKind

/-- Multiplies a value into a product. An integer times a sequence repeats the sequence. -/
def accumulateProduct (acc v : Value) : Except Error Value :=
  match acc.number?, v.number? with
  | some m, some n => lift (m.mul n)
  | some (.int m), none => repeatItems v m
  | none, some (.int n) => repeatItems acc n
  | _, _ => .error .wrongKind

end Symbolic.Arithmetic
