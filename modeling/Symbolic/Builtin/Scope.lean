import Symbolic.Builtin.Comparison
import Symbolic.Pattern.Substitution

/-!
Local variables. `Module` gives them new symbols, `With` puts their values in their
place, and `Block` gives them other values in a context of their own.
-/
namespace Symbolic.Scope

open Value

inductive Local where
  /-- Without a value. -/
  | bare (s : Value)
  /-- With an initial value, as `x = v` or `x -> v`. -/
  | initial (target v : Value)
  deriving Repr

/-- Reads one item of a list of locals; other items introduce nothing. -/
def local? (item : Value) : Option Local :=
  match item with
  | .symbol _ => some (.bare item)
  | _ =>
    match (item.argsOf? "Set").or (item.argsOf? "Rule") with
    | some [target, v] => some (.initial target v)
    | _ => none

def locals (spec : Value) : List Local := ((spec.argsOf? "List").getD []).filterMap local?

/-- A new symbol for a variable, which must be a symbol. -/
def freshFor (target : Value) : Eval Value := do
  match target with
  | .symbol s => do
    let (g, session) := (← get).generate s.name
    set session
    return g
  | _ => Step.fail .noSuchField

/-- Gives each local a new symbol, defined as its initial value, and gives the table from the old
symbols to the new ones. -/
def rename (ev : Evaluator) (c : ContextId) : List (Value × Value) → List Local → Eval (List (Value × Value))
  | known, [] => return known
  | known, .bare s :: ls => do
    let g ← freshFor s
    rename ev c (writeKey s g known) ls
  | known, .initial target v :: ls => do
    let g ← freshFor target
    let w ← ev c v
    modify fun s => s.define c g .own [⟨g, w, .null⟩]
    rename ev c (writeKey target g known) ls

def moduleScope (ev : Evaluator) (c : ContextId) (e : Value) : List Value → Eval Value
  | spec :: body :: _ => do
    let table ← rename ev c [] (locals spec)
    ev c (← Step.ofExcept (body.substituteTable false table))
  | _ => return e

/-- Evaluates the initial values, in order, into a table. -/
def constants (ev : Evaluator) (c : ContextId) : List (Value × Value) → List Local → Eval (List (Value × Value))
  | known, [] => return known
  | known, .bare _ :: ls => constants ev c known ls
  | known, .initial target v :: ls => do
    let w ← ev c v
    Step.ofExcept (requireKeys [target])
    constants ev c (writeKey target w known) ls

def withScope (ev : Evaluator) (c : ContextId) (e : Value) : List Value → Eval Value
  | spec :: body :: _ => do
    let table ← constants ev c [] (locals spec)
    ev c (← Step.ofExcept (body.substituteTable false table))
  | _ => return e

/-- The list of own definitions of a variable, a new one if it has none. -/
def ownList (c : ContextId) (target : Value) : Eval ListId := do
  Step.ofExcept (requireKeys [target])
  let s ← get
  match s.definitions? c target .own with
  | some l => return l
  | none => do
    let (l, s) := s.newList []
    set s
    return l

/-- Notes the definitions of each local in the outer context and defines it in the inner one. -/
def shadow (ev : Evaluator) (outer inner : ContextId) :
    List (Value × ListId) → List Local → Eval (List (Value × ListId))
  | saved, [] => return saved
  | saved, .bare s :: ls => do
    let l ← ownList outer s
    modify fun st => st.define inner s .own []
    shadow ev outer inner (Context.write s l saved) ls
  | saved, .initial target v :: ls => do
    let w ← ev outer v
    let l ← ownList outer target
    modify fun st => st.define inner target .own [⟨target, w, .null⟩]
    shadow ev outer inner (Context.write target l saved) ls

/-- Runs a computation with a context on top of the stack and takes it off again. -/
def inside {α : Type} (c : ContextId) (run : Eval α) : Eval α := fun s =>
  match run { s with stack := c :: s.stack } with
  | .ok a s => .ok a { s with stack := s.stack.tail }
  | .error h s => .error h { s with stack := s.stack.tail }

/-- `Block[{x = v, …}, body]` evaluates the body in a new context. Afterwards, if that succeeded, the
outer context holds the definitions that it saw before. -/
def blockScope (ev : Evaluator) (c : ContextId) (e : Value) : List Value → Eval Value
  | spec :: body :: _ => do
    let (inner, s) := (← get).newContext "Block" (some c)
    set s
    let saved ← shadow ev c inner [] (locals spec)
    let r ← inside inner (ev inner body)
    modify fun s => saved.foldl (fun s p => s.updateContext c fun ctx => ctx.setList p.1 .own p.2) s
    return r
  | _ => return e

end Symbolic.Scope
