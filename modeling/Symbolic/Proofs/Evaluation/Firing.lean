import Symbolic.Proofs.Evaluation.Frame
import Symbolic.Proofs.Pattern.Wrappers

/-!
How a definition finds what it applies to. It looks for a match of its pattern that runs no
evaluator and that takes the attributes of an expression from the expression itself. For a
pattern without conditions and tests, and an expression to which its head adds no attribute
that flattens or sorts, this is the full search: an evaluator would have nothing to run, and
the attributes that apply would change nothing (`matchOne_idle`). A condition or a test on the
left of a definition keeps it from applying at all.
-/
namespace Symbolic

open Value

namespace Pattern

/-- Whether neither a condition nor a test stands in a pattern. -/
def isTestFree (p : Value) : Bool := p.everywhere fun v => !v.hasHead "Condition" && !v.hasHead "PatternTest"

section Idle

variable {σ : Type}

/-- On patterns without conditions and tests, matching with an evaluator goes beside matching without one. -/
theorem counterparts_idle (m : Settings σ) :
    Counterparts m ⟨none, m.maxDepth⟩ id id (fun p => isTestFree p = true) Eq Eq where
  depths := rfl
  patterns := (hereditary_everywhere _).descends
  shape _ := (Shape.map_id _).symm
  role _ := (Role.map_id _).symm
  hasHead _ _ := rfl
  flatten _ _ := by rw [List.map_id, List.map_id, id]
  expr := by
    rintro h _ as t rfl
    exact ⟨h, as, rfl, rfl, List.forall₂_same.2 fun _ _ => rfl⟩
  isExpr paired := by rw [paired]
  items paired := by
    rw [List.forall₂_eq_eq_eq] at paired
    rw [paired]
  flattened head args := by
    rw [List.forall₂_eq_eq_eq] at args ⊢
    rw [head, args]
  equal u := fun paired => by rw [paired]
  accepts c := fun paired => by rw [paired]
  named _ _ fits paired := by
    rw [Option.map_id, id, fits, paired]
    exact Concords.self _
  captured _ _ fits paired := by
    rw [Option.map_id, id, fits, paired]
    exact Concords.self _
  skipped _ _ fits := by
    rw [fits]
    exact Concords.self _
  checked free form := by
    have here := everywhere_here ((hereditary_everywhere _).unwrapHold free)
    simp [hasHead_of_shape.1 _ _ form] at here
  tested free form := by
    have here := everywhere_here ((hereditary_everywhere _).unwrapHold free)
    simp [hasHead_of_shape.2 _ form] at here

/-- A pattern without conditions and tests is matched in the same way whether there is an evaluator or not,
and whether the value is given attributes or has them. -/
theorem matchOne_idle (m : Settings σ) {attrs : Option SymbolSet} {p e : Value} (free : isTestFree p = true)
    (agrees : ∀ a ∈ attrs, Agrees a e) (depth : Nat) (b : Bindings) :
    matchOne ⟨none, m.maxDepth⟩ none depth p e b = matchOne m attrs depth p e b := by
  rw [← matchOne_attributes m (fun _ => agrees) depth b]
  exact ((counterparts_idle m).matching.1 none depth p e b free e b rfl rfl).eq.symm

/-- Without an evaluator a condition or a test on the whole pattern is not met. -/
theorem matchPlain_test {p q t : Value} (form : p = call "Condition" [q, t] ∧ t ≠ .null ∨ p = call "PatternTest" [q, t])
    (e : Value) : (Control.matchPlain p e).Yields (· = none) := by
  have untested : ∀ (test : Except Error Value) (b : Bindings),
      (runTest (σ := Session) ⟨none, defaultDepth⟩ test b).Yields (· = none) := fun _ _ => .pure rfl
  rw [Control.matchPlain, matchOne_eq, if_neg (by decide)]
  rcases form with ⟨rfl, present⟩ | rfl
  · have test : t.present? = some t := by
      cases t with
      | null => exact (present rfl).elim
      | _ => rfl
    cases inner : q.present? with
    | none =>
      have form : shape (unwrapHold (call "Condition" [q, t])) = .condition none (some t) := by
        simp [unwrapHold, shape, shapeOfCall, first?, second?, inner, test]
      rw [form]
      exact .pure rfl
    | some r =>
      have form : shape (unwrapHold (call "Condition" [q, t])) = .condition (some r) (some t) := by
        simp [unwrapHold, shape, shapeOfCall, first?, second?, inner, test]
      rw [form]
      exact .option (.any _) (.pure rfl) fun c _ => untested _ c
  · have form : shape (unwrapHold (call "PatternTest" [q, t])) = .test (some (q, t)) := by
      simp [unwrapHold, shape, shapeOfCall]
    rw [form]
    exact .option (.any _) (.pure rfl) fun c _ => untested _ c

end Idle

end Pattern

def Session.attributesFor (s : Session) (c : ContextId) : Value → SymbolSet
  | .expr h _ t => s.effectiveAttributes c h t
  | _ => .empty

/-- Matching with all that evaluation knows: conditions and tests are evaluated in a context, and the value
is taken to have the given attributes. -/
def matchFully (ev : Evaluator) (c : ContextId) (attrs : SymbolSet) (p e : Value) : Eval (Option Bindings) :=
  Pattern.matchOne ⟨some (ev c), Pattern.defaultDepth⟩ (some attrs) 0 p e .empty

/-- What a definition without a condition would replace a value by, with all that evaluation knows. -/
def Definition.applyFully (ev : Evaluator) (c : ContextId) (attrs : SymbolSet) (d : Definition) (e : Value) :
    Eval (Option Value) := do
  match ← matchFully ev c attrs d.pattern e with
  | none => return none
  | some b => return some (← Step.ofExcept (b.substitute d.replacement))

theorem apply_unconditional {ev : Evaluator} {c : ContextId} {d : Definition} {e : Value}
    (unconditional : d.condition = .null) :
    d.apply ev c e = (do
      match ← Control.matchPlain d.pattern e with
      | none => return none
      | some b => return some (← Step.ofExcept (b.substitute d.replacement))) := by
  refine Pattern.option_congr rfl rfl fun b => ?_
  have admitted : admits ev c d.condition b = pure true := by
    rw [unconditional]
    rfl
  exact congrArg (· >>= _) admitted

/-- A definition of a symbol by itself, without a condition, replaces this symbol and nothing else. -/
theorem apply_symbol {ev : Evaluator} {c : ContextId} {x : Symbol} {r e : Value} :
    (⟨.symbol x, r, .null⟩ : Definition).apply ev c e = pure (if (Value.symbol x).same e then some r else none) := by
  have compared : (Value.symbol x).equal e = (Value.symbol x).same e := by simp [equal, number?]
  rw [apply_unconditional rfl]
  simp only [Control.matchPlain]
  rw [Pattern.matchOne_comparison (.inr (Pattern.shape_literal rfl)), if_neg (by decide), compared]
  split <;> rfl

/-- A symbol whose first own definition is of this kind comes to what its replacement comes to. -/
theorem evaluateSymbol_own {ev : Evaluator} {fuel : Nat} {c : ContextId} {s : Session} {x : Symbol} {r : Value}
    {l : ListId} {more : List Definition} (there : s.definitions? c (.symbol x) .own = some l)
    (holds : s.definitionsOf l = ⟨.symbol x, r, .null⟩ :: more) :
    evaluateSymbol ev (fuel + 1) c (.symbol x) s = ev c r s := by
  have replaced : applyDefinitions ev (fuel + 1) c .own (.symbol x) (.symbol x) s = .ok (some r) s := by
    rw [applyDefinitions, Step.bind_get, there]
    simp only
    rw [applyFrom, Step.bind_get, holds]
    simp only [List.getElem?_cons_zero, apply_symbol, same_refl]
    rfl
  exact Step.bind_of_ok replaced

/-- A definition without a condition, whose pattern has no condition and no test in it, applies to a value
exactly as the full matcher says, if that value has the attributes itself that flatten and sort it. With a
condition or a test on its left a definition never applies. -/
theorem definition_fires (ev : Evaluator) (s : Session) (c : ContextId) (d : Definition) (e : Value)
    (unconditional : d.condition = .null) :
    (Pattern.isTestFree d.pattern = true → Pattern.Agrees (s.attributesFor c e) e →
      d.apply ev c e s = d.applyFully ev c (s.attributesFor c e) e s) ∧
    ∀ p t, d.pattern = call "Condition" [p, t] ∧ t ≠ .null ∨ d.pattern = call "PatternTest" [p, t] →
      ∀ r u, d.apply ev c e s ≠ .ok (some r) u := by
  rw [apply_unconditional unconditional]
  constructor
  · intro free agrees
    have same : Control.matchPlain d.pattern e = matchFully ev c (s.attributesFor c e) d.pattern e :=
      Pattern.matchOne_idle ⟨some (ev c), Pattern.defaultDepth⟩ free (fun a given => Option.some.inj given ▸ agrees) 0 .empty
    exact congrFun (Pattern.option_congr same rfl fun _ => rfl) s
  · intro p t form r u run
    obtain ⟨found, s', matched, run⟩ := Step.bind_ok run
    cases Pattern.matchPlain_test form e s found s' matched
    cases run

/-- `f[b, x_Integer]` applies to an `f[3, b]` that is orderless itself, with the 3 for `x`. -/
theorem definition_fires_orderless :
    let d : Definition := ⟨call "f" [sym "b", call "Pattern" [sym "x", call "Blank" [sym "Integer"]]],
      call "g" [sym "x", sym "x"], .null⟩
    let e : Value := .expr (sym "f") [.int 3, sym "b"] (.ofList [Attribute.orderless])
    let attrs := Session.initial.attributesFor 0 e
    Pattern.isTestFree d.pattern = true ∧ Pattern.Agrees attrs e ∧
      d.apply (evaluate 9) 0 e Session.initial = d.applyFully (evaluate 9) 0 attrs e Session.initial ∧
      Step.returns (fun r => r.any (same (call "g" [.int 3, .int 3]))) (d.apply (evaluate 9) 0 e Session.initial) = true := by
  intro d e attrs
  have free : Pattern.isTestFree d.pattern = true := by decide +kernel
  have agrees : Pattern.Agrees attrs e := ⟨by decide +kernel, by decide +kernel, trivial⟩
  exact ⟨free, agrees, (definition_fires (evaluate 9) Session.initial 0 d e rfl).1 free agrees, by decide +kernel⟩

/-- The definition `f[x_] /; x > 0 → 1` leaves `f[5]` as it is, although its pattern matches; and if a
context makes `f` orderless, `f[b, x_] → x` leaves `f[3, b]` as it is. -/
theorem definition_idle :
    let x := call "Pattern" [sym "x", call "Blank" []]
    let positive : Definition := ⟨call "Condition" [call "f" [x], call "Greater" [sym "x", .int 0]], .int 1, .null⟩
    let swapped : Definition := ⟨call "f" [sym "b", x], sym "x", .null⟩
    let s := Session.initial.updateContext 0 fun k => k.setAttributes (sym "f") [.symbol Attribute.orderless]
    Step.returns Option.isNone (positive.apply (evaluate 9) 0 (call "f" [.int 5]) Session.initial) = true ∧
    Step.returns (fun r => r.any (same (.int 1)))
      (positive.applyFully (evaluate 9) 0 .empty (call "f" [.int 5]) Session.initial) = true ∧
    Step.returns Option.isNone (swapped.apply (evaluate 9) 0 (call "f" [.int 3, sym "b"]) s) = true ∧
    Step.returns (fun r => r.any (same (.int 3))) (swapped.applyFully (evaluate 9) 0
      (s.attributesFor 0 (call "f" [.int 3, sym "b"])) (call "f" [.int 3, sym "b"]) s) = true := by
  decide +kernel

end Symbolic
