import Symbolic.Builtin.Arithmetic
import Symbolic.Builtin.Control
import Symbolic.Builtin.Iteration
import Symbolic.Builtin.Scope
import Symbolic.Web.Request

/-!
Running the operation of a builtin on an expression.
-/
namespace Symbolic

open Value

/-- Runs an operation on an expression. Loops without a bound of their own run on fuel. -/
def Operation.run (op : Operation) (ev : Evaluator) (fuel : Nat) (c : ContextId) (e : Value) : Eval Value :=
  let as := e.args
  match op with
  | .plus => Step.ofExcept (Arithmetic.plus as)
  | .times => Step.ofExcept (Arithmetic.times as)
  | .power => Step.ofExcept (Arithmetic.power e as)
  | .minus => Step.ofExcept (Arithmetic.minus e as)
  | .divide => Step.ofExcept (Arithmetic.divide e as)
  | .subtract => Step.ofExcept (Arithmetic.subtract e as)
  | .abs => Step.ofExcept (Arithmetic.abs e as)
  | .sqrt => Step.ofExcept (Arithmetic.sqrt e as)
  | .exp => Step.ofExcept (Arithmetic.exp e as)
  | .log => Step.ofExcept (Arithmetic.log e as)
  | .sum => Iteration.sum ev c e as
  | .product => Iteration.product ev c e as
  | .less => Comparison.relation .lt ev c e as
  | .greater => Comparison.relation .gt ev c e as
  | .lessEqual => Comparison.relation .le ev c e as
  | .greaterEqual => Comparison.relation .ge ev c e as
  | .equal => Comparison.equality false ev c e as
  | .unequal => Comparison.equality true ev c e as
  | .and => Comparison.conjunction ev c e as
  | .or => Comparison.disjunction ev c e as
  | .not => Comparison.negation ev c e as
  | .evenQ => Comparison.predicate Comparison.isEven ev c as
  | .oddQ => Comparison.predicate Comparison.isOdd ev c as
  | .set => Control.assign ev c e as
  | .setDelayed => Control.assignDelayed c e as
  | .ifThen => Control.conditional ev c e as
  | .which => Control.which ev c e as
  | .switch => Control.switch ev c e as
  | .compound => Control.sequence ev c nothing as
  | .evaluate => Control.force ev c e as
  | .releaseHold => Control.release ev c e as
  | .hold | .holdForm => return e
  | .doLoop => Iteration.loop ev c e as
  | .whileLoop => Control.whileLoop ev fuel c e as
  | .forLoop => Control.forLoop ev fuel c e as
  | .table => Iteration.table ev c e as
  | .nest => Iteration.nest ev c e as
  | .nestList => Iteration.nestList ev c e as
  | .fold => Iteration.fold ev c e as
  | .map => Iteration.map ev c e as
  | .moduleScope => Scope.moduleScope ev c e as
  | .blockScope => Scope.blockScope ev c e as
  | .withScope => Scope.withScope ev c e as
  | .trueQ => Comparison.predicate isTrue ev c as
  | .sameQ => Comparison.sameness ev c e as
  | .unsameQ => Comparison.difference ev c e as
  | .numericQ => Comparison.predicate Comparison.isNumber ev c as
  | .atomQ => Comparison.predicate (!·.isExpr) ev c as
  | .headQ => Comparison.headTest ev c as
  | .listQ => Comparison.predicate (·.hasHead "List") ev c as
  | .stringQ => Comparison.predicate Comparison.isText ev c as
  | .integerQ => Comparison.predicate (·.int?.isSome) ev c as
  | .realQ => Comparison.predicate Comparison.isReal ev c as
  | .request => Web.request as
  | .const v => return v
  | .count => return int as.length
  | .first => match as with
    | a :: _ => return a
    | [] => Step.fail .indexOutOfRange
  | .list => return ofItems as
  | .reverse => match e with
    | .expr h bs t => return .expr h bs.reverse t
    | _ => Step.fail .noSuchField
  | .evaluateFirst => match as with
    | a :: _ => ev c a
    | [] => Step.fail .indexOutOfRange

/-- Runs the builtin of the head of an expression; without one the expression is left as it is. -/
def runBuiltin (ev : Evaluator) (fuel : Nat) (c : ContextId) (e : Value) : Eval Value := do
  match e with
  | .expr (.symbol s) _ _ =>
    match (← get).builtin? (.symbol s) with
    | some b => b.operation.run ev fuel c e
    | none => return e
  | _ => return e

end Symbolic
