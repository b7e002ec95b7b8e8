import Symbolic.Proofs.Pattern.Quiet
import Symbolic.Rule

/-!
Conditions of rules and conditions of definitions. A rule and a definition with the same sides
and the same condition look for the same match and ask the same question, but they take the answer
differently: for a definition it must be true, for a rule it is enough that it counts as true. They
agree on everything, the result, a failure and the state, unless the answer counts as true and
is not; then the rule applies and the definition does not (`delayed_rule_agrees`).
-/
namespace Symbolic

open Value

theorem isTruthy_of_holds {v : Value} (holds : Pattern.holds v = true) : v.isTruthy = true := by
  cases v with
  | bool b => exact holds
  | symbol x => rfl
  | tuple xs =>
    cases xs with
    | nil => simp [Pattern.holds, differs, sameItems] at holds
    | cons x xs => rfl
  | _ => simp [Pattern.holds, differs, equal, number?, same] at holds

section Conditions

variable (ev : Evaluator) (c : ContextId)

/-- The value of a condition, if there is one, for the bindings of a match. -/
def answer (condition : Value) (b : Bindings) : Eval (Option Value) :=
  condition.present?.mapM fun t => do ev c (← Step.ofExcept (b.substitute t))

theorem allows_eq (r : Rule) (b : Bindings) : r.allows ev c b = (·.all isTruthy) <$> answer ev c r.condition b := by
  rw [Rule.allows, answer]
  cases r.condition.present? with
  | none => rfl
  | some t => simp

theorem admits_eq (condition : Value) (b : Bindings) :
    admits ev c condition b = (·.all Pattern.holds) <$> answer ev c condition b := by
  rw [admits, answer]
  cases condition.present? with
  | none => rfl
  | some t => simp

/-- A pattern matches a value, and its condition, asked of what was matched, comes to an answer. -/
structure Answers (lhs condition e : Value) (s : Session) (b : Bindings) (v : Value) (t : Session) : Prop where
  matched : Control.matchPlain lhs e s = .ok (some b) s
  answered : answer ev c condition b s = .ok (some v) t

variable {ev c} {lhs rhs condition e : Value} {priority : Int} {s t : Session} {b : Bindings} {o : Option Value}

theorem tryOn_eq (matched : Control.matchPlain lhs e s = .ok (some b) s)
    (answered : answer ev c condition b s = .ok o t) :
    Rule.tryOn ev c ⟨lhs, .value rhs, true, condition, priority⟩ e s =
      if o.all isTruthy then (some <$> Step.ofExcept (b.substitute rhs) : Eval (Option Value)) t else .ok none t := by
  rw [Rule.tryOn, Step.bind_of_ok matched]
  simp only [allows_eq, bind_map_left]
  rw [Step.bind_of_ok answered]
  cases o.all isTruthy with
  | false => rfl
  | true => simp [Rule.result]

theorem apply_eq (matched : Control.matchPlain lhs e s = .ok (some b) s)
    (answered : answer ev c condition b s = .ok o t) :
    Definition.apply ev c ⟨lhs, rhs, condition⟩ e s =
      if o.all Pattern.holds then (some <$> Step.ofExcept (b.substitute rhs) : Eval (Option Value)) t else .ok none t := by
  rw [Definition.apply, Step.bind_of_ok matched]
  simp only [admits_eq, bind_map_left]
  rw [Step.bind_of_ok answered]
  cases o.all Pattern.holds with
  | false => rfl
  | true => simp

/-- Where no answer is given, there is nothing to take differently. -/
theorem tryOn_eq_apply (same : ∀ b v t, Answers ev c lhs condition e s b v t → v.isTruthy = Pattern.holds v) :
    Rule.tryOn ev c ⟨lhs, .value rhs, true, condition, priority⟩ e s =
      Definition.apply ev c ⟨lhs, rhs, condition⟩ e s := by
  cases matched : Control.matchPlain lhs e s with
  | error h u => rw [Rule.tryOn, Definition.apply, Step.bind_of_error matched, Step.bind_of_error matched]
  | ok found u =>
    obtain rfl : s = u := (Pattern.matchPlain_quiet lhs e).state matched
    cases found with
    | none =>
      rw [Rule.tryOn, Definition.apply, Step.bind_of_ok matched, Step.bind_of_ok matched]
    | some b =>
      cases answered : answer ev c condition b s with
      | error h u =>
        rw [Rule.tryOn, Definition.apply, Step.bind_of_ok matched, Step.bind_of_ok matched]
        simp only [allows_eq, admits_eq, bind_map_left]
        rw [Step.bind_of_error answered, Step.bind_of_error answered]
      | ok o u =>
        rw [tryOn_eq matched answered, apply_eq matched answered]
        cases o with
        | none => rfl
        | some v => rw [Option.all_some, Option.all_some, same b v u ⟨matched, answered⟩]

end Conditions

/-- A delayed rule and a definition with the same sides and the same condition come to the same result or the
same failure, in the same state, exactly if the answer to the condition counts as true only where
it is true. Otherwise the definition does not apply, and the rule goes on to replace the value. -/
theorem delayed_rule_agrees (ev : Evaluator) (c : ContextId) (lhs rhs condition e : Value) (priority : Int) (s : Session) :
    (Rule.tryOn ev c ⟨lhs, .value rhs, true, condition, priority⟩ e s =
        Definition.apply ev c ⟨lhs, rhs, condition⟩ e s ↔
      ∀ b v t, Answers ev c lhs condition e s b v t → v.isTruthy = Pattern.holds v) ∧
    ∀ b v t, Answers ev c lhs condition e s b v t → v.isTruthy ≠ Pattern.holds v →
      Definition.apply ev c ⟨lhs, rhs, condition⟩ e s = .ok none t ∧
      Rule.tryOn ev c ⟨lhs, .value rhs, true, condition, priority⟩ e s =
        (some <$> Step.ofExcept (b.substitute rhs) : Eval (Option Value)) t := by
  have apart : ∀ b v t, Answers ev c lhs condition e s b v t → v.isTruthy ≠ Pattern.holds v →
      Definition.apply ev c ⟨lhs, rhs, condition⟩ e s = .ok none t ∧
      Rule.tryOn ev c ⟨lhs, .value rhs, true, condition, priority⟩ e s =
        (some <$> Step.ofExcept (b.substitute rhs) : Eval (Option Value)) t := by
    intro b v t answers differ
    have untrue : Pattern.holds v = false := by
      refine Bool.eq_false_iff.2 fun holds => differ ?_
      rw [holds, isTruthy_of_holds holds]
    have truthy : v.isTruthy = true := by simpa [untrue] using differ
    rw [apply_eq answers.matched answers.answered, tryOn_eq answers.matched answers.answered, Option.all_some,
      Option.all_some, untrue, truthy]
    exact ⟨rfl, rfl⟩
  refine ⟨⟨fun agree b v t answers => ?_, tryOn_eq_apply⟩, apart⟩
  by_contra differ
  obtain ⟨idle, fires⟩ := apart b v t answers differ
  rw [idle, fires] at agree
  cases substituted : b.substitute rhs <;> rw [substituted] at agree <;> cases agree

/-- For `f[5]`, the sides `f[x_]` and `g[x]` and the condition `x > 0` make a rule and a definition that agree.
With the condition `x` the answer is a number, and they do not. -/
theorem delayed_rule_agrees_number :
    let lhs := call "f" [call "Pattern" [sym "x", call "Blank" []]]
    let rhs := call "g" [sym "x"]
    let positive := call "Greater" [sym "x", int 0]
    let e := call "f" [int 5]
    let s := Session.initial
    Rule.tryOn (evaluate 9) 0 ⟨lhs, .value rhs, true, positive, 0⟩ e s =
      Definition.apply (evaluate 9) 0 ⟨lhs, rhs, positive⟩ e s ∧
    ∃ b v t, Answers (evaluate 9) 0 lhs (sym "x") e s b v t ∧ v.isTruthy ≠ Pattern.holds v ∧
      Definition.apply (evaluate 9) 0 ⟨lhs, rhs, sym "x"⟩ e s = .ok none t ∧
      Rule.tryOn (evaluate 9) 0 ⟨lhs, .value rhs, true, sym "x", 0⟩ e s =
        (some <$> Step.ofExcept (b.substitute rhs) : Eval (Option Value)) t := by
  intro lhs rhs positive e s
  constructor
  · refine (delayed_rule_agrees (evaluate 9) 0 lhs rhs positive e 0 s).1.2 fun b v t answers => ?_
    have applies : Step.returns Option.isSome (Definition.apply (evaluate 9) 0 ⟨lhs, rhs, positive⟩ e s) = true := by
      decide +kernel
    by_contra differ
    rw [((delayed_rule_agrees (evaluate 9) 0 lhs rhs positive e 0 s).2 b v t answers differ).1] at applies
    cases applies
  · have asked : Step.returns (fun r => r.any (·.any fun v => v.isTruthy && !Pattern.holds v))
        ((Control.matchPlain lhs e >>= fun found => found.mapM (answer (evaluate 9) 0 (sym "x"))) s) = true := by
      decide +kernel
    obtain ⟨r, t, run, tested⟩ := Step.returns_iff.1 asked
    obtain ⟨found, u, matched, rest⟩ := Step.bind_ok run
    obtain rfl : s = u := (Pattern.matchPlain_quiet lhs e).state matched
    cases found with
    | none =>
      obtain ⟨rfl, _⟩ := Step.pure_ok.1 rest
      cases tested
    | some b =>
      rw [Option.mapM_some, map_eq_pure_bind] at rest
      obtain ⟨o, u, answered, returned⟩ := Step.bind_ok rest
      obtain ⟨rfl, rfl⟩ := Step.pure_ok.1 returned
      cases o with
      | none => cases tested
      | some v =>
        have differ : v.isTruthy ≠ Pattern.holds v := by
          obtain ⟨truthy, untrue⟩ : v.isTruthy = true ∧ Pattern.holds v = false := by simpa using tested
          rw [truthy, untrue]
          decide
        have answers : Answers (evaluate 9) 0 lhs (sym "x") e s b v u := ⟨matched, answered⟩
        exact ⟨b, v, u, answers, differ,
          (delayed_rule_agrees (evaluate 9) 0 lhs rhs (sym "x") e 0 s).2 b v u answers differ⟩

/-- The rule `f[x_] :> g[x] /; x` applies to `f[5]`, and the definition with the same parts does not. -/
theorem rule_applies_definition_not :
    let lhs := call "f" [call "Pattern" [sym "x", call "Blank" []]]
    let rhs := call "g" [sym "x"]
    Step.returns (fun r => r.any (same (call "g" [int 5])))
      (Rule.tryOn (evaluate 9) 0 ⟨lhs, .value rhs, true, sym "x", 0⟩ (call "f" [int 5]) Session.initial) = true ∧
    Step.returns Option.isNone
      (Definition.apply (evaluate 9) 0 ⟨lhs, rhs, sym "x"⟩ (call "f" [int 5]) Session.initial) = true := by
  decide +kernel

end Symbolic
