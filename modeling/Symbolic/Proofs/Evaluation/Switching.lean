import Symbolic.Proofs.Evaluation.Calls

/-!
What a switch evaluates. `Switch[subject, pattern, value, …]` holds its first argument only, so its patterns and its
values, those that it will not choose as well, are evaluated before the subject is, and what the value it
chooses has come to is evaluated once more. Main statement: the evaluation of a switch is this and nothing else;
it is that of the subject and then of the chosen value alone where the patterns and values are evaluated already.
-/
namespace Symbolic

open Value Session
open Arithmetic (inline)

namespace Control

/-- What stands beside the first pattern that matches, or the default. -/
def chosen (subject : Value) : List Value → Eval (Option Value)
  | p :: v :: more => do if (← matchPlain p subject).isSome then return some v else chosen subject more
  | [v] => return some v
  | [] => return none

theorem firstMatch_eq (ev : Evaluator) (c : ContextId) (subject : Value) (as : List Value) :
    firstMatch ev c subject as = chosen subject as >>= fun v => v.elim (pure nothing) (ev c) := by
  fun_induction firstMatch ev c subject as with
  | case1 p v more ih =>
    rw [chosen, bind_assoc]
    congr 1
    funext found
    split
    · rfl
    · exact ih
  | case2 v => rfl
  | case3 => rfl

end Control

/-- A switch whose other arguments are evaluated. -/
def switchOn (ev : Evaluator) (c : ContextId) (as : List Value) : Eval Value := do
  let r ← Control.switch ev c (call "Switch" as) as
  again ev c (call "Switch" as) r

section Switch

variable {s : Session} {c : ContextId} {subject : Value} {as bs : List Value}

theorem settled_cons : settled (subject :: as) (subject :: bs) = subject :: settled as bs := by
  unfold settled
  rw [sameItems, same_refl, Bool.true_and]
  split <;> rfl

/-- Where the first argument is held and nothing else, the others are evaluated. -/
theorem evaluateArgs_first {ev : Evaluator} {attrs : SymbolSet}
    (complete : attrs.contains Attribute.holdAllComplete = false) (all : attrs.contains Attribute.holdAll = false)
    (first : attrs.contains Attribute.holdFirst = true) :
    evaluateArgs ev c attrs (subject :: as) = (subject :: ·) <$> evaluateAll ev c as := by
  simp only [evaluateArgs, complete, all, first, Bool.or_self, Bool.false_eq_true, if_false, if_true, map_eq_pure_bind]
  rfl

theorem evaluateWith_switch (standard : s.registry = Builtin.standard) (silent : s.Silent c "Switch") {fuel : Nat}
    (still : ∀ bs u, evaluateAll (evaluate (fuel + 1)) c as s = .ok bs u → u.Undefined c "Switch") :
    evaluateWith (evaluate (fuel + 1)) (fuel + 1) c (call "Switch" (subject :: as)) s =
      (evaluateAll (evaluate (fuel + 1)) c as >>= fun bs =>
        switchOn (evaluate (fuel + 1)) c (inline "Sequence" (subject :: settled as bs))) s := by
  have unthreaded : (markings "Switch").contains Attribute.listable = false := by decide
  rw [evaluateWith_silent standard silent (by decide), evaluateOn,
    evaluateArgs_first (by decide) (by decide) (by decide), map_eq_pure_bind, bind_assoc]
  cases ran : evaluateAll (evaluate (fuel + 1)) c as s with
  | error h u => rw [Step.bind_of_error ran, Step.bind_of_error ran]
  | ok bs u =>
    have registry : u.registry = Builtin.standard :=
      ((evaluateAll_keeps (fuel + 1) c as).after ran).registry.trans standard
    rw [Step.bind_of_ok ran, Step.bind_of_ok ran, pure_bind, settled_cons, arrange_spliced (by decide)]
    exact evaluateArranged_undefined .switch registry rfl (still bs u ran) unthreaded

theorem switchOn_eq (ev : Evaluator) (subject : Value) {as : List Value} (some : as ≠ []) :
    switchOn ev c (subject :: as) = (do
      let v ← ev c subject
      let x ← Control.chosen v as
      let r ← x.elim (pure nothing) (ev c)
      again ev c (call "Switch" (subject :: as)) r) := by
  obtain ⟨a, more, rfl⟩ := List.exists_cons_of_ne_nil some
  simp only [switchOn, Control.switch, Control.firstMatch_eq, bind_assoc]

end Switch

/-- A switch evaluates its patterns and values, all of them and in order, before its subject, in which any of them
can fail; what they come to takes their place, with sequences spliced. Then the subject is evaluated, the first
pattern that matches it chooses a value, and that value, which has been evaluated already, is evaluated again. So
nothing but the subject and the chosen value is evaluated if the patterns and values are evaluated already. -/
theorem switch_evaluates_arguments {s : Session} {c : ContextId} {subject : Value} {as : List Value}
    (standard : s.registry = Builtin.standard) (silent : s.Silent c "Switch")
    (still : ∀ n bs u, evaluateAll (evaluate n) c as s.entered = .ok bs u → u.Undefined c "Switch") (fuel : Nat) :
    evaluate (fuel + 2) c (call "Switch" (subject :: as)) s =
      deeper (evaluateAll (evaluate (fuel + 1)) c as >>= fun bs =>
        switchOn (evaluate (fuel + 1)) c (inline "Sequence" (subject :: settled as bs))) s ∧
    (∀ ev subject as, as ≠ [] → switchOn ev c (subject :: as) = (do
      let v ← ev c subject
      let x ← Control.chosen v as
      let r ← x.elim (pure nothing) (ev c)
      again ev c (call "Switch" (subject :: as)) r)) ∧
    (evaluateAll (evaluate (fuel + 1)) c as s.entered = .ok as s.entered →
      (∀ a ∈ subject :: as, a.argsOf? "Sequence" = none) →
      evaluate (fuel + 2) c (call "Switch" (subject :: as)) s =
        deeper (switchOn (evaluate (fuel + 1)) c (subject :: as)) s) := by
  have whole : evaluate (fuel + 2) c (call "Switch" (subject :: as)) s =
      deeper (evaluateAll (evaluate (fuel + 1)) c as >>= fun bs =>
        switchOn (evaluate (fuel + 1)) c (inline "Sequence" (subject :: settled as bs))) s :=
    deeper_congr (evaluateWith_switch (s := s.entered) standard (silent.of_contents rfl rfl) (still (fuel + 1)))
  refine ⟨whole, fun ev subject as some => switchOn_eq ev subject some, fun evaluated single => whole.trans ?_⟩
  refine deeper_congr ?_
  rw [Step.bind_of_ok evaluated, settled_self, inline_of_flat single]

/-- A value that is not chosen assigns, and the switch is left as it is where nothing is to be evaluated. -/
theorem switch_evaluates_arguments_unchosen :
    let as := [int 1, .text "one", int 2, call "Set" [sym "y", int 5]]
    let evaluated := [int 1, .text "one", sym "z", .text "other"]
    Session.initial.registry = Builtin.standard ∧ Session.initial.Silent globalId "Switch" ∧
    (∀ n bs u, evaluateAll (evaluate n) globalId as Session.initial.entered = .ok bs u →
      u.Undefined globalId "Switch") ∧
    evaluate 12 globalId (call "Switch" (int 1 :: as)) Session.initial =
      deeper (evaluateAll (evaluate 11) globalId as >>= fun bs =>
        switchOn (evaluate 11) globalId (inline "Sequence" (int 1 :: settled as bs))) Session.initial ∧
    evaluate 12 globalId (call "Switch" (int 1 :: evaluated)) Session.initial =
      deeper (switchOn (evaluate 11) globalId (int 1 :: evaluated)) Session.initial := by
  intro as evaluated
  have silent := initial_bare.silent "Switch"
  -- The one session that a row comes to is looked through.
  have still : ∀ row, Step.checks (fun _ t => t.isSilent "Switch")
      (evaluateAll (evaluate 11) globalId row Session.initial.entered) = true →
      ∀ n bs u, evaluateAll (evaluate n) globalId row Session.initial.entered = .ok bs u →
        u.Undefined globalId "Switch" := by
    intro row checked n bs u run
    obtain ⟨_, t, known, quiet⟩ := Step.checks_iff.1 checked
    obtain ⟨-, rfl⟩ := Prolongs.unique (m := fun n => evaluateAll (evaluate n) globalId row)
      (fun n => evaluateAll_prolongs n globalId row) known run
    exact (silent_of_isSilent quiet globalId).toUndefined
  have first := still as (by decide +kernel)
  refine ⟨rfl, silent, first, (switch_evaluates_arguments rfl silent first 10).1, ?_⟩
  refine (switch_evaluates_arguments rfl silent (still evaluated (by decide +kernel)) 10).2.2 ?_ (by decide)
  have inside : Session.initial.entered.Silent globalId "z" := (initial_bare.silent "z").of_contents rfl rfl
  have each : ∀ v ∈ evaluated, ∀ t, t = Session.initial.entered → ∃ u, evaluate 11 globalId v t = .ok v u ∧
      u = Session.initial.entered := by
    rintro v member t rfl
    simp only [evaluated, List.mem_cons, List.not_mem_nil, or_false] at member
    rcases member with rfl | rfl | rfl | rfl
    · exact ⟨_, evaluate_atom rfl (by decide) 10, exited_entered (by decide)⟩
    · exact ⟨_, evaluate_atom rfl (by decide) 10, exited_entered (by decide)⟩
    · exact ⟨_, evaluate_unset (inside.undefined .own) (by decide) 9, exited_entered (by decide)⟩
    · exact ⟨_, evaluate_atom rfl (by decide) 10, exited_entered (by decide)⟩
  obtain ⟨_, run, rfl⟩ := evaluateAll_self each rfl
  exact run

/-- A value that is not chosen changes what a symbol is, and one that fails makes the switch fail. -/
theorem unchosen_value_evaluated :
    Step.returns (same (int 5)) ((do
      let _ ← evaluate 12 globalId (call "Switch" [int 1, int 1, .text "one", int 2, call "Set" [sym "y", int 5]])
      evaluate 12 globalId (sym "y") : Eval Value) Session.initial) = true ∧
    (Step.verdict? (evaluate 12 globalId (call "Switch" [int 1, int 1, .text "one", int 2,
      call "Module" [ofItems [call "Set" [int 1, int 2]], sym "y"]]) Session.initial)).any
        (·.toOption.isNone) = true := by
  decide +kernel

end Symbolic
