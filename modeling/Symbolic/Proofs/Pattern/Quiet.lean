import Symbolic.Builtin.Control
import Symbolic.Proofs.Computation

/-!
Matching without an evaluator. No condition and no test is run then, so the search for a
match has no effect: whatever the state is, it comes to the same result, or fails in the
same way, and leaves the state as it was.
-/
namespace Symbolic

namespace Step

variable {σ α β : Type}

/-- A computation that neither reads nor changes the state, and does not run out of fuel. -/
def Quiet (x : Step σ α) : Prop := ∃ r : Except Error α, x = ofExcept r

theorem Quiet.ofExcept (r : Except Error α) : (ofExcept r : Step σ α).Quiet := ⟨r, rfl⟩

theorem Quiet.pure (a : α) : (pure a : Step σ α).Quiet := ⟨.ok a, rfl⟩

theorem Quiet.bind {x : Step σ α} {f : α → Step σ β} (first : x.Quiet) (next : ∀ a, (f a).Quiet) :
    (x >>= f).Quiet := by
  obtain ⟨r, rfl⟩ := first
  cases r with
  | ok a =>
    obtain ⟨q, same⟩ := next a
    exact ⟨q, same⟩
  | error e => exact ⟨.error e, rfl⟩

theorem Quiet.state {x : Step σ α} (quiet : x.Quiet) {s t : σ} {a : α} (run : x s = .ok a t) : s = t := by
  obtain ⟨r, rfl⟩ := quiet
  exact (ofExcept_ok.1 run).2

/-- A choice between two ways to go on, by the result of a match. -/
theorem Quiet.option {x : Step σ (Option α)} {f : Option α → Step σ β} (first : x.Quiet) (absent : (f none).Quiet)
    (found : ∀ a, (f (some a)).Quiet) : (x >>= f).Quiet :=
  first.bind fun
    | none => absent
    | some a => found a

end Step

namespace Pattern

open Step

variable {σ α β : Type}

theorem collect_quiet {all : Bool} {f : α → Step σ (List β)} (each : ∀ x, (f x).Quiet) (xs : List α) :
    (collect all f xs).Quiet := by
  induction xs with
  | nil => exact .pure _
  | cons x xs ih =>
    refine (each x).bind fun found => ?_
    by_cases enough : (!all && !found.isEmpty) = true
    · rw [if_pos enough]
      exact .pure _
    · rw [if_neg enough]
      exact ih.bind fun _ => .pure _

theorem firstOf_quiet {f : α → Step σ (Option β)} (each : ∀ x, (f x).Quiet) (xs : List α) :
    (firstOf f xs).Quiet := by
  induction xs with
  | nil => exact .pure _
  | cons x xs ih =>
    refine (each x).bind fun found => ?_
    cases found with
    | none => exact ih
    | some r => exact .pure _

theorem threadAll_quiet {f : α → β → Step σ (Option β)} (each : ∀ x b, (f x b).Quiet) (xs : List α) (b : β) :
    (threadAll f xs b).Quiet := by
  induction xs generalizing b with
  | nil => exact .pure _
  | cons x xs ih =>
    refine (each x b).bind fun found => ?_
    cases found with
    | none => exact .pure _
    | some c => exact ih c

theorem runTest_quiet {m : Settings σ} (idle : m.evaluator = none) (test : Except Error Value) (b : Bindings) :
    (runTest m test b).Quiet := by
  rw [runTest, idle]
  exact .pure _

theorem matching_quiet {m : Settings σ} (idle : m.evaluator = none) :
    (∀ attrs depth p e b, (matchOne m attrs depth p e b).Quiet) ∧
      ∀ all orderless depth ps es b, (matchMany m all orderless depth ps es b).Quiet := by
  apply matchOne.mutual_induct_unfolding m (fun _ _ _ _ _ x => x.Quiet) (fun _ _ _ _ _ _ x => x.Quiet)
  case case1 | case2 | case3 | case7 | case10 | case12 | case15 | case17 | case19 | case20 | case22 =>
    intros
    exact .pure _
  case case4 =>
    intro attrs depth p e b within c form
    exact (Quiet.ofExcept _).bind fun _ => .pure _
  case case5 =>
    intros
    exact .ofExcept _
  case case6 =>
    intro attrs depth p e b within name q form inner
    exact .option inner (.pure _) fun c => .ofExcept _
  case case8 =>
    intro attrs depth p e b within q test form inner
    refine .option inner (.pure _) fun c => ?_
    cases test with
    | none => exact .pure _
    | some t => exact runTest_quiet idle _ _
  case case9 =>
    intro attrs depth p e b within ps form choices
    exact firstOf_quiet choices _
  case case11 =>
    intro attrs depth p e b within q f form inner
    exact .option inner (.pure _) fun c => runTest_quiet idle _ _
  case case13 =>
    intro attrs depth p e b within x form excluded
    exact excluded.bind fun _ => .pure _
  case case14 =>
    intro attrs depth p e b within x q form excluded inner
    refine excluded.bind fun found => ?_
    by_cases matched : found.isSome = true
    · rw [if_pos matched]
      exact .pure _
    · rw [if_neg matched]
      exact inner
  case case16 =>
    intro attrs depth p e b within q form inner
    exact inner
  case case18 =>
    intro attrs depth p e b within q form inner
    exact inner.bind fun _ => .pure _
  case case21 =>
    intro attrs depth p b within h as form k es t head args
    exact .option head (.pure _) fun c => (args c).bind fun _ => .pure _
  case case23 | case24 | case27 | case29 =>
    intros
    exact .pure _
  case case25 =>
    intro all orderless depth es b p rest q default form present absent
    refine present.bind fun found => ?_
    by_cases enough : (!all && !found.isEmpty) = true
    · rw [if_pos enough]
      exact .pure _
    · rw [if_neg enough]
      exact .option (.ofExcept _) (.pure _) fun c => (absent c).bind fun _ => .pure _
  case case26 =>
    intro all orderless depth es b p rest name atLeast constraint form later
    refine collect_quiet (fun cut => ?_) _
    refine (Quiet.ofExcept _).bind fun accepted => ?_
    cases accepted with
    | false => exact .pure _
    | true => exact .option (.ofExcept _) (.pure _) fun c => later _ c
  case case28 =>
    intro all orderless depth es b p rest q atLeast form inner later
    refine collect_quiet (fun cut => ?_) _
    exact .option (threadAll_quiet inner _ _) (.pure _) fun c => later _ c
  case case30 =>
    intro all depth b p rest form e es inner later
    refine collect_quiet (fun pick => ?_) _
    exact .option (inner _) (.pure _) fun c => later _ c
  case case31 =>
    intro all orderless depth b p rest form e es ordered inner later
    exact .option inner (.pure _) fun c => later c

theorem matchPlain_quiet (p v : Value) : (Control.matchPlain p v).Quiet :=
  (matching_quiet rfl).1 none 0 p v .empty

end Pattern
end Symbolic
