import Symbolic.Proofs.Evaluation.Compositional

/-!
More fuel. Fuel is there to make evaluation a function, and it decides nothing else: a run that does not end
for want of fuel is the same run with more of it. This is said of two computations side by side, of which
the second has more fuel. Main statement: one more unit of fuel prolongs evaluation (`evaluate_prolongs`), and
so does any more (`Prolongs.more`).
-/
namespace Symbolic

open Value Session

namespace Step

variable {σ α : Type}

/-- Whether a run ended for want of fuel. -/
def starves : EStateM.Result Halt σ α → Bool
  | .error .outOfFuel _ => true
  | _ => false

@[simp] theorem starves_ending (f : σ → σ) (r : EStateM.Result Halt σ α) : starves (ending f r) = starves r := by
  rcases r with _ | _ | _ <;> rfl

end Step

open Step (starves)

/-- Unless the first of two computations runs out of fuel, the second does the same. -/
def Prolongs {α : Type} (m : Bool → Eval α) : Prop := ∀ s, starves (m false s) = false → m true s = m false s

section Prolonging

variable {α β : Type}

theorem Prolongs.stop {m : Bool → Eval α} (stops : m false = throw .outOfFuel) : Prolongs m := by
  intro s fueled
  rw [stops] at fueled
  cases fueled

theorem Prolongs.bind {m : Bool → Eval α} {k : Bool → α → Eval β} (first : Prolongs m)
    (next : ∀ a, Prolongs fun i => k i a) : Prolongs fun i => m i >>= k i := by
  intro s fueled
  beta_reduce at fueled ⊢
  cases run : m false s with
  | ok a t =>
    have longer := (first s (by rw [run]; rfl)).trans run
    rw [Step.bind_of_ok run] at fueled ⊢
    rw [Step.bind_of_ok longer]
    exact next a t fueled
  | error h t =>
    rw [Step.bind_of_error run] at fueled ⊢
    cases h with
    | outOfFuel => cases fueled
    | failure e => exact Step.bind_of_error ((first s (by rw [run]; rfl)).trans run)

theorem Prolongs.deeper {m : Bool → Eval α} (run : Prolongs m) : Prolongs fun i => deeper (m i) := by
  intro s fueled
  simp only [deeper_eq] at fueled ⊢
  split
  · rfl
  · next room =>
    rw [if_neg room, Step.starves_ending] at fueled
    rw [run s.entered fueled]

theorem compositional_prolongs : Compositional fun α (m : Bool → Eval α) => Prolongs m where
  perform _ := fun _ _ => rfl
  fail _ := fun _ _ => rfl
  bind first next := first.bind next
  count := fun _ _ => rfl
  inside {α m} c run := by
    intro s fueled
    simp only [inside_eq, Step.starves_ending] at fueled ⊢
    rw [run (s.pushed c) fueled]

section More

variable {m : Nat → Eval α} (each : ∀ n, Prolongs fun i => m (n + i.toNat)) {n k : Nat} {s : Session}

include each

theorem Prolongs.more (more : n ≤ k) (fueled : starves (m n s) = false) : m k s = m n s := by
  induction more with
  | refl => rfl
  | @step k _ ih =>
    have still : starves (m k s) = false := by rwa [ih]
    exact (each k s still).trans ih

theorem Prolongs.agree (first : starves (m n s) = false) (second : starves (m k s) = false) : m n s = m k s :=
  (Prolongs.more each (Nat.le_max_left n k) first).symm.trans (Prolongs.more each (Nat.le_max_right n k) second)

theorem Prolongs.unique {a b : α} {t u : Session} (first : m n s = .ok a t) (second : m k s = .ok b u) :
    a = b ∧ t = u := by
  have same := Prolongs.agree each (n := n) (k := k) (s := s) (by rw [first]; rfl) (by rw [second]; rfl)
  rw [first, second] at same
  cases same
  exact ⟨rfl, rfl⟩

end More

end Prolonging

section Loops

variable {ev : Bool → Evaluator} (calls : ∀ c v, Prolongs fun i => ev i c v)

include calls

theorem applyFrom_prolongs (c : ContextId) (l : ListId) (e : Value) (n position : Nat) :
    Prolongs fun i => applyFrom (ev i) c l e (n + i.toNat) position := by
  induction n generalizing position with
  | zero => exact .stop rfl
  | succ n ih =>
    simp only [Nat.add_right_comm n 1]
    refine compositional_prolongs.admissible.read (fun _ _ _ => rfl) fun s => ?_
    cases (s.definitionsOf l)[position]? with
    | none => exact compositional_prolongs.admissible.pure none
    | some d =>
      refine (compositional_prolongs.applyDefinition calls c d e).bind fun found => ?_
      cases found with
      | none => exact ih _
      | some r => exact compositional_prolongs.admissible.pure _

theorem loopWhile_prolongs (c : ContextId) (test : Value) (steps : List Value) (n : Nat) :
    Prolongs fun i => Control.loopWhile (ev i) c test steps (n + i.toNat) := by
  induction n with
  | zero => exact .stop rfl
  | succ n ih =>
    simp only [Nat.add_right_comm n 1]
    have round : Prolongs fun i => Control.sequence (ev i) c nothing steps :=
      compositional_prolongs.tracks.sequence (fun c _ v _ => calls c v) trivial False.elim False.elim
    refine (calls c test).bind fun v => Tracks.choose (round.bind fun _ => ih) ?_
    exact compositional_prolongs.admissible.pure nothing

theorem evaluateWith_prolongs (n : Nat) (c : ContextId) (v : Value) :
    Prolongs fun i => evaluateWith (ev i) (n + i.toNat) c v := by
  refine compositional_prolongs.evaluateWith calls (fun c l e => applyFrom_prolongs calls c l e n 0) (fun c e => ?_) c v
  refine compositional_prolongs.tracks.runBuiltin trivial (fun op _ c _ e _ => ?_) False.elim
  exact compositional_prolongs.operation calls op (fun _ c test steps => loopWhile_prolongs calls c test steps n) c e

end Loops

theorem evaluate_prolongs (n : Nat) (c : ContextId) (v : Value) : Prolongs fun i => evaluate (n + i.toNat) c v := by
  induction n generalizing c v with
  | zero => exact .stop rfl
  | succ n ih =>
    simp only [Nat.add_right_comm n 1]
    exact (evaluateWith_prolongs ih n c v).deeper

theorem evaluate_more {n k : Nat} {c : ContextId} {v r : Value} {s t : Session} (run : evaluate n c v s = .ok r t)
    (more : n ≤ k) : evaluate k c v s = .ok r t := by
  have fueled : starves (evaluate n c v s) = false := by rw [run]; rfl
  exact (Prolongs.more (m := fun n => evaluate n c v) (fun n => evaluate_prolongs n c v) more fueled).trans run

theorem evaluate_unique {n k : Nat} {c : ContextId} {v q r : Value} {s t u : Session}
    (first : evaluate n c v s = .ok q t) (second : evaluate k c v s = .ok r u) : q = r ∧ t = u :=
  Prolongs.unique (m := fun n => evaluate n c v) (fun n => evaluate_prolongs n c v) first second

theorem evaluate_tested {n k : Nat} {c : ContextId} {v r : Value} {s t : Session} {p : Value → Bool}
    (passed : Step.returns p (evaluate n c v s) = true) (run : evaluate k c v s = .ok r t) : p r = true := by
  obtain ⟨q, u, ran, yes⟩ := Step.returns_iff.1 passed
  obtain ⟨rfl, -⟩ := evaluate_unique ran run
  exact yes

end Symbolic
