import Symbolic.Proofs.Evaluation.Compositional

/-!
What evaluation leaves as it found it. Whether it comes to a result or stops on the way,
the depth, the limits and the active contexts are afterwards those from before; while it
is under way the depth never passes the limit; and what evaluations before it counted
makes no difference to an outermost one.
-/
namespace Symbolic

open Value Session

namespace Session

/-- Between the two sessions nothing was taken away, and the frame is the same up to the count of
replacements. -/
structure Kept (s t : Session) : Prop extends Grows s t where
  depth : t.depth = s.depth
  recursionLimit : t.recursionLimit = s.recursionLimit
  iterationLimit : t.iterationLimit = s.iterationLimit
  stack : t.stack = s.stack

theorem Kept.refl (s : Session) : Kept s s := ⟨.refl s, rfl, rfl, rfl, rfl⟩

theorem Kept.trans {s t u : Session} (first : Kept s t) (second : Kept t u) : Kept s u where
  toGrows := first.toGrows.trans second.toGrows
  depth := second.depth.trans first.depth
  recursionLimit := second.recursionLimit.trans first.recursionLimit
  iterationLimit := second.iterationLimit.trans first.iterationLimit
  stack := second.stack.trans first.stack

theorem Kept.popped {s t : Session} {c : ContextId} (kept : Kept (s.pushed c) t) : Kept s t.popped :=
  ⟨⟨kept.registry, kept.stems, kept.lists⟩, kept.depth, kept.recursionLimit, kept.iterationLimit, congrArg List.tail kept.stack⟩

theorem Kept.exited {s t : Session} (kept : Kept s.entered t) : Kept s t.exited :=
  ⟨⟨kept.registry, kept.stems, kept.lists⟩, congrArg (· - 1) kept.depth, kept.recursionLimit, kept.iterationLimit, kept.stack⟩

theorem Plain.kept {α : Type} {f : Session → α × Session} (plain : Plain f) (s : Session) : Kept s (f s).2 := by
  have same := plain.frame s
  simp only [Session.frame, Frame.mk.injEq] at same
  exact ⟨plain.grows s, same.1, same.2.2.1, same.2.2.2.1, same.2.2.2.2⟩

end Session

/-- A computation that keeps every session it is run in, also if it stops. -/
def Keeps {α : Type} (m : Eval α) : Prop := ∀ s, Kept s (Step.final (m s))

section Keeping

variable {α β : Type}

theorem Keeps.after {m : Eval α} (keeps : Keeps m) {s t : Session} {a : α} (run : m s = .ok a t) : Kept s t := by
  have kept := keeps s
  rwa [run] at kept

theorem Keeps.bind {m : Eval α} {k : α → Eval β} (first : Keeps m) (next : ∀ a, Keeps (k a)) : Keeps (m >>= k) := by
  intro s
  have before := first s
  show Kept s (Step.final (EStateM.bind m k s))
  unfold EStateM.bind
  split
  · next a t run =>
    rw [run] at before
    exact before.trans (next a t)
  · next h t run =>
    rw [run] at before
    exact before

theorem countReplacement_keeps : Keeps countReplacement := by
  intro s
  rw [countReplacement_eq]
  split
  · exact ⟨.of_lists rfl (List.suffix_refl _) rfl, rfl, rfl, rfl, rfl⟩
  · exact ⟨.of_lists rfl (List.suffix_refl _) rfl, rfl, rfl, rfl, rfl⟩

theorem Keeps.inside {m : Eval α} (c : ContextId) (run : Keeps m) : Keeps (Scope.inside c m) := by
  intro s
  rw [inside_eq, Step.final_ending]
  exact (run (s.pushed c)).popped

theorem Keeps.deeper {m : Eval α} (run : Keeps m) : Keeps (deeper m) := by
  intro s
  rw [deeper_eq]
  split
  · exact ⟨.of_lists rfl (List.suffix_refl _) rfl, rfl, rfl, rfl, rfl⟩
  · rw [Step.final_ending]
    exact (run s.entered).exited

theorem compositional_keeps : Compositional fun α (m : Unit → Eval α) => Keeps (m ()) where
  perform plain s := plain.kept s
  fail _ s := .refl s
  bind first next := first.bind next
  count := countReplacement_keeps
  inside c run := run.inside c

end Keeping

theorem evaluate_keeps (fuel : Nat) (c : ContextId) (v : Value) : Keeps (evaluate fuel c v) := by
  induction fuel generalizing c v with
  | zero => exact fun s => .refl s
  | succ fuel ih =>
    refine Keeps.deeper ?_
    exact compositional_keeps.evaluateWith_of_stops (fun _ => evaluate fuel) ih (fun α s => .refl s) fuel c v

theorem evaluateWith_keeps (n : Nat) (c : ContextId) (v : Value) : Keeps (evaluateWith (evaluate n) n c v) :=
  compositional_keeps.evaluateWith_of_stops (fun _ => evaluate n) (evaluate_keeps n) (fun _ s => .refl s) n c v

/-! ### The depth on the way -/

/-- Runs a computation, and an alarm in its place if the depth is beyond the limit before it or
after it. -/
def watch (alarm m : Eval Value) : Eval Value := fun s =>
  if (s.depth : Int) ≤ s.recursionLimit then
    if ((Step.final (m s)).depth : Int) ≤ (Step.final (m s)).recursionLimit then m s else alarm (Step.final (m s))
  else alarm s

/-- Evaluation under watch: from the point where the limit has been checked, up to the end, and around
every evaluation that this one leads to. -/
def evaluateWatched (alarm : Eval Value) : Nat → Evaluator
  | 0, _, _ => throw .outOfFuel
  | fuel + 1, c, v => deeper (watch alarm
    (evaluateWith (fun c v => watch alarm (evaluateWatched alarm fuel c v)) fuel c v))

/-- The two computations of a pair do the same wherever the depth is within the limit, and keep the
session. -/
def SameWithin {α : Type} (m : Bool → Eval α) : Prop :=
  ∀ s : Session, (s.depth : Int) ≤ s.recursionLimit → m true s = m false s ∧ Kept s (Step.final (m false s))

theorem Session.Kept.within {s t : Session} (kept : Kept s t) (within : (s.depth : Int) ≤ s.recursionLimit) :
    (t.depth : Int) ≤ t.recursionLimit := by
  rw [kept.depth, kept.recursionLimit]
  exact within

theorem sameWithin_of_keeps {α : Type} {m : Eval α} (keeps : Keeps m) : SameWithin fun _ => m :=
  fun s _ => ⟨rfl, keeps s⟩

theorem compositional_sameWithin : Compositional @SameWithin where
  perform plain := sameWithin_of_keeps plain.kept
  fail _ := sameWithin_of_keeps .refl
  bind {α β m k} first next := by
    intro s within
    obtain ⟨same, kept⟩ := first s within
    show EStateM.bind (m true) (k true) s = EStateM.bind (m false) (k false) s ∧
      Kept s (Step.final (EStateM.bind (m false) (k false) s))
    unfold EStateM.bind
    rw [same]
    cases run : m false s with
    | ok a t =>
      rw [run] at kept
      obtain ⟨sameNext, keptNext⟩ := next a t (kept.within within)
      exact ⟨sameNext, kept.trans keptNext⟩
    | error h t =>
      rw [run] at kept
      exact ⟨rfl, kept⟩
  count := sameWithin_of_keeps countReplacement_keeps
  inside {α m} c run := by
    intro s within
    obtain ⟨same, kept⟩ := run (s.pushed c) within
    show Scope.inside c (m true) s = Scope.inside c (m false) s ∧ Kept s (Step.final (Scope.inside c (m false) s))
    rw [inside_eq, inside_eq, same, Step.final_ending]
    exact ⟨rfl, kept.popped⟩

theorem watch_eq {alarm m : Eval Value} {s : Session} (keeps : Keeps m) (within : (s.depth : Int) ≤ s.recursionLimit) :
    watch alarm m s = m s := by
  rw [watch, if_pos within, if_pos ((keeps s).within within)]

/-- The alarm is never run, so the watch makes no difference. -/
theorem evaluateWatched_eq (alarm : Eval Value) (fuel : Nat) (c : ContextId) (v : Value) :
    evaluateWatched alarm fuel c v = evaluate fuel c v := by
  induction fuel generalizing c v with
  | zero => rfl
  | succ fuel ih =>
    -- The members of the family: nested evaluations under watch, and as they are.
    let ev : Bool → Evaluator := fun watched c v =>
      if watched then watch alarm (evaluateWatched alarm fuel c v) else evaluate fuel c v
    have calls : ∀ c v, SameWithin fun i => ev i c v := by
      intro c v s within
      refine ⟨?_, evaluate_keeps fuel c v s⟩
      show watch alarm (evaluateWatched alarm fuel c v) s = evaluate fuel c v s
      rw [ih, watch_eq (evaluate_keeps fuel c v) within]
    have same := compositional_sameWithin.evaluateWith_of_stops ev calls
      (fun α => sameWithin_of_keeps .refl) fuel c v
    funext s
    show deeper (watch alarm (evaluateWith (ev true) fuel c v)) s = deeper (evaluateWith (ev false) fuel c v) s
    rw [deeper_eq, deeper_eq]
    by_cases exceeded : (s.depth + 1 : Int) > s.recursionLimit
    · rw [if_pos exceeded, if_pos exceeded]
    · rw [if_neg exceeded, if_neg exceeded]
      have within : (s.entered.depth : Int) ≤ s.entered.recursionLimit := Int.not_lt.1 exceeded
      have equal : evaluateWith (ev true) fuel c v s.entered = evaluateWith (ev false) fuel c v s.entered :=
        (same s.entered within).1
      rw [watch, if_pos within, equal, if_pos ((same s.entered within).2.within within)]

/-- Whatever evaluation comes to, it restores the depth, the limits and the active contexts; on its way
it is never deeper than the limit, so that an alarm for that case never sounds; and the count of
replacements left by earlier evaluations does not matter to an outermost one. -/
theorem evaluate_restores (fuel : Nat) (c : ContextId) (v : Value) (s : Session) :
    ((Step.final (evaluate fuel c v s)).depth = s.depth ∧
      (Step.final (evaluate fuel c v s)).recursionLimit = s.recursionLimit ∧
      (Step.final (evaluate fuel c v s)).iterationLimit = s.iterationLimit ∧
      (Step.final (evaluate fuel c v s)).stack = s.stack) ∧
    (∀ alarm, evaluateWatched alarm fuel c v s = evaluate fuel c v s) ∧
    (s.depth = 0 → 0 < fuel → ∀ n, evaluate fuel c v { s with iterations := n } = evaluate fuel c v s) := by
  have kept := evaluate_keeps fuel c v s
  refine ⟨⟨kept.depth, kept.recursionLimit, kept.iterationLimit, kept.stack⟩, ?_, ?_⟩
  · exact fun alarm => congrFun (evaluateWatched_eq alarm fuel c v) s
  · intro outermost some n
    obtain ⟨rest, rfl⟩ : ∃ rest, fuel = rest + 1 := ⟨fuel - 1, by omega⟩
    have entered : ({ s with iterations := n } : Session).entered = s.entered := by
      simp [Session.entered, outermost]
    show deeper _ _ = deeper _ _
    rw [deeper_eq, deeper_eq, entered]

/-- Whether a run was stopped by one of the two limits. -/
def Step.cut {σ α : Type} : EStateM.Result Halt σ α → Bool
  | .error (.failure e) _ => e.isLimit
  | _ => false

/-- A limit that is exceeded inside of a block: the context of the block has been put on the stack, and
evaluation is three levels deep. -/
theorem evaluate_restores_insideBlock :
    let s := { Session.initial with recursionLimit := 3, iterations := 7 }
    let block := call "Block" [ofItems [call "Set" [sym "x", int 1]], call "f" [call "f" [call "f" [sym "x"]]]]
    Step.cut (evaluate 9 0 block s) = true ∧
      (Step.final (evaluate 9 0 block s)).depth = 0 ∧
      (Step.final (evaluate 9 0 block s)).stack = [globalId] ∧
      evaluate 9 0 block { s with iterations := 0 } = evaluate 9 0 block s := by
  intro s block
  have restored := evaluate_restores 9 0 block s
  refine ⟨by decide +kernel, restored.1.1, restored.1.2.2.2, restored.2.2 rfl (by decide) 0⟩

end Symbolic
