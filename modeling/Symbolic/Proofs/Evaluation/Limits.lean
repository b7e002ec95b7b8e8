import Symbolic.Proofs.Elements
import Symbolic.Proofs.Evaluation.Restoration

/-!
The limits only cut evaluation off. Where it comes to a result within some limits, it
comes to the same result, and leaves the same session behind, within all higher ones: no
definition and no builtin can tell what the limits are, and none goes on after one has been
exceeded.
-/
namespace Symbolic

open Value Session

namespace Session

def limited (s : Session) (recursion iteration : Int) : Session :=
  { s with recursionLimit := recursion, iterationLimit := iteration }

structure Within (s : Session) (recursion iteration : Int) : Prop where
  recursion : s.recursionLimit ≤ recursion
  iteration : s.iterationLimit ≤ iteration

variable {s t : Session} {recursion iteration : Int}

theorem Kept.stillWithin (kept : Kept s t) (within : Within s recursion iteration) : Within t recursion iteration :=
  ⟨kept.recursionLimit ▸ within.recursion, kept.iterationLimit ▸ within.iteration⟩

theorem Plain.limited {α : Type} {f : Session → α × Session} (plain : Plain f) (s : Session) :
    f (s.limited recursion iteration) = ((f s).1, (f s).2.limited recursion iteration) := by
  have step := plain.framed s (s.limited recursion iteration).frame
  have same := plain.frame s
  simp only [Session.frame, Frame.mk.injEq] at same
  obtain ⟨depth, iterations, -, -, stack⟩ := same
  have after : (f s).2.withFrame (s.limited recursion iteration).frame = (f s).2.limited recursion iteration := by
    simp only [withFrame, Session.limited, Session.frame, ← depth, ← iterations, ← stack]
  rw [← after]
  exact step

end Session

/-- A computation that keeps the session, and whose results stay as they are under higher limits. -/
structure CutOff {α : Type} (m : Eval α) : Prop where
  keeps : Keeps m
  raise : ∀ {s a t}, m s = .ok a t → ∀ {recursion iteration}, Within s recursion iteration →
    m (s.limited recursion iteration) = .ok a (t.limited recursion iteration)

section Raising

variable {α β : Type}

theorem CutOff.stop (h : Halt) : CutOff (throw h : Eval α) where
  keeps s := .refl s
  raise run := nomatch run

theorem CutOff.bind {m : Eval α} {k : α → Eval β} (first : CutOff m) (next : ∀ a, CutOff (k a)) :
    CutOff (m >>= k) where
  keeps := first.keeps.bind fun a => (next a).keeps
  raise {s b u} run recursion iteration within := by
    change EStateM.bind m k s = .ok b u at run
    show EStateM.bind m k (s.limited recursion iteration) = _
    unfold EStateM.bind at run ⊢
    cases ran : m s with
    | ok a t =>
      rw [ran] at run
      have kept := first.keeps s
      rw [ran] at kept
      rw [first.raise ran within]
      exact (next a).raise run (kept.stillWithin within)
    | error h t =>
      rw [ran] at run
      cases run

theorem countReplacement_cutOff : CutOff countReplacement where
  keeps := countReplacement_keeps
  raise {s a t} run recursion iteration within := by
    rw [countReplacement_eq] at run ⊢
    have admitted : ¬ (s.iterations + 1 : Int) > s.iterationLimit := by
      intro exceeded
      rw [if_pos exceeded] at run
      cases run
    rw [if_neg admitted] at run
    cases run
    have higher : ¬ (s.iterations + 1 : Int) > iteration := fun exceeded =>
      admitted (Int.lt_of_le_of_lt within.iteration exceeded)
    exact if_neg higher

theorem CutOff.inside {m : Eval α} (c : ContextId) (run : CutOff m) : CutOff (Scope.inside c m) where
  keeps := run.keeps.inside c
  raise {s a t} ran recursion iteration within := by
    rw [inside_eq, Step.ending_ok] at ran ⊢
    obtain ⟨u, ran, rfl⟩ := ran
    exact ⟨_, run.raise ran ⟨within.recursion, within.iteration⟩, rfl⟩

theorem CutOff.deeper {m : Eval α} (run : CutOff m) : CutOff (deeper m) where
  keeps := run.keeps.deeper
  raise {s a t} ran recursion iteration within := by
    -- This check, and that of `countReplacement`, are all that looks at the limits.
    rw [deeper_eq] at ran ⊢
    have admitted : ¬ (s.depth + 1 : Int) > s.recursionLimit := by
      intro exceeded
      rw [if_pos exceeded] at ran
      cases ran
    have higher : ¬ (s.depth + 1 : Int) > recursion := fun exceeded =>
      admitted (Int.lt_of_le_of_lt within.recursion exceeded)
    rw [if_neg admitted, Step.ending_ok] at ran
    obtain ⟨u, ran, rfl⟩ := ran
    have raised := run.raise ran ⟨within.recursion, within.iteration⟩
    refine (if_neg higher).trans (Step.ending_ok.2 ⟨_, raised, rfl⟩)

theorem compositional_cutOff : Compositional fun α (m : Unit → Eval α) => CutOff (m ()) where
  perform {α f} plain := by
    refine ⟨plain.kept, fun {s a t} run recursion iteration _ => ?_⟩
    cases run
    show EStateM.Result.ok _ _ = _
    rw [plain.limited s]
  fail e := .stop (.failure e)
  bind first next := first.bind next
  count := countReplacement_cutOff
  inside c run := run.inside c

end Raising

theorem evaluate_cutOff (fuel : Nat) (c : ContextId) (v : Value) : CutOff (evaluate fuel c v) := by
  induction fuel generalizing c v with
  | zero => exact .stop .outOfFuel
  | succ fuel ih =>
    refine CutOff.deeper ?_
    exact compositional_cutOff.evaluateWith_of_stops (fun _ => evaluate fuel) ih (fun _ => .stop .outOfFuel) fuel c v

/-- What evaluation comes to within some limits, and the session it leaves, is what it comes to and
leaves within higher limits. -/
theorem evaluate_raisedLimits {fuel : Nat} {c : ContextId} {v r : Value} {s t : Session}
    (run : evaluate fuel c v s = .ok r t) {recursion iteration : Int} (recursionLimit : s.recursionLimit ≤ recursion)
    (iterationLimit : s.iterationLimit ≤ iteration) :
    evaluate fuel c v { s with recursionLimit := recursion, iterationLimit := iteration } =
      .ok r { t with recursionLimit := recursion, iterationLimit := iteration } :=
  (evaluate_cutOff fuel c v).raise run ⟨recursionLimit, iterationLimit⟩

/-- A session in which `f[x]` is replaced by `f[x - 1]` as long as `x` is positive. Its limits are
the lowest under which the evaluation below comes to a result. -/
def countdown : Session :=
  { Session.initial.define 0 (sym "f") .down [⟨call "f" [call "Pattern" [sym "x", call "Blank" []]],
      call "f" [call "Subtract" [sym "x", int 1]], call "Greater" [sym "x", int 0]⟩] with
    recursionLimit := 9
    iterationLimit := 13 }

theorem evaluate_raisedLimits_countdown :
    ∃ t, evaluate 12 0 (call "Module" [ofItems [sym "y"], ofItems [sym "y", call "f" [int 2]]]) countdown =
        .ok (ofItems [sym "y1", call "f" [int 0]]) t ∧
      evaluate 12 0 (call "Module" [ofItems [sym "y"], ofItems [sym "y", call "f" [int 2]]])
          { countdown with recursionLimit := 256, iterationLimit := 1000 } =
        .ok (ofItems [sym "y1", call "f" [int 0]]) { t with recursionLimit := 256, iterationLimit := 1000 } := by
  have found : Step.returns (fun r => r.isExact && r.same (ofItems [sym "y1", call "f" [int 0]]))
      (evaluate 12 0 (call "Module" [ofItems [sym "y"], ofItems [sym "y", call "f" [int 2]]]) countdown) = true := by
    decide +kernel
  obtain ⟨r, t, run, tested⟩ := Step.returns_iff.1 found
  obtain ⟨precise, same⟩ := Bool.and_eq_true_iff.1 tested
  obtain rfl := eq_of_same precise (by decide) same
  exact ⟨t, run, evaluate_raisedLimits run (by decide) (by decide)⟩

end Symbolic
