import Symbolic.Proofs.Evaluation.Abreast
import Symbolic.Proofs.Evaluation.Attributes
import Symbolic.Proofs.Evaluation.Calls

/-!
Two ways to write a loop. `For[start, test, increment, body]` does what
`CompoundExpression[start, While[test, CompoundExpression[body, increment]]]` does, which passes through three more
levels of evaluation and evaluates once more what each of them gives. Main statement: if every increment comes to an
atom and nothing that is defined bears on the loop, the two return together and leave the same contexts,
definitions and generated symbols, unless a limit stops the second.
-/
namespace Symbolic

open Value Session
open Step (starves cut)

/-! ### Inside an evaluation -/

/-- A session that an evaluation begun in another one gets to: it is where the evaluation began, one level deeper, but
for what has been defined and generated since then. -/
structure Session.Inside (s u : Session) : Prop where
  kept : Kept s.entered u
  marks : SameMarks s u

section Inside

variable {s u w : Session} {c : ContextId}

theorem Session.Inside.begun : s.Inside s.entered := ⟨.refl _, .of_contexts rfl⟩

theorem Session.Inside.step {n : Nat} {v r : Value} (inside : s.Inside u) (ran : evaluate n c v u = .ok r w) :
    s.Inside w := by
  have marks := evaluate_keepsMarks n c v u
  rw [ran] at marks
  exact ⟨inside.kept.trans ((evaluate_keeps n c v).after ran), inside.marks.trans marks⟩

theorem Session.Inside.inner (inside : s.Inside u) (roomier : Roomier u w) : 0 < w.depth := by
  obtain ⟨d, higher, i, -, rfl⟩ := roomier
  have depth : d = s.depth + 1 := inside.kept.depth
  omega

theorem Session.Inside.evaluateWith {f : String} {as : List Value} {op : Operation} {ev : Evaluator} {fuel : Nat}
    (inside : s.Inside u) (roomier : Roomier u w) (verbatim : Verbatim f op)
    (standard : s.registry = Builtin.standard) (here : c < s.contexts.size) (unarranged : s.Unarranged c f)
    (undefined : u.Undefined c f) (single : ∀ e ∈ as, e.argsOf? "Sequence" = none) :
    Symbolic.evaluateWith ev (fuel + 1) c (call f as) w =
      (op.run ev (fuel + 1) c (call f as) >>= again ev c (call f as)) w := by
  obtain ⟨d, -, i, -, rfl⟩ := roomier
  refine evaluateWith_held verbatim (inside.kept.registry.trans standard) (undefined.of_contents rfl rfl) ?_ single
  intro attr listed
  rw [← attributesOf_recount (d := d) (i := i), inside.marks.attributesOf here]
  exact unarranged attr listed

theorem Session.Undefined.evaluateWith_nothing {ev : Evaluator} {fuel : Nat} (undefined : u.Undefined c "Null")
    (roomier : Roomier u w) :
    Symbolic.evaluateWith ev (fuel + 1) c nothing w.counted.entered = .ok nothing w.counted.entered := by
  obtain ⟨d, -, i, -, rfl⟩ := roomier
  have still : w.counted.entered.Undefined c "Null" := undefined.of_contents rfl rfl
  exact evaluateSymbol_unset (still.unset .own)

end Inside

/-! ### Loops -/

structure Loop where
  start : Value
  test : Value
  increment : Value
  body : Value

namespace Loop

/-- What is done each time round, as one expression. -/
def round (l : Loop) : Value := call "CompoundExpression" [l.body, l.increment]

def rounds (l : Loop) : Value := call "While" [l.test, l.round]

def asWhile (l : Loop) : Value := call "CompoundExpression" [l.start, l.rounds]

def asFor (l : Loop) : Value := call "For" [l.start, l.test, l.increment, l.body]

inductive Point where
  | test
  | body
  | increment
  | finish

/-- The points that a `For` loop begun in a session gets to, with the session there. -/
inductive Gets (l : Loop) (s : Session) (c : ContextId) : Point → Session → Prop
  | begun {n : Nat} {r : Value} {u : Session} (ran : evaluate n c l.start s.entered = .ok r u) : Gets l s c .test u
  | another {n : Nat} {r : Value} {u w : Session} (here : Gets l s c .test u) (ran : evaluate n c l.test u = .ok r w)
    (holds : r.isTrue = true) : Gets l s c .body w
  | finished {n : Nat} {r : Value} {u w : Session} (here : Gets l s c .test u) (ran : evaluate n c l.test u = .ok r w)
    (fails : r.isTrue = false) : Gets l s c .finish w
  | worked {n : Nat} {r : Value} {u w : Session} (here : Gets l s c .body u) (ran : evaluate n c l.body u = .ok r w) :
    Gets l s c .increment w
  | stepped {n : Nat} {r : Value} {u w : Session} (here : Gets l s c .increment u)
    (ran : evaluate n c l.increment u = .ok r w) : Gets l s c .test w

def heads : List String := ["For", "While", "CompoundExpression"]

/-- The names whose definitions could bear on a loop. -/
def names : List String := "Null" :: heads

/-- No part of a loop is a sequence, nothing is defined about its names, neither where it begins nor where it gets to,
its heads are given no attributes that bring arguments into another form, and every increment comes to an atom. -/
structure Ordinary (l : Loop) (s : Session) (c : ContextId) : Prop where
  here : c < s.contexts.size
  standard : s.registry = Builtin.standard
  single : ∀ e ∈ [l.start, l.test, l.increment, l.body], e.argsOf? "Sequence" = none
  unarranged : ∀ f ∈ heads, s.Unarranged c f
  before : ∀ f ∈ names, s.Undefined c f
  during : ∀ p u, l.Gets s c p u → ∀ f ∈ names, u.Undefined c f
  atomic : ∀ n r u w, l.Gets s c .increment u → evaluate n c l.increment u = .ok r w → r.isAtom = true

end Loop

section Runs

variable {second : Bool} {l : Loop} {s u w : Session} {c : ContextId} {p : Loop.Point} {a b : Nat}

theorem Loop.Gets.inside (gets : l.Gets s c p u) : s.Inside u := by
  induction gets with
  | begun ran => exact Inside.begun.step ran
  | another _ ran _ ih | finished _ ran _ ih | worked _ ran ih | stepped _ ran ih => exact ih.step ran

theorem Loop.Gets.inner (gets : l.Gets s c p u) (roomier : Roomier u w) : 0 < w.depth := gets.inside.inner roomier

theorem Loop.Gets.round {n : Nat} {r : Value} {t : Session} (gets : l.Gets s c .body u)
    (run : Control.sequence (evaluate n) c nothing [l.body, l.increment] u = .ok r t) : l.Gets s c .test t := by
  obtain ⟨_, z, worked, rest⟩ := Step.bind_ok run
  obtain ⟨_, z', stepped, ended⟩ := Step.bind_ok rest
  obtain ⟨rfl, rfl⟩ := Step.pure_ok.1 ended
  exact (gets.worked worked).stepped stepped

theorem Loop.Gets.ends {n : Nat} {r : Value} {t : Session} (gets : l.Gets s c .test u)
    (run : Control.loopWhile (evaluate b) c l.test [l.body, l.increment] n u = .ok r t) :
    r = nothing ∧ l.Gets s c .finish t := by
  induction n generalizing u with
  | zero => cases run
  | succ n ih =>
    obtain ⟨v, x, tested, rest⟩ := Step.bind_ok run
    by_cases holds : v.isTrue = true
    · rw [if_pos holds] at rest
      obtain ⟨_, y, sequence, rest⟩ := Step.bind_ok rest
      exact ih (gets.another tested holds |>.round sequence) rest
    · rw [if_neg holds] at rest
      obtain ⟨rfl, rfl⟩ := Step.pure_ok.1 rest
      exact ⟨rfl, gets.finished tested (Bool.eq_false_iff.2 holds)⟩

theorem sequence_single {ev : Evaluator} {v e : Value} : Control.sequence ev c v [e] = ev c e := by
  rw [Control.sequence]
  exact bind_pure _

theorem sequence_inStep (scant : Scant second a b) (v : Value) (as : List Value) (roomier : Roomier u w) :
    InStep second (Control.sequence (evaluate a) c v as w) (Control.sequence (evaluate b) c v as u) := by
  induction as generalizing v u w with
  | nil => exact .ok roomier
  | cons e as ih => exact (evaluate_inStep scant c e roomier).bind fun r _ _ _ _ roomy => ih r roomy

/-- A value that evaluation leaves as it is may be evaluated again, unless a limit forbids it. -/
theorem again_stays {e r : Value} (new : r.differs e = true) (inner : 0 < w.depth)
    (stays : evaluateWith (evaluate a) a c r w.counted.entered = .ok r w.counted.entered)
    (uncut : cut (again (evaluate (a + 1)) c e r w) = false) : again (evaluate (a + 1)) c e r w = .ok r w.counted := by
  rw [again_new new] at uncut ⊢
  by_cases counts : (w.iterations + 1 : Int) > w.iterationLimit
  · rw [Step.bind_of_error ((countReplacement_eq w).trans (if_pos counts))] at uncut
    cases uncut
  · rw [Step.bind_of_ok ((countReplacement_eq w).trans (if_neg counts)), evaluate, deeper_eq] at uncut ⊢
    by_cases exceeded : (w.counted.depth + 1 : Int) > w.counted.recursionLimit
    · rw [if_pos exceeded] at uncut
      cases uncut
    · rw [if_neg exceeded, stays]
      exact congrArg (EStateM.Result.ok r) (exited_entered (s := w.counted) inner)

theorem again_inStep {e r : Value} (new : r.differs e = true) (inner : 0 < w.depth) (roomier : Roomier u w)
    (stays : evaluateWith (evaluate a) a c r w.counted.entered = .ok r w.counted.entered) :
    InStep second (again (evaluate (a + 1)) c e r w) (.ok r u) := by
  intro uncut _
  rw [again_stays new inner stays uncut]
  obtain ⟨d, higher, i, fewer, rfl⟩ := roomier
  exact ⟨w.recount d i, ⟨d, higher, i, Nat.le_succ_of_le fewer, rfl⟩, rfl⟩

theorem sequence_keeps (n : Nat) (c : ContextId) (v : Value) (as : List Value) :
    Keeps (Control.sequence (evaluate n) c v as) := by
  induction as generalizing v with
  | nil => exact fun s => .refl s
  | cons e as ih => exact (evaluate_keeps n c e).bind ih

theorem loopWhile_keeps (n : Nat) (c : ContextId) (test : Value) (steps : List Value) (k : Nat) :
    Keeps (Control.loopWhile (evaluate n) c test steps k) := by
  induction k with
  | zero => exact fun s => .refl s
  | succ k ih =>
    refine (evaluate_keeps n c test).bind fun v => ?_
    split
    · exact (sequence_keeps n c nothing steps).bind fun _ => ih
    · exact fun s => .refl s

theorem compound_verbatim : Verbatim "CompoundExpression" .compound := ⟨rfl, by decide, by decide⟩

theorem while_verbatim : Verbatim "While" .whileLoop := ⟨rfl, by decide, by decide⟩

theorem for_verbatim : Verbatim "For" .forLoop := ⟨rfl, by decide, by decide⟩

end Runs

section Ordinary

variable {second : Bool} {l : Loop} {s u w : Session} {c : ContextId} {p : Loop.Point} {a b : Nat}
  (ordinary : l.Ordinary s c)

include ordinary

theorem Loop.Ordinary.evaluateWith {f : String} {as : List Value} {op : Operation} {ev : Evaluator} {fuel : Nat}
    (gets : l.Gets s c p u) (roomier : Roomier u w) (verbatim : Verbatim f op) (member : f ∈ Loop.heads)
    (single : ∀ e ∈ as, e.argsOf? "Sequence" = none) :
    evaluateWith ev (fuel + 1) c (call f as) w =
      (op.run ev (fuel + 1) c (call f as) >>= again ev c (call f as)) w := by
  exact gets.inside.evaluateWith roomier verbatim ordinary.standard ordinary.here (ordinary.unarranged f member)
    (ordinary.during p _ gets f (List.mem_cons_of_mem _ member)) single

theorem Loop.Ordinary.evaluateWith_nothing {ev : Evaluator} {fuel : Nat} (gets : l.Gets s c p u)
    (roomier : Roomier u w) :
    Symbolic.evaluateWith ev (fuel + 1) c nothing w.counted.entered = .ok nothing w.counted.entered :=
  (ordinary.during p _ gets "Null" (by decide)).evaluateWith_nothing roomier

theorem Loop.Ordinary.round_inStep (gets : l.Gets s c .body u) (roomier : Roomier u w)
    (scant : Scant second (a + 1) b) :
    InStep second (evaluate (a + 2) c l.round w) (Control.sequence (evaluate b) c nothing [l.body, l.increment] u) := by
  have inner := gets.inner roomier
  refine InStep.descend (evaluateWith_keeps (a + 1) c _) (sequence_keeps b c nothing _) roomier ?_
  have single : ∀ e ∈ [l.body, l.increment], e.argsOf? "Sequence" = none := by
    have each := ordinary.single
    simp_all
  rw [Loop.round, ordinary.evaluateWith gets (roomier.below inner) compound_verbatim (by decide) single,
    ← bind_pure (Control.sequence (evaluate b) c nothing [l.body, l.increment])]
  refine InStep.bind (sequence_inStep scant nothing _ (roomier.below inner)) fun r x y ran other roomy => ?_
  -- What the increment comes to is what is evaluated once more.
  obtain ⟨v, z, worked, rest⟩ := Step.bind_ok other
  obtain ⟨q, z', stepped, ended⟩ := Step.bind_ok rest
  obtain ⟨rfl, rfl⟩ := Step.pure_ok.1 ended
  have atom := ordinary.atomic _ _ _ _ (gets.worked worked) stepped
  have depth : x.depth = w.depth + 1 := ((sequence_keeps (a + 1) c nothing _).after ran).depth
  exact again_inStep (differs_of_basic (by rw [atom]; rfl)) (by omega) roomy (evaluateWith_atom atom)

theorem Loop.Ordinary.loop_inStep (scant : ∀ i ≤ 2, Scant second (a + i) b) {n k : Nat} (fuel : Scant second n k)
    (gets : l.Gets s c .test u) (roomier : Roomier u w) :
    InStep second (Control.loopWhile (evaluate (a + 2)) c l.test [l.round] n w)
      (Control.loopWhile (evaluate b) c l.test [l.body, l.increment] k u) := by
  induction n generalizing k u w with
  | zero =>
    intro _ fueled
    cases second with
    | false => cases fueled
    | true =>
      obtain rfl : k = 0 := Nat.le_zero.1 fuel
      cases fueled
  | succ n ih =>
    cases k with
    | zero =>
      intro _ fueled
      cases second with
      | false => exact absurd fuel (Nat.not_succ_le_zero n)
      | true => cases fueled
    | succ k =>
      have less : Scant second n k := by
        cases second with
        | false => exact Nat.le_of_succ_le_succ fuel
        | true => exact Nat.le_of_succ_le_succ fuel
      refine InStep.bind (evaluate_inStep (scant 2 (by omega)) c l.test roomier) fun r x y _ tested roomy => ?_
      by_cases holds : r.isTrue = true
      · rw [if_pos holds, if_pos holds]
        have body := gets.another tested holds
        refine InStep.bind ?_ fun v x' y' _ other roomier' => ?_
        · rw [sequence_single]
          exact ordinary.round_inStep body roomy (scant 1 (by omega))
        · exact ih less (body.round other) roomier'
      · rw [if_neg holds, if_neg holds]
        exact .ok roomy

theorem Loop.Ordinary.rounds_inStep (scant : ∀ i ≤ 3, Scant second (a + i) b) (gets : l.Gets s c .test u)
    (roomier : Roomier u w) :
    InStep second (evaluate (a + 3) c l.rounds w)
      (Control.loopWhile (evaluate b) c l.test [l.body, l.increment] b u) := by
  have inner := gets.inner roomier
  refine InStep.descend (evaluateWith_keeps (a + 2) c _) (loopWhile_keeps b c _ _ b) roomier ?_
  have single : ∀ e ∈ [l.test, l.round], e.argsOf? "Sequence" = none := by
    have each := ordinary.single
    have round : l.round.argsOf? "Sequence" = none := rfl
    simp_all
  rw [Loop.rounds, ordinary.evaluateWith gets (roomier.below inner) while_verbatim (by decide) single,
    ← bind_pure (Control.loopWhile (evaluate b) c l.test [l.body, l.increment] b)]
  refine InStep.bind (ordinary.loop_inStep (fun i small => scant i (by omega)) (scant 2 (by omega)) gets
    (roomier.below inner)) fun r x y ran other roomy => ?_
  obtain ⟨rfl, done⟩ := gets.ends other
  have depth : x.depth = w.depth + 1 := ((loopWhile_keeps (a + 2) c _ _ (a + 2)).after ran).depth
  exact again_inStep (differs_of_basic rfl) (by omega) roomy (ordinary.evaluateWith_nothing done roomy)

theorem Loop.Ordinary.evaluateWith_asFor {ev : Evaluator} {fuel : Nat} :
    Symbolic.evaluateWith ev (fuel + 1) c l.asFor s.entered =
      (Control.forLoop ev (fuel + 1) c l.asFor [l.start, l.test, l.increment, l.body] >>= again ev c l.asFor) s.entered :=
  evaluateWith_held for_verbatim ordinary.standard ((ordinary.before _ (by decide)).of_contents rfl rfl)
    ((ordinary.unarranged _ (by decide)).of_contexts rfl) ordinary.single

theorem Loop.Ordinary.evaluateWith_asWhile {ev : Evaluator} {fuel : Nat} :
    Symbolic.evaluateWith ev (fuel + 1) c l.asWhile s.entered =
      (Control.sequence ev c nothing [l.start, l.rounds] >>= again ev c l.asWhile) s.entered := by
  have single : ∀ e ∈ [l.start, l.rounds], e.argsOf? "Sequence" = none := by
    have each := ordinary.single
    have rounds : l.rounds.argsOf? "Sequence" = none := rfl
    simp_all
  exact evaluateWith_held compound_verbatim ordinary.standard ((ordinary.before _ (by decide)).of_contents rfl rfl)
    ((ordinary.unarranged _ (by decide)).of_contexts rfl) single

theorem Loop.Ordinary.inStep (scant : ∀ i ≤ 3, Scant second (a + i) (b + 1)) :
    InStep second (evaluate (a + 4) c l.asWhile s) (evaluate (b + 2) c l.asFor s) := by
  refine InStep.deeper (.refl s) ?_
  rw [ordinary.evaluateWith_asWhile, ordinary.evaluateWith_asFor]
  refine InStep.bind ?_ fun r x y _ other roomy => ?_
  · refine InStep.bind (evaluate_inStep (scant 3 (by omega)) c l.start (.refl _)) fun v x y _ begun roomy => ?_
    rw [sequence_single]
    exact ordinary.rounds_inStep scant (.begun begun) roomy
  · obtain ⟨_, z, begun, looped⟩ := Step.bind_ok other
    obtain ⟨rfl, -⟩ := (Loop.Gets.begun begun).ends looped
    rw [again_new (e := l.asWhile) (differs_of_basic rfl), again_new (e := l.asFor) (differs_of_basic rfl)]
    exact InStep.bind (countReplacement_inStep roomy) fun _ _ _ _ _ roomier =>
      evaluate_inStep (scant 3 (by omega)) c nothing roomier

theorem Loop.Ordinary.for_gives {n : Nat} {r : Value} {t : Session} (run : evaluate n c l.asFor s = .ok r t) :
    r = nothing := by
  have longer := evaluate_more run (Nat.le_add_right n 3)
  obtain ⟨-, x, ran, -⟩ := deeper_ok.1 longer
  have inside := ordinary.evaluateWith_asFor.symm.trans ran
  obtain ⟨q, y, looped, rest⟩ := Step.bind_ok inside
  obtain ⟨_, z, begun, looped⟩ := Step.bind_ok looped
  obtain ⟨rfl, done⟩ := (Loop.Gets.begun begun).ends looped
  rw [again_new (e := l.asFor) (differs_of_basic rfl)] at rest
  obtain ⟨_, z', counted, evaluated⟩ := Step.bind_ok rest
  obtain rfl : z' = y.counted := countReplacement_ok (s := y) counted
  obtain ⟨-, v, stays, -⟩ := deeper_ok.1 evaluated
  have itself := (ordinary.evaluateWith_nothing done (.refl y)).symm.trans stays
  cases itself
  rfl

end Ordinary

/-! ### Loops that end -/

theorem uncut_of_result {n : Nat} {c : ContextId} {v r : Value} {s t : Session} (run : evaluate n c v s = .ok r t)
    (m : Nat) : cut (evaluate m c v s) = false := by
  cases out : starves (evaluate m c v s) with
  | true =>
    obtain ⟨u, stopped⟩ := Step.eq_of_starves out
    rw [stopped]
    rfl
  | false =>
    have same : evaluate m c v s = evaluate n c v s :=
      Prolongs.agree (m := fun n => evaluate n c v) (fun n => evaluate_prolongs n c v) out (by rw [run]; rfl)
    rw [same, run]
    rfl

namespace Loop

variable {l : Loop} {s : Session} {c : ContextId} {fuel k : Nat}

/-- Whether nothing is said about the names of a loop anywhere. -/
def quiet (s : Session) : Bool := names.all s.isSilent

/-- The increment, where nothing is said about the names, comes to an atom, and goes on as asked. -/
def surveyIncrement (l : Loop) (c : ContextId) (fuel : Nat) (next : Session → Bool) (s : Session) : Bool :=
  quiet s && Step.checks (fun r t => r.isAtom && next t) (evaluate fuel c l.increment s)

def surveyBody (l : Loop) (c : ContextId) (fuel : Nat) (next : Session → Bool) (s : Session) : Bool :=
  quiet s && Step.checks (fun _ t => l.surveyIncrement c fuel next t) (evaluate fuel c l.body s)

/-- Whether the loop ends within a number of times round, nothing being said about its names on the way and every
increment coming to an atom. -/
def survey (l : Loop) (c : ContextId) (fuel : Nat) : Nat → Session → Bool
  | 0, _ => false
  | k + 1, s => quiet s && Step.checks (fun r t => if r.isTrue then l.surveyBody c fuel (l.survey c fuel k) t else quiet t)
      (evaluate fuel c l.test s)

/-- What a survey has seen at a point. -/
def Surveyed (l : Loop) (c : ContextId) (fuel : Nat) : Point → Session → Prop
  | .test, s => ∃ k, l.survey c fuel k s = true
  | .body, s => ∃ k, l.surveyBody c fuel (l.survey c fuel k) s = true
  | .increment, s => ∃ k, l.surveyIncrement c fuel (l.survey c fuel k) s = true
  | .finish, s => quiet s = true

theorem Surveyed.quiet {p : Point} (surveyed : l.Surveyed c fuel p s) : quiet s = true := by
  cases p with
  | finish => exact surveyed
  | test =>
    obtain ⟨k, seen⟩ := surveyed
    cases k with
    | zero => cases seen
    | succ k => exact (Bool.and_eq_true_iff.1 seen).1
  | body | increment =>
    obtain ⟨k, seen⟩ := surveyed
    exact (Bool.and_eq_true_iff.1 seen).1

/-- A survey sees every point that the loop gets to. -/
theorem Gets.surveyed {p : Point} {u : Session} (gets : l.Gets s c p u)
    (started : Step.checks (fun _ t => l.survey c fuel k t) (evaluate fuel c l.start s.entered) = true) :
    l.Surveyed c fuel p u := by
  induction gets with
  | begun ran =>
    obtain ⟨_, _, known, seen⟩ := Step.checks_iff.1 started
    obtain ⟨rfl, rfl⟩ := evaluate_unique known ran
    exact ⟨k, seen⟩
  | another _ ran holds ih =>
    obtain ⟨j, seen⟩ := ih
    cases j with
    | zero => cases seen
    | succ j =>
      obtain ⟨_, _, known, seen⟩ := Step.checks_iff.1 (Bool.and_eq_true_iff.1 seen).2
      obtain ⟨rfl, rfl⟩ := evaluate_unique known ran
      exact ⟨j, (if_pos holds).symm.trans seen⟩
  | finished _ ran fails ih =>
    obtain ⟨j, seen⟩ := ih
    cases j with
    | zero => cases seen
    | succ j =>
      obtain ⟨_, _, known, seen⟩ := Step.checks_iff.1 (Bool.and_eq_true_iff.1 seen).2
      obtain ⟨rfl, rfl⟩ := evaluate_unique known ran
      exact (if_neg (Bool.eq_false_iff.1 fails)).symm.trans seen
  | worked _ ran ih =>
    obtain ⟨j, seen⟩ := ih
    obtain ⟨_, _, known, seen⟩ := Step.checks_iff.1 (Bool.and_eq_true_iff.1 seen).2
    obtain ⟨rfl, rfl⟩ := evaluate_unique known ran
    exact ⟨j, seen⟩
  | stepped _ ran ih =>
    obtain ⟨j, seen⟩ := ih
    obtain ⟨_, _, known, seen⟩ := Step.checks_iff.1 (Bool.and_eq_true_iff.1 seen).2
    obtain ⟨rfl, rfl⟩ := evaluate_unique known ran
    exact ⟨j, (Bool.and_eq_true_iff.1 seen).2⟩

theorem ordinary_of_survey (fuel k : Nat) (here : c < s.contexts.size) (standard : s.registry = Builtin.standard)
    (single : ∀ e ∈ [l.start, l.test, l.increment, l.body], e.argsOf? "Sequence" = none) (before : Loop.quiet s = true)
    (started : Step.checks (fun _ t => l.survey c fuel k t) (evaluate fuel c l.start s.entered) = true) :
    l.Ordinary s c where
  here := here
  standard := standard
  single := single
  unarranged f member := (silent_of_isSilent (List.all_eq_true.1 before f (List.mem_cons_of_mem _ member)) c).unarranged
  before f member := (silent_of_isSilent (List.all_eq_true.1 before f member) c).toUndefined
  during p u gets f member :=
    (silent_of_isSilent (List.all_eq_true.1 (gets.surveyed started).quiet f member) c).toUndefined
  atomic n r u w gets ran := by
    obtain ⟨j, seen⟩ := gets.surveyed started
    obtain ⟨_, _, known, seen⟩ := Step.checks_iff.1 (Bool.and_eq_true_iff.1 seen).2
    obtain ⟨rfl, rfl⟩ := evaluate_unique known ran
    exact (Bool.and_eq_true_iff.1 seen).1

end Loop

/-- A loop written with `While` that returns gives nothing, and the same loop written with `For` returns and gives
nothing as well; and conversely, unless a limit stops the loop written with `While`. The sessions are then the same
but for the count of replacements: they have the same contexts, definitions and generated symbols. -/
theorem for_is_while {l : Loop} {s : Session} {c : ContextId} (ordinary : l.Ordinary s c) :
    (∀ n r t, evaluate n c l.asWhile s = .ok r t →
      r = nothing ∧ ∃ m i, evaluate m c l.asFor s = .ok nothing (t.recount t.depth i)) ∧
    ((∀ n, cut (evaluate n c l.asWhile s) = false) → ∀ n r t, evaluate n c l.asFor s = .ok r t →
      r = nothing ∧ ∃ m i, evaluate m c l.asWhile s = .ok nothing (t.recount t.depth i)) := by
  refine ⟨fun n r t run => ?_, fun unlimited n r t run => ?_⟩
  · have longer := evaluate_more run (Nat.le_add_right n 4)
    have inStep : InStep false (evaluate (n + 4) c l.asWhile s) (evaluate (n + 2 + 2) c l.asFor s) :=
      ordinary.inStep fun i small => by
        show n + i ≤ n + 2 + 1
        omega
    obtain ⟨w, roomier, other⟩ := inStep (by rw [longer]; rfl) (by rw [cond_false, longer]; rfl)
    rw [longer] at roomier other
    obtain ⟨d, -, i, -, rfl⟩ := roomier
    have found : evaluate (n + 2 + 2) c l.asFor s = .ok r (t.recount d i) := other
    obtain rfl := ordinary.for_gives found
    have depth : d = t.depth :=
      ((evaluate_keeps _ c _).after found).depth.trans ((evaluate_keeps _ c _).after run).depth.symm
    exact ⟨rfl, _, i, depth ▸ found⟩
  · have longer := evaluate_more run (Nat.le_add_right n 2)
    have inStep : InStep true (evaluate (n + 1 + 4) c l.asWhile s) (evaluate (n + 2) c l.asFor s) :=
      ordinary.inStep fun i small => by
        show n + 1 ≤ n + 1 + i
        omega
    obtain ⟨w, roomier, other⟩ := inStep (unlimited _) (by rw [cond_true, longer]; rfl)
    obtain ⟨u, found, rfl⟩ := Step.ending_ok.1 (other.symm.trans longer)
    obtain rfl := ordinary.for_gives longer
    rw [found] at roomier
    obtain ⟨d, -, i, -, rfl⟩ := roomier
    have depth : d = u.depth :=
      ((evaluate_keeps _ c _).after run).depth.trans ((evaluate_keeps _ c _).after found).depth.symm
    exact ⟨rfl, _, u.iterations, by rw [found, depth]; rfl⟩

/-- Three times round, with assignments in every part. -/
theorem for_is_while_counting :
    let i := sym "i"
    let l : Loop := ⟨call "Set" [i, int 0], call "Less" [i, int 3], call "Set" [i, call "Plus" [i, int 1]],
      call "Set" [sym "last", i]⟩
    l.Ordinary Session.initial globalId ∧
    (∃ n t, evaluate n globalId l.asWhile Session.initial = .ok nothing t ∧
      ∃ m i, evaluate m globalId l.asFor Session.initial = .ok nothing (t.recount t.depth i)) ∧
    ∃ n t, evaluate n globalId l.asFor Session.initial = .ok nothing t ∧
      ∃ m i, evaluate m globalId l.asWhile Session.initial = .ok nothing (t.recount t.depth i) := by
  intro i l
  have ordinary : l.Ordinary Session.initial globalId :=
    Loop.ordinary_of_survey 12 4 (by decide) rfl (by decide) (by decide +kernel) (by decide +kernel)
  obtain ⟨toFor, toWhile⟩ := for_is_while ordinary
  have returns : Step.returns (fun _ => true) (evaluate 20 globalId l.asWhile Session.initial) = true := by decide +kernel
  obtain ⟨r, t, run, -⟩ := Step.returns_iff.1 returns
  obtain ⟨rfl, m, j, other⟩ := toFor 20 r t run
  exact ⟨ordinary, ⟨20, t, run, m, j, other⟩, m, _, other, (toWhile (uncut_of_result run) m _ _ other).2⟩

/-- Each of the attributes that bring arguments into another form tells the two loops apart if a head is given it:
`Listable` in what they give, `Orderless` and `Flat` in what `y` is afterwards. -/
theorem arranged_loops_differ :
    let marked := fun f a : String =>
      Session.initial.updateContext globalId fun ctx => ctx.setAttributes (sym f) [sym a]
    let tally := call "Set" [sym "y", call "Plus" [sym "y", call "Times" [int 1, int 1]]]
    let after := fun e : Value => (do
      let _ ← evaluate 20 globalId (call "Set" [sym "y", int 0])
      let _ ← evaluate 20 globalId e
      evaluate 20 globalId (sym "y") : Eval Value)
    let listed : Loop := ⟨ofItems [int 1], sym "False", int 3, int 2⟩
    let tested : Loop := ⟨int 0, call "CompoundExpression" [tally, sym "False"], int 3, int 2⟩
    let begun : Loop := ⟨call "CompoundExpression" [int 0, call "Nest" [sym "f", int 1,
      call "CompoundExpression" [tally, sym "z"]]], sym "False", int 3, int 2⟩
    (Step.returns (same nothing) (evaluate 20 globalId listed.asFor (marked "CompoundExpression" "Listable")) = true ∧
      Step.returns (same (ofItems [nothing]))
        (evaluate 20 globalId listed.asWhile (marked "CompoundExpression" "Listable")) = true) ∧
    (Step.returns (same (int 1)) (after tested.asFor (marked "While" "Orderless")) = true ∧
      Step.returns (same (int 0)) (after tested.asWhile (marked "While" "Orderless")) = true) ∧
    Step.returns (same (int 2)) (after begun.asFor (marked "CompoundExpression" "Flat")) = true ∧
      Step.returns (same (int 1)) (after begun.asWhile (marked "CompoundExpression" "Flat")) = true := by
  decide +kernel

end Symbolic
