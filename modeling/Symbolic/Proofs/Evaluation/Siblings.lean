import Symbolic.Proofs.Evaluation.Limits
import Symbolic.Proofs.Evaluation.Outcome

/-!
What the limits mean for the arguments of one call. Replacements are counted from the
outermost evaluation on, so what the arguments of a call need adds up; the depth does not
add up, since each argument is evaluated one level below the call. Main statement: under a
function that nothing is known about, arguments that come to values one by one come to the
same values together if the sum of what they count is within the limit, and otherwise that
limit is exceeded.
-/
namespace Symbolic

open Value Session

namespace Value

theorem argsOf_of_sameItems {vs ws : List Value} {name : String} (same : sameItems vs ws = true)
    (free : ∀ v ∈ vs, v.argsOf? name = none) : ∀ w ∈ ws, w.argsOf? name = none := by
  induction vs generalizing ws with
  | nil =>
    cases ws with
    | nil => simp
    | cons => simp [sameItems] at same
  | cons v vs ih =>
    cases ws with
    | nil => simp
    | cons w ws =>
      obtain ⟨here, there⟩ := Bool.and_eq_true_iff.1 (by simpa only [sameItems] using same)
      obtain ⟨first, others⟩ := List.forall_mem_cons.1 free
      exact List.forall_mem_cons.2 ⟨(argsOf?_iff_of_same here).1 first, ih there others⟩

end Value

/-! ### The same run one level further down -/

namespace Session

/-- The session one level further down, with as much room below it, and with more replacements counted. -/
def below (s : Session) (more : Nat) : Session :=
  { s with depth := s.depth + 1, recursionLimit := s.recursionLimit + 1, iterations := s.iterations + more }

/-- Between the two sessions no replacement was counted, or their number is within the limit even with more
of them counted before. -/
def Affords (s t : Session) (more : Nat) : Prop :=
  t.iterations = s.iterations ∨ (t.iterations + more : Int) ≤ s.iterationLimit

theorem Plain.below {α : Type} {f : Session → α × Session} (plain : Plain f) (s : Session) (more : Nat) :
    f (s.below more) = ((f s).1, (f s).2.below more) := by
  have step := plain.framed s (s.below more).frame
  have same := plain.frame s
  simp only [Session.frame, Frame.mk.injEq] at same
  obtain ⟨depth, iterations, recursion, iteration, stack⟩ := same
  have after : (f s).2.withFrame (s.below more).frame = (f s).2.below more := by
    simp only [withFrame, Session.below, Session.frame, ← depth, ← iterations, ← recursion, ← iteration, ← stack]
  rw [← after]
  exact step

end Session

/-- A run that is not an outermost one is the same one level further down with more replacements counted
before it, up to where their number exceeds the limit. -/
structure Shifts {α : Type} (m : Eval α) : Prop where
  keeps : Keeps m
  counts : ∀ {s a t}, 0 < s.depth → m s = .ok a t → s.iterations ≤ t.iterations
  within : ∀ {s a t}, 0 < s.depth → m s = .ok a t → ∀ {more}, Affords s t more →
    m (s.below more) = .ok a (t.below more)
  beyond : ∀ {s a t}, 0 < s.depth → m s = .ok a t → ∀ {more}, ¬ Affords s t more →
    ∃ u, m (s.below more) = .error (.failure (.iterationLimit s.iterationLimit)) u

section Shifting

variable {α β : Type}

theorem Shifts.stop (h : Halt) : Shifts (throw h : Eval α) where
  keeps s := .refl s
  counts _ run := nomatch run
  within _ run := nomatch run
  beyond _ run := nomatch run

theorem Shifts.bind {m : Eval α} {k : α → Eval β} (first : Shifts m) (next : ∀ a, Shifts (k a)) : Shifts (m >>= k) where
  keeps := first.keeps.bind fun a => (next a).keeps
  counts {s b u} inner run := by
    obtain ⟨a, t, here, there⟩ := Step.bind_ok run
    have kept := first.keeps.after here
    exact (first.counts inner here).trans ((next a).counts (kept.depth ▸ inner) there)
  within {s b u} inner run more affords := by
    obtain ⟨a, t, here, there⟩ := Step.bind_ok run
    have kept := first.keeps.after here
    have early := first.counts inner here
    have late := (next a).counts (kept.depth ▸ inner) there
    have one : Affords s t more := by unfold Affords at affords ⊢; omega
    have other : Affords t u more := by rw [Affords, kept.iterationLimit]; unfold Affords at affords; omega
    rw [Step.bind_of_ok (first.within inner here one)]
    exact (next a).within (kept.depth ▸ inner) there other
  beyond {s b u} inner run more exceeds := by
    obtain ⟨a, t, here, there⟩ := Step.bind_ok run
    have kept := first.keeps.after here
    have early := first.counts inner here
    have late := (next a).counts (kept.depth ▸ inner) there
    by_cases one : Affords s t more
    · have other : ¬ Affords t u more := by
        rw [Affords, kept.iterationLimit]
        unfold Affords at exceeds one
        omega
      obtain ⟨w, stopped⟩ := (next a).beyond (kept.depth ▸ inner) there other
      refine ⟨w, ?_⟩
      rw [Step.bind_of_ok (first.within inner here one), stopped, kept.iterationLimit]
    · obtain ⟨w, stopped⟩ := first.beyond inner here one
      exact ⟨w, Step.bind_of_error stopped⟩

theorem countReplacement_shifts : Shifts countReplacement where
  keeps := countReplacement_keeps
  counts {s a t} _ run := by
    rw [countReplacement_eq] at run
    split at run
    · cases run
    · cases run
      exact Nat.le_succ _
  within {s a t} _ run more affords := by
    rw [countReplacement_eq] at run ⊢
    split at run
    · cases run
    · cases run
      have admitted : ¬ ((s.below more).iterations + 1 : Int) > (s.below more).iterationLimit := by
        simp only [Affords, counted, below] at affords ⊢
        omega
      rw [if_neg admitted]
      simp only [counted, below]
      congr 2
      omega
  beyond {s a t} _ run more exceeds := by
    rw [countReplacement_eq] at run
    split at run
    · cases run
    · cases run
      refine ⟨_, (countReplacement_eq _).trans (if_pos ?_)⟩
      simp only [Affords, counted, below] at exceeds ⊢
      omega

theorem Shifts.inside {m : Eval α} (c : ContextId) (run : Shifts m) : Shifts (Scope.inside c m) where
  keeps := run.keeps.inside c
  counts {s a t} inner ran := by
    rw [inside_eq, Step.ending_ok] at ran
    obtain ⟨u, ran, rfl⟩ := ran
    exact run.counts (s := s.pushed c) (t := u) inner ran
  within {s a t} inner ran more affords := by
    rw [inside_eq, Step.ending_ok] at ran ⊢
    obtain ⟨u, ran, rfl⟩ := ran
    exact ⟨_, run.within (s := s.pushed c) inner ran affords, rfl⟩
  beyond {s a t} inner ran more exceeds := by
    rw [inside_eq, Step.ending_ok] at ran
    obtain ⟨u, ran, rfl⟩ := ran
    obtain ⟨w, stopped⟩ := run.beyond (s := s.pushed c) inner ran exceeds
    exact ⟨w.popped, (inside_eq c m _).trans (congrArg (Step.ending popped) stopped)⟩

/-- Where the nested run has room in one session, it has room one level further down. -/
theorem deeper_below {m : Eval α} {s : Session} {a : α} {t : Session} (run : deeper m s = .ok a t) (inner : 0 < s.depth)
    (more : Nat) : deeper m (s.below more) = Step.ending exited (m (s.entered.below more)) ∧
      ∃ u, m s.entered = .ok a u ∧ u.exited = t := by
  rw [deeper_eq] at run ⊢
  have admitted : ¬ (s.depth + 1 : Int) > s.recursionLimit := by
    intro exceeded
    rw [if_pos exceeded] at run
    cases run
  rw [if_neg admitted, Step.ending_ok] at run
  refine ⟨?_, run⟩
  have same : (s.below more).entered = s.entered.below more := by
    simp only [entered, below, Nat.succ_ne_zero, if_false, if_neg (Nat.pos_iff_ne_zero.1 inner)]
  rw [if_neg (by simp only [below]; omega), same]

theorem Shifts.deeper {m : Eval α} (run : Shifts m) : Shifts (deeper m) where
  keeps := run.keeps.deeper
  counts {s a t} inner ran := by
    obtain ⟨-, u, nested, rfl⟩ := deeper_below ran inner 0
    have counted := run.counts (Nat.succ_pos _) nested
    simpa only [entered, exited, if_neg (Nat.pos_iff_ne_zero.1 inner)] using counted
  within {s a t} inner ran more affords := by
    obtain ⟨moved, u, nested, rfl⟩ := deeper_below ran inner more
    have affords : Affords s.entered u more := by
      simpa only [Affords, entered, exited, if_neg (Nat.pos_iff_ne_zero.1 inner)] using affords
    have kept := run.keeps.after nested
    rw [moved, run.within (Nat.succ_pos _) nested affords]
    simp only [Step.ending, exited, below, kept.depth, entered]
    rfl
  beyond {s a t} inner ran more exceeds := by
    obtain ⟨moved, u, nested, rfl⟩ := deeper_below ran inner more
    have exceeds : ¬ Affords s.entered u more := by
      simpa only [Affords, entered, exited, if_neg (Nat.pos_iff_ne_zero.1 inner)] using exceeds
    obtain ⟨w, stopped⟩ := run.beyond (Nat.succ_pos _) nested exceeds
    exact ⟨w.exited, moved.trans (congrArg (Step.ending exited) stopped)⟩

theorem compositional_shifts : Compositional fun α (m : Unit → Eval α) => Shifts (m ()) where
  perform {α f} plain := by
    have same := fun s => congrArg Frame.iterations (plain.frame s)
    refine ⟨plain.kept, ?_, ?_, ?_⟩
    · intro s a t _ run
      cases run
      exact (same s).ge
    · intro s a t _ run more _
      cases run
      show EStateM.Result.ok _ _ = _
      rw [plain.below s]
    · intro s a t _ run more exceeds
      cases run
      exact (exceeds (.inl (same s))).elim
  fail e := .stop (.failure e)
  bind first next := first.bind next
  count := countReplacement_shifts
  inside c run := run.inside c

end Shifting

theorem evaluateWith_shifts (fuel : Nat) (c : ContextId) (v : Value) : Shifts (evaluateWith (evaluate fuel) fuel c v) := by
  induction fuel generalizing c v with
  | zero =>
    exact compositional_shifts.evaluateWith_of_stops (fun _ => evaluate 0) (fun _ _ => .stop .outOfFuel)
      (fun _ => .stop .outOfFuel) 0 c v
  | succ fuel ih =>
    exact compositional_shifts.evaluateWith_of_stops (fun _ => evaluate (fuel + 1)) (fun c v => (ih c v).deeper)
      (fun _ => .stop .outOfFuel) (fuel + 1) c v

/-! ### Arguments one by one and together -/

/-- Values are evaluated one after the other, each of them outside of all other evaluation. The number is
the sum of the replacements that each of them takes. -/
inductive OneByOne (fuel : Nat) (c : ContextId) : Session → List Value → List Value → Session → Nat → Prop
  | nil (s : Session) : OneByOne fuel c s [] [] s 0
  | cons {s t u : Session} {e v : Value} {es vs : List Value} {n : Nat} (run : evaluate fuel c e s = .ok v t)
    (rest : OneByOne fuel c t es vs u n) : OneByOne fuel c s (e :: es) (v :: vs) u (t.iterations + n)

namespace Session

/-- The session on the first level, with as much room below it, and with some replacements counted. -/
def under (s : Session) (n : Nat) : Session :=
  { s with depth := 1, recursionLimit := s.recursionLimit + 1, iterations := n }

/-- Only the contexts, the definitions and the builtins decide whether anything is defined. -/
theorem Bare.of_contents {s t : Session} {c : ContextId} (bare : s.Bare c) (registry : t.registry = s.registry)
    (contexts : t.contexts = s.contexts) (lists : t.lists = s.lists) : t.Bare c where
  standard := registry.trans bare.standard
  undefined v k l found := by
    have there := bare.undefined v k l ((nearest_congr contexts.symm _ c).trans found)
    rwa [definitionsOf, lists]
  unmarked v := by
    rw [attributesOf, nearest_congr contexts]
    exact bare.unmarked v

/-- A number of replacements that is none, or within the limit on top of others. -/
def Allows (s : Session) (before n : Nat) : Prop := n = 0 ∨ (before + n : Int) ≤ s.iterationLimit

end Session

section Together

variable {fuel : Nat} {c : ContextId} {s t : Session} {e v : Value} {es vs : List Value} {before n : Nat}

/-- An outermost run, and the same run below a call. -/
theorem evaluate_under (outer : s.depth = 0) (run : evaluate fuel c e s = .ok v t) (before : Nat) :
    (s.Allows before t.iterations →
      evaluate fuel c e (s.under before) = .ok v (t.under (before + t.iterations))) ∧
    (¬ s.Allows before t.iterations →
      ∃ u, evaluate fuel c e (s.under before) = .error (.failure (.iterationLimit s.iterationLimit)) u) := by
  cases fuel with
  | zero => cases run
  | succ fuel =>
    obtain ⟨level, u, nested, rfl⟩ := deeper_ok.1 run
    rw [outer, if_pos rfl] at nested
    have shifts := evaluateWith_shifts fuel c e
    have kept := shifts.keeps.after nested
    -- Below a call the count goes on from what was counted before, instead of from zero.
    have moved : evaluate (fuel + 1) c e (s.under before) =
        Step.ending exited (evaluateWith (evaluate fuel) fuel c e ((s.recount (0 + 1) 0).below before)) := by
      have start : (s.under before).entered = (s.recount (0 + 1) 0).below before := by
        simp [entered, Session.under, below, Session.recount]
      rw [evaluate, deeper_eq, if_neg (by simp only [Session.under]; omega), start]
    have affords : Affords (s.recount (0 + 1) 0) u before ↔ s.Allows before u.iterations := by
      simp only [Affords, Allows, Session.recount]
      omega
    constructor
    · intro allowed
      rw [moved, shifts.within (Nat.succ_pos _) nested (affords.2 allowed)]
      simp [Step.ending, exited, below, Session.under, Session.recount, kept.depth, Nat.add_comm]
    · intro exceeds
      obtain ⟨w, stopped⟩ := shifts.beyond (Nat.succ_pos _) nested (mt affords.1 exceeds)
      exact ⟨w.exited, moved.trans (congrArg (Step.ending exited) stopped)⟩

theorem OneByOne.kept (alone : OneByOne fuel c s es vs t n) : Kept s t := by
  induction alone with
  | nil s => exact .refl s
  | cons run _ ih => exact ((evaluate_keeps fuel c _).after run).trans ih

theorem OneByOne.evaluateAll (alone : OneByOne fuel c s es vs t n) (outer : s.depth = 0) (before : Nat) :
    (s.Allows before n → evaluateAll (evaluate fuel) c es (s.under before) = .ok vs (t.under (before + n))) ∧
    (¬ s.Allows before n → ∃ u, Symbolic.evaluateAll (evaluate fuel) c es (s.under before) =
      .error (.failure (.iterationLimit s.iterationLimit)) u) := by
  induction alone generalizing before with
  | nil s => exact ⟨fun _ => rfl, fun exceeds => (exceeds (.inl rfl)).elim⟩
  | @cons s t u e v es vs n run rest ih =>
    have kept := (evaluate_keeps fuel c e).after run
    obtain ⟨here, stopHere⟩ := evaluate_under outer run before
    obtain ⟨there, stopThere⟩ := ih (kept.depth.trans outer) (before + t.iterations)
    simp only [Allows, kept.iterationLimit] at *
    constructor
    · intro allowed
      rw [Symbolic.evaluateAll, Step.bind_of_ok (here (by omega)), Step.bind_of_ok (there (by omega)), Nat.add_assoc]
      rfl
    · intro exceeds
      by_cases first : t.iterations = 0 ∨ (before + t.iterations : Int) ≤ s.iterationLimit
      · obtain ⟨w, stopped⟩ := stopThere (by omega)
        exact ⟨w, (Step.bind_of_ok (here first)).trans (Step.bind_of_error stopped)⟩
      · obtain ⟨w, stopped⟩ := stopHere first
        exact ⟨w, Step.bind_of_error stopped⟩

end Together

/-! ### Calls of functions that nothing is known about -/

section Calls

variable {f : String} {as : List Value} {ev : Evaluator} {fuel : Nat} {c : ContextId} {s : Session}

theorem Uninterpreted.unmarked (free : Uninterpreted f) (a : Symbol) : (markings f).contains a = false := by
  rw [markings, free.unbuilt]
  rfl

theorem arrange_free (free : Uninterpreted f) (flat : ∀ a ∈ as, a.argsOf? "Sequence" = none) :
    arrange (markings f) (call f as) = .ok (call f as) := by
  have kept : (as.flatMap fun a => (a.argsOf? "Sequence").getD [a]) = as := inline_of_flat flat
  simp only [arrange, free.unmarked, Bool.or_self, Bool.false_eq_true, if_false, spliceSequences, kept]

theorem evaluateParts_free (bare : s.Bare c) (free : Uninterpreted f) :
    evaluateParts ev (fuel + 1) c (markings f) (sym f) as ⟨[], List.Pairwise.nil⟩ s =
      (evaluateAll ev c as >>= fun bs => pure (call f (if sameItems bs as then as else bs))) s := by
  have args : evaluateArgs ev c (markings f) as = evaluateAll ev c as := (Legal.free as free).evaluateArgs_eq
  have head : evaluateSymbol ev (fuel + 1) c (sym f) s = .ok (sym f) s :=
    (evaluateSymbol_ok bare).2 ⟨.inr (Nat.succ_pos fuel), rfl, rfl⟩
  have unchanged : (sym f).differs (sym f) = false := differs_self rfl
  simp only [evaluateParts, free.unmarked, Bool.false_eq_true, if_false, args, evaluateHead]
  rw [Step.bind_of_ok head]
  simp only [unchanged, Bool.false_eq_true, if_false, pure_bind]

theorem evaluateArranged_free (bare : s.Bare c) (free : Uninterpreted f) :
    evaluateArranged ev (fuel + 1) c (markings f) (call f as) s = .ok (call f as) s := by
  have none : firstChange ev (fuel + 1) c (call f as) (sources (call f as)) s = .ok none s :=
    (firstChange_ok bare).2 ⟨fun _ _ => .inr (Nat.succ_pos fuel), rfl, rfl⟩
  have built : runBuiltin ev (fuel + 1) c (call f as) s = .ok (call f as) s := by
    rw [runBuiltin_eq bare.standard (.free as free), fold_free free]
    rfl
  have same : replaceOnce ev (fuel + 1) c (call f as) s = .ok (call f as) s := (Step.bind_of_ok none).trans built
  simp only [evaluateArranged, free.unmarked, Bool.false_and, Bool.false_eq_true, if_false]
  rw [Step.bind_of_ok same, differs_self rfl]
  rfl

/-- A call is evaluated by evaluating its arguments, if their values are no sequences. -/
theorem evaluateWith_free (bare : s.Bare c) (free : Uninterpreted f) {vs : List Value} {t : Session}
    (run : evaluateAll ev c as s = .ok vs t) (after : t.Bare c) (flat : ∀ v ∈ vs, v.argsOf? "Sequence" = none) :
    evaluateWith ev (fuel + 1) c (call f as) s = .ok (call f (if sameItems vs as then as else vs)) t := by
  have parts : evaluateParts ev (fuel + 1) c (markings f) (sym f) as ⟨[], List.Pairwise.nil⟩ s =
      .ok (call f (if sameItems vs as then as else vs)) t := by
    rw [evaluateParts_free bare free, Step.bind_of_ok run]
    rfl
  have stillFlat : ∀ a ∈ (if sameItems vs as then as else vs), a.argsOf? "Sequence" = none := by
    split
    · next same => exact argsOf_of_sameItems same flat
    · exact flat
  rw [evaluateWith_unmarked bare.standard (bare.unmarked _), Step.bind_of_ok parts, arrange_free free stillFlat]
  exact evaluateArranged_free after free

end Calls

/-- The arguments of a call of a function that nothing is known about, in a session without definitions, come
to the values that they come to one by one with one level less, if the number of replacements that this takes
in all is within the limit; otherwise the evaluation of the call exceeds that limit. -/
theorem evaluate_siblings {f : String} (free : Uninterpreted f) {fuel : Nat} {c : ContextId} {s t : Session}
    {es vs : List Value} {n : Nat} (outer : s.depth = 0) (level : 0 < s.recursionLimit) (before : s.Bare c)
    (alone : OneByOne (fuel + 1) c (s.limited (s.recursionLimit - 1) s.iterationLimit) es vs t n) (after : t.Bare c)
    (flat : ∀ v ∈ vs, v.argsOf? "Sequence" = none) :
    if (n : Int) ≤ max 0 s.iterationLimit then
      evaluate (fuel + 2) c (call f es) s = .ok (call f (if sameItems vs es then es else vs))
        { t with depth := 0, recursionLimit := s.recursionLimit, iterations := n }
    else ∃ u, evaluate (fuel + 2) c (call f es) s = .error (.failure (.iterationLimit s.iterationLimit)) u := by
  obtain ⟨together, stops⟩ := alone.evaluateAll outer 0
  have start : (s.limited (s.recursionLimit - 1) s.iterationLimit).under 0 = s.recount 1 0 := by
    simp [Session.under, Session.recount, limited]
  rw [start] at together stops
  have limit : t.recursionLimit = s.recursionLimit - 1 := alone.kept.recursionLimit
  have enter : evaluate (fuel + 2) c (call f es) s =
      Step.ending exited (evaluateWith (evaluate (fuel + 1)) (fuel + 1) c (call f es) (s.recount 1 0)) := by
    have same : s.entered = s.recount 1 0 := by simp [entered, Session.recount, outer]
    rw [evaluate, deeper_eq, if_neg (by omega), same]
  split
  · next allowed =>
    have run := together (by simp only [Allows, limited]; omega)
    rw [enter, evaluateWith_free (before.recount 1 0) free run (after.of_contents rfl rfl rfl) flat]
    simp [Step.ending, exited, Session.under, limit]
  · next exceeds =>
    obtain ⟨u, stopped⟩ := stops (by simp only [Allows, limited]; omega)
    have parts : evaluateParts _ (fuel + 1) c _ _ _ _ _ = _ :=
      (evaluateParts_free (before.recount 1 0) free).trans (Step.bind_of_error stopped)
    refine ⟨u.exited, ?_⟩
    rw [enter, evaluateWith_unmarked (before.recount 1 0).standard ((before.recount 1 0).unmarked _),
      Step.bind_of_error parts]
    rfl

/-- What a run of a term in a session without definitions comes to and counts says which run it is. -/
theorem run_of_returns {fuel : Nat} {c : ContextId} {s : Session} {e v : Value} {n : Nat} (bare : s.Bare c)
    (outer : s.depth = 0) (term : IsTerm .all e) (precise : v.isExact = true)
    (found : Step.returns (fun r => r.1.isExact && r.1.same v && r.2 == n)
      ((do return (← evaluate fuel c e, (← get).iterations) : Eval (Value × Nat)) s) = true) :
    evaluate fuel c e s = .ok v (s.recount 0 n) := by
  obtain ⟨r, t, run, tested⟩ := Step.returns_iff.1 found
  obtain ⟨w, u, here, rest⟩ := Step.bind_ok run
  obtain ⟨rfl, rfl⟩ := Step.pure_ok.1 rest
  simp only [Bool.and_eq_true, beq_iff_eq] at tested
  obtain rfl := eq_of_same tested.1.1 precise tested.1.2
  obtain ⟨⟨j, rfl⟩, -⟩ := evaluate_settles bare fuel s.depth s.iterations e w u term here
  rw [here, ← tested.2, outer]
  rfl

/-- With three levels below it and three replacements `f[1 + 2 * 3, x, 1 + 2]` comes to `f[7, x, 3]`. With two
replacements it does not, although each argument comes to its value. -/
theorem evaluate_siblings_sums :
    let es := [call "Plus" [int 1, call "Times" [int 2, int 3]], sym "x", call "Plus" [int 1, int 2]]
    (∃ t, evaluate 9 0 (call "f" es) (Session.initial.limited 4 3) = .ok (call "f" [int 7, sym "x", int 3]) t) ∧
    ∃ t, evaluate 9 0 (call "f" es) (Session.initial.limited 4 2) = .error (.failure (.iterationLimit 2)) t := by
  intro es
  have free : Uninterpreted "f" := ⟨by decide, by decide, by decide⟩
  have product : IsTerm .all (call "Times" [int 2, int 3]) :=
    .apply trivial (.ring .times _) (by simp [IsTerm.integer])
  have first : IsTerm .all (call "Plus" [int 1, call "Times" [int 2, int 3]]) :=
    .apply trivial (.ring .plus _) (by simp [IsTerm.integer, product])
  have last : IsTerm .all (call "Plus" [int 1, int 2]) := .apply trivial (.ring .plus _) (by simp [IsTerm.integer])
  have bare : ∀ recursion iteration, (Session.initial.limited recursion iteration).Bare 0 := fun _ _ =>
    initial_bare.of_contents rfl rfl rfl
  have alone : ∀ iteration, iteration = 3 ∨ iteration = 2 → ∃ t, t.Bare 0 ∧
      OneByOne 8 0 (Session.initial.limited 3 iteration) es [int 7, sym "x", int 3] t 3 := by
    intro iteration either
    have start := bare 3 iteration
    refine ⟨_, start.recount 0 1, .cons (run_of_returns start rfl first rfl ?_ (n := 2))
      (.cons (run_of_returns (start.recount 0 2) rfl (.atom trivial) rfl ?_ (n := 0))
        (.cons (run_of_returns (start.recount 0 0) rfl last rfl ?_ (n := 1)) (.nil _)))⟩
    all_goals rcases either with rfl | rfl <;> decide +kernel
  have flat : ∀ v ∈ [int 7, sym "x", int 3], v.argsOf? "Sequence" = none := by simp [argsOf?]
  obtain ⟨t, after, three⟩ := alone 3 (.inl rfl)
  obtain ⟨u, afterward, two⟩ := alone 2 (.inr rfl)
  have enough := evaluate_siblings free rfl (by decide) (bare 4 3) three after flat
  have short := evaluate_siblings free rfl (by decide) (bare 4 2) two afterward flat
  rw [if_pos (by decide), if_neg (by decide +kernel)] at enough
  rw [if_neg (by decide)] at short
  exact ⟨⟨_, enough⟩, short⟩

/-- With one replacement `1 + 1` comes to 2, but `f[1 + 1, 1 + 1]` comes to nothing. -/
theorem siblings_exceed_limit :
    Step.returns (same (int 2)) (evaluate 9 0 (call "Plus" [int 1, int 1]) (Session.initial.limited 255 1)) = true ∧
    Step.returns (same (sym "exceeded")) (evaluateOr 9 0 (sym "exceeded")
      (call "f" [call "Plus" [int 1, int 1], call "Plus" [int 1, int 1]]) (Session.initial.limited 256 1)) = true := by
  decide +kernel

end Symbolic
