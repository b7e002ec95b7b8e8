import Symbolic.Proofs.Evaluation.Loops
import Symbolic.Proofs.Evaluation.Prospects
import Symbolic.Proofs.Evaluation.Scoping
import Symbolic.Proofs.Evaluation.Switching

/-!
Programs that assign to variables. In a session where symbols have values, and nothing else is defined, an assignment
changes the value of one symbol (`Stores.moves_assignment`), and a row of expressions does what they do one after the
other (`Stores.moves_compound`). Main statement: what every round of a loop keeps holds where the loop ends, after as
many rounds as are counted, and there the test is not true (`rounds_ok`).
-/
namespace Symbolic

open Value Session
open Arithmetic (inline)

namespace Session

/-! ### Symbols with values -/

/-- In a context of the session some symbols have values, and nothing else is defined. Lists of definitions may be
there if they are empty. -/
structure Stores (s : Session) (c : ContextId) (value : String → Option Value) : Prop where
  standard : s.registry = Builtin.standard
  here : c < s.contexts.size
  held : ∀ {x v}, value x = some v →
    ∃ l, s.definitions? c (sym x) .own = some l ∧ s.lists[l]? = some [⟨sym x, v, .null⟩]
  free : ∀ {x k l}, (k = .own → value x = none) → s.definitions? c (sym x) k = some l → s.lists[l]? = some []
  unmarked : ∀ x, s.attributesOf c (sym x) = []

def assigned (s : Session) (c : ContextId) (x : String) (v : Value) : Session :=
  s.define c (sym x) .own [⟨sym x, v, .null⟩]

variable {s t : Session} {c : ContextId} {value : String → Option Value} {x f : String} {v : Value}

theorem Vacant.stores (vacant : s.Vacant c) : s.Stores c fun _ => none where
  standard := vacant.standard
  here := vacant.here
  held found := by cases found
  free _ found := vacant.empty found
  unmarked := vacant.unmarked

theorem Stores.of_contents (stores : s.Stores c value) (registry : t.registry = s.registry)
    (contexts : t.contexts = s.contexts) (lists : t.lists = s.lists) : t.Stores c value where
  standard := registry.trans stores.standard
  here := contexts ▸ stores.here
  held found := by
    obtain ⟨l, there, holds⟩ := stores.held found
    exact ⟨l, (nearest_congr contexts _ c).trans there, lists ▸ holds⟩
  free unset found := lists ▸ stores.free unset ((nearest_congr contexts.symm _ c).trans found)
  unmarked x := by
    rw [attributesOf, nearest_congr contexts]
    exact stores.unmarked x

theorem Stores.generate (stores : s.Stores c value) (stem : String) : (s.generate stem).2.Stores c value :=
  stores.of_contents rfl rfl rfl

theorem Stores.assigned (stores : s.Stores c value) (x : String) (v : Value) :
    (s.assigned c x v).Stores c (Function.update value x (some v)) := by
  have added : (s.newList [⟨sym x, v, .null⟩]).2.contexts = s.contexts := rfl
  have lookup (y k) : (s.assigned c x v).definitions? c (sym y) k =
      if y = x ∧ k = .own then some s.lists.size else s.definitions? c (sym y) k := by
    rw [definitions?, definitions?, ← nearest_congr added]
    exact definitions_setList (s := (s.newList [⟨sym x, v, .null⟩]).2) stores.here x y .own k _
  have kept {l ds} (found : s.lists[l]? = some ds) : (s.assigned c x v).lists[l]? = some ds := lists_newList found _
  refine ⟨stores.standard, ?_, ?_, ?_, fun y => ?_⟩
  · show c < (s.contexts.modify c _).size
    rw [Array.size_modify]
    exact stores.here
  · intro y u found
    by_cases same : y = x
    · subst same
      rw [Function.update_self] at found
      cases found
      exact ⟨s.lists.size, (lookup y .own).trans (if_pos ⟨rfl, rfl⟩), Array.getElem?_push.trans (if_pos rfl)⟩
    · rw [Function.update_of_ne same] at found
      obtain ⟨l, there, holds⟩ := stores.held found
      exact ⟨l, (lookup y .own).trans ((if_neg fun both => same both.1).trans there), kept holds⟩
  · intro y k l unset found
    have other : ¬ (y = x ∧ k = .own) := by
      rintro ⟨rfl, own⟩
      have none := unset own
      rw [Function.update_self] at none
      cases none
    rw [lookup, if_neg other] at found
    refine kept (stores.free (fun own => ?_) found)
    rw [← unset own, Function.update_of_ne fun same => other ⟨same, own⟩]
  · refine (attributesOf_setList (s := (s.newList [⟨sym x, v, .null⟩]).2) stores.here ..).trans ?_
    rw [attributesOf, nearest_congr added]
    exact stores.unmarked y

section Reading

variable (stores : s.Stores c value)

include stores

theorem Stores.unset (none : value x = none) {k : DefinitionKind} {l : ListId}
    (found : s.definitions? c (sym x) k = some l) : s.definitionsOf l = [] :=
  definitionsOf_of_found (stores.free (fun _ => none) found)

theorem Stores.silent (none : value f = none) : s.Silent c f where
  undefined _ _ found := stores.unset none found
  upward _ _ found := definitionsOf_of_found (stores.free (k := .up) (fun own => nomatch own) found)
  unmarked := stores.unmarked f

theorem Stores.calculates (none : ∀ f : Calculation, value f.name = none) : s.Calculates c :=
  ⟨stores.standard, fun f => stores.silent (none f)⟩

theorem Stores.unlisted (none : value "List" = none) : s.Unlisted c where
  toSilent := stores.silent none
  unbuilt := by
    rw [builtin?, stores.standard, find_standard]
    rfl

theorem Stores.harmless_symbol {P : Value → Prop} (found : value x = some v) (harmless : s.Harmless c v P) :
    s.Harmless c (sym x) P := by
  intro n r u run
  obtain ⟨-, w, nested, rfl⟩ := deeper_ok.1 (evaluate_more run (Nat.le_add_right n 2))
  obtain ⟨l, there, holds⟩ := stores.held found
  have single : (s.recount 1 0).definitionsOf l = [⟨sym x, v, .null⟩] := definitionsOf_of_found holds
  have own : evaluateWith (evaluate (n + 1)) (n + 1) c (sym x) (s.recount 1 0) = evaluate (n + 1) c v (s.recount 1 0) :=
    evaluateSymbol_own (s := s.recount 1 0) (definitions_recount.trans there) single
  obtain ⟨known, j, rfl⟩ := harmless.run (own.symm.trans nested)
  exact ⟨known, j, rfl⟩

theorem Stores.counts_symbol {m : Number} (found : value x = some (.number m)) : s.Counts c (sym x) (· = m) :=
  counts_of_callable (stores.harmless_symbol found ((harmless_atom rfl).mono fun _ same => ⟨m, rfl, same⟩)) rfl

theorem Stores.harmless_unset (none : value x = none) : s.Harmless c (sym x) (· = sym x) := by
  intro n r u run
  obtain ⟨-, w, nested, rfl⟩ := deeper_ok.1 (evaluate_more run (Nat.le_add_right n 2))
  have inside : ∀ l, (s.recount 1 0).definitions? c (sym x) .own = some l → (s.recount 1 0).definitionsOf l = [] :=
    fun l found => stores.unset none (definitions_recount.symm.trans found)
  have itself : evaluateWith (evaluate (n + 1)) (n + 1) c (sym x) (s.recount 1 0) = .ok (sym x) (s.recount 1 0) :=
    evaluateSymbol_unset inside
  cases itself.symm.trans nested
  exact ⟨rfl, 0, rfl⟩

end Reading

/-! ### Expressions with effects -/

/-- If an expression comes to something, it does so in a session that both are related to, but for the counts of
evaluation. -/
def Moves (s : Session) (c : ContextId) (e : Value) (P : Value → Session → Prop) : Prop :=
  ∀ n d i r u, evaluate n c e (s.recount d i) = .ok r u → ∃ t j, P r t ∧ u = t.recount d j

theorem Harmless.moves {P : Value → Prop} (harmless : s.Harmless c v P) : s.Moves c v fun r t => P r ∧ t = s := by
  intro n d i r u run
  obtain ⟨holds, j, rfl⟩ := harmless.run run
  exact ⟨s, j, ⟨holds, rfl⟩, rfl⟩

theorem Moves.mono {P Q : Value → Session → Prop} (moves : s.Moves c v P) (weaker : ∀ r t, P r t → Q r t) :
    s.Moves c v Q := by
  intro n d i r u run
  obtain ⟨t, j, holds, rfl⟩ := moves n d i r u run
  exact ⟨t, j, weaker r t holds, rfl⟩

/-- What is known one level deeper, and with fuel left, is known of the whole evaluation. -/
theorem moves_of_nested {P : Value → Session → Prop} (nested : ∀ n d i r u,
    evaluateWith (evaluate (n + 1)) (n + 1) c v (s.recount d i) = .ok r u → ∃ t j, P r t ∧ u = t.recount d j) :
    s.Moves c v P := by
  intro n d i r u run
  obtain ⟨-, w, ran, rfl⟩ := deeper_ok.1 (evaluate_more run (Nat.le_add_right n 2))
  obtain ⟨t, j, holds, rfl⟩ := nested n _ _ r w ran
  exact ⟨t, j, holds, rfl⟩

theorem Moves.again {P : Value → Session → Prop} {e q r : Value} {n d i : Nat} {u : Session} (moves : s.Moves c q P)
    (new : q.differs e = true) (run : again (evaluate n) c e q (s.recount d i) = .ok r u) :
    ∃ t j, P r t ∧ u = t.recount d j := by
  rw [again_new new] at run
  obtain ⟨_, w, counted, run⟩ := Step.bind_ok run
  cases countReplacement_ok counted
  exact moves _ _ _ r u run

section Statements

variable (stores : s.Stores c value)

include stores

theorem Stores.moves_assignment (unset : value "Set" = none) {e : Value} {P : Value → Prop}
    (single : e.argsOf? "Sequence" = none) (harmless : s.Harmless c e P)
    (closed : ∀ v, P v → v.argsOf? "Sequence" = none ∧ s.Harmless c v P ∧ (s.assigned c x v).Harmless c v P)
    (new : ∀ v, P v → ∀ as, v.differs (call "Set" as) = true) :
    s.Moves c (call "Set" [sym x, e]) fun r t => P r ∧ ∃ v, P v ∧ t = s.assigned c x v := by
  have silent := stores.silent unset
  refine moves_of_nested fun n d i r u run => ?_
  rw [evaluateWith_silent (s := s.recount d i) stores.standard (silent.of_contents rfl rfl) (by decide), evaluateOn,
    evaluateArgs_first (by decide) (by decide) (by decide), map_eq_pure_bind, bind_assoc] at run
  obtain ⟨bs, w, row, run⟩ := Step.bind_ok run
  -- What stays of the second argument, evaluated or not, comes to a value of the kind.
  have serves : s.Serves c e fun v => v.argsOf? "Sequence" = none ∧ s.Harmless c v P :=
    harmless.mono fun b kind => ⟨⟨(closed b kind).1, (closed b kind).2.1⟩, fun _ => ⟨single, harmless⟩⟩
  obtain ⟨holds, j, rfl⟩ := evaluateAll_serves (.cons serves .nil) row
  obtain ⟨b, ⟨unspliced, comes⟩, stays⟩ := forall₂_single.1 holds
  rw [pure_bind, settled_cons, stays, arrange_spliced (by decide),
    inline_of_flat (forall_mem_pair.2 ⟨rfl, unspliced⟩)] at run
  obtain ⟨_, w, arranged, run⟩ := Step.bind_ok run
  obtain ⟨rfl, rfl⟩ := Step.pure_ok.1 arranged
  have goes : evaluateArranged (evaluate (n + 1)) (n + 1) c (markings "Set") (call "Set" [sym x, b])
      (s.recount d j) = _ :=
    evaluateArranged_undefined .set stores.standard rfl (silent.toUndefined.of_contents rfl rfl) (by decide)
  obtain ⟨v, w, assigned, run⟩ := Step.bind_ok (goes.symm.trans run)
  obtain ⟨_, w, ran, assigned⟩ := Step.bind_ok assigned
  obtain ⟨kind, k, rfl⟩ := comes.run ran
  cases assigned
  replace run : again (evaluate (n + 1)) c (call "Set" [sym x, b]) v ((s.assigned c x v).recount d k) = .ok r u := run
  obtain ⟨_, l, ⟨result, rfl⟩, rfl⟩ := (closed v kind).2.2.moves.again (new v kind _) run
  exact ⟨_, l, ⟨result, v, kind, rfl⟩, rfl⟩

theorem Stores.moves_compound (unset : value "CompoundExpression" = none) {a b : Value}
    {P Q R : Value → Session → Prop} (single : ∀ e ∈ [a, b], e.argsOf? "Sequence" = none) (first : s.Moves c a P)
    (second : ∀ r t, P r t → t.Moves c b Q)
    (last : ∀ r t, Q r t → r.differs (call "CompoundExpression" [a, b]) = true ∧ t.Moves c r R) :
    s.Moves c (call "CompoundExpression" [a, b]) R := by
  have silent := stores.silent unset
  refine moves_of_nested fun n d i r u run => ?_
  rw [evaluateWith_held (s := s.recount d i) compound_verbatim stores.standard (silent.toUndefined.of_contents rfl rfl)
    (silent.unarranged.of_contexts rfl) single] at run
  obtain ⟨q, w, ran, run⟩ := Step.bind_ok run
  obtain ⟨x, y, left, ran⟩ := Step.bind_ok ran
  obtain ⟨t, j, holds, rfl⟩ := first _ _ _ x y left
  obtain ⟨z, y, right, ran⟩ := Step.bind_ok ran
  obtain ⟨t, j, holds, rfl⟩ := second _ _ holds _ _ _ z y right
  obtain ⟨rfl, rfl⟩ := Step.pure_ok.1 ran
  obtain ⟨new, moves⟩ := last _ _ holds
  exact moves.again new run

end Statements

/-- A local variable with an initial value is a new symbol that is given what the value comes to. -/
theorem rename_initial {y : String} {e : Value} {P : Value → Prop} {known table : List (Value × Value)}
    {ls : List Scope.Local} {k n d i : Nat} {u : Session} (named : x ++ Nat.repr k = y)
    (harmless : (s.generate x).2.Harmless c e P)
    (run : Scope.rename (evaluate n) c known (.initial (sym x) e :: ls) (s.recount d i) = .ok table u)
    (next : s.nextSymbol = k) :
    ∃ v j, P v ∧ Scope.rename (evaluate n) c (writeKey (sym x) (sym y) known) ls
      (((s.generate x).2.assigned c y v).recount d j) = .ok table u := by
  subst next named
  obtain ⟨_, w, generated, run⟩ := Step.bind_ok run
  cases generated
  obtain ⟨v, w, ran, run⟩ := Step.bind_ok run
  obtain ⟨kind, j, rfl⟩ := harmless.run (d := d) (i := i) ran
  exact ⟨v, j, kind, run⟩

theorem Unlisted.harmless_pair (unlisted : s.Unlisted c) {a b : Value} {P Q : Value → Prop} (first : s.Serves c a P)
    (second : s.Serves c b Q) (single : ∀ v, P v → v.argsOf? "Sequence" = none)
    (singleToo : ∀ v, Q v → v.argsOf? "Sequence" = none) :
    s.Harmless c (ofItems [a, b]) fun r => ∃ v w, P v ∧ Q w ∧ r = ofItems [v, w] := by
  have serves : List.Forall₂ (s.Serves c) [a, b] [P, Q] := .cons first (.cons second .nil)
  refine (list_of_row unlisted fun _ _ _ _ _ row => evaluateAll_serves serves row).mono ?_
  rintro r ⟨ws, holds, rfl⟩
  obtain ⟨v, w, kind, other, stays⟩ := forall₂_pair.1 holds
  refine ⟨v, w, kind, other, ?_⟩
  rw [stays, inline_of_flat (forall_mem_pair.2 ⟨single v kind, singleToo w other⟩)]

end Session

/-! ### Loops -/

/-- How many rounds a loop makes: its steps are evaluated as long as its test is true. -/
def Control.rounds (ev : Evaluator) (c : ContextId) (test : Value) (steps : List Value) : Nat → Eval Nat
  | 0 => throw .outOfFuel
  | fuel + 1 => do
    if (← ev c test).isTrue then
      let _ ← sequence ev c nothing steps
      return (← rounds ev c test steps fuel) + 1
    else return 0

/-- A loop is what makes the rounds, and the number of rounds is forgotten. -/
theorem loopWhile_eq_rounds {ev : Evaluator} {c : ContextId} {test : Value} {steps : List Value} (fuel : Nat) :
    Control.loopWhile ev c test steps fuel = (do let _ ← Control.rounds ev c test steps fuel; return nothing) := by
  induction fuel with
  | zero => rfl
  | succ fuel ih =>
    simp only [Control.loopWhile, Control.rounds, bind_assoc]
    refine congrArg (ev c test >>= ·) (funext fun v => ?_)
    split
    · simp only [ih, bind_assoc, pure_bind]
    · simp only [pure_bind]

/-- What every round keeps, with the rounds counted, and what the test then says, hold where a loop ends, and there the
test is not true. -/
theorem rounds_ok {c : ContextId} {test body : Value} {I : Nat → Session → Prop} {T : Nat → Session → Value → Prop}
    (tests : ∀ k s, I k s → s.Harmless c test (T k s))
    (steps : ∀ k s v, T k s v → v.isTrue = true → s.Moves c body fun _ t => I (k + 1) t)
    {n fuel d i j k : Nat} {s u : Session} (start : I j s)
    (run : Control.rounds (evaluate n) c test [body] fuel (s.recount d i) = .ok k u) :
    ∃ t l v, u = t.recount d l ∧ T (j + k) t v ∧ v.isTrue = false := by
  induction fuel generalizing s i j k with
  | zero => cases run
  | succ fuel ih =>
    obtain ⟨v, w, tested, run⟩ := Step.bind_ok run
    obtain ⟨holds, l, rfl⟩ := (tests j s start).run tested
    cases true : v.isTrue with
    | false =>
      rw [true] at run
      cases run
      exact ⟨s, l, v, rfl, holds, true⟩
    | true =>
      rw [true] at run
      obtain ⟨_, w, stepped, run⟩ := Step.bind_ok run
      obtain ⟨r, x, ran, stepped⟩ := Step.bind_ok stepped
      obtain ⟨-, rfl⟩ := Step.pure_ok.1 stepped
      obtain ⟨t, m, kept, rfl⟩ := steps j s v holds true _ _ _ r x ran
      obtain ⟨more, w, rest, counted⟩ := Step.bind_ok run
      obtain ⟨rfl, rfl⟩ := Step.pure_ok.1 counted
      obtain ⟨t, l, v, rfl, ends, exit⟩ := ih kept rest
      refine ⟨t, l, v, rfl, ?_, exit⟩
      rwa [Nat.add_right_comm, Nat.add_assoc] at ends

end Symbolic
