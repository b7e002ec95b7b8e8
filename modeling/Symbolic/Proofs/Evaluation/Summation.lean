import Symbolic.Proofs.Evaluation.Elementwise
import Symbolic.Proofs.Evaluation.Progressions
import Symbolic.Proofs.Splicing

/-!
Sums and products over an iterator, beside sums and products of arguments. An accumulation evaluates its summand
before the variable has a value, then an instance of what the summand came to for every integer of the range, and
joins the values in order; the operation evaluates its arguments, brings them in order and combines them. Main
statement: where the terms come to integers, both come to the same. Symbolic terms are not collected by the first.
-/
namespace Symbolic

open Value Session
open Arithmetic (inline)

/-! ### Integers under a ring operation -/

/-- A value is an integer that can be written. -/
def Value.IsCount (v : Value) : Prop := ∃ n, v = int n ∧ v.isWritable = true

theorem map_integers {vs : List Value} (whole : ∀ v ∈ vs, v.IsCount) : (integers vs).map int = vs := by
  induction vs with
  | nil => rfl
  | cons v vs ih =>
    obtain ⟨⟨n, rfl, -⟩, others⟩ := List.forall_mem_cons.1 whole
    rw [integers_int_cons, List.map_cons, ih others]

namespace RingOp

def operation : RingOp → Operation
  | .plus => .plus
  | .times => .times

theorem named (op : RingOp) : (Builtin.ofName? op.name).map Builtin.operation = some op.operation := by
  cases op <;> rfl

theorem unheld (op : RingOp) : ∀ a ∈ Attribute.holding, (markings op.name).contains a = false := by
  cases op <;> decide

variable (op : RingOp) (ns : List Int)

theorem isTerm_ints : IsTerm .all (call op.name (ns.map int)) := by
  refine .ofRing op fun a member => ?_
  obtain ⟨n, -, rfl⟩ := List.mem_map.1 member
  exact .integer n

theorem inline_ints : inline op.name (ns.map int) = ns.map int :=
  inline_of_flat fun a member => by
    obtain ⟨n, -, rfl⟩ := List.mem_map.1 member
    rfl

theorem integers_ints : integers (ns.map int) = ns := by
  simp [integers, List.filterMap_map, Function.comp_def, int?]

theorem others_ints : others (ns.map int) = [] := by
  simp [others, List.filter_map, Function.comp_def, number?]

theorem separate_ints : Arithmetic.separate (ns.map int) = (ns.map .int, []) := by
  rw [separate_terms fun a => (isTerm_ints .plus ns).arg, integers_ints, others_ints]

theorem fold_ints : fold op.name (ns.map int) = .ok (int (op.total ns)) := by
  rcases ns with _ | ⟨n, _ | ⟨m, ns⟩⟩
  · cases op <;> rfl
  · rw [op.total_singleton]
    cases op <;> rfl
  · have flat : inline op.name (int n :: int m :: ns.map int) = int n :: int m :: ns.map int :=
      op.inline_ints (n :: m :: ns)
    have separated : Arithmetic.separate (int n :: int m :: ns.map int) = ((n :: m :: ns).map .int, []) :=
      separate_ints (n :: m :: ns)
    cases op with
    | plus =>
      obtain ⟨numbers, rest⟩ := Prod.mk.inj separated
      simp only [name] at flat
      simp only [name, fold, List.map_cons, Arithmetic.plus]
      rw [flat, numbers, rest, sumOf_ints]
      rfl
    | times =>
      simp only [name] at flat
      simp only [name, fold, List.map_cons, Arithmetic.times]
      rw [flat, separated, productOf_ints]
      simp only [Arithmetic.orFail, bind, Except.bind, pure, Except.pure, Number.isZero, Number.isOne, equal_int,
        decide_eq_true_eq, List.isEmpty_nil, if_true]
      -- A zero among the factors is looked for first, and makes the product zero.
      split
      · next zero =>
        obtain ⟨x, member, isZero⟩ := List.any_eq_true.1 zero
        obtain ⟨k, inside, rfl⟩ : ∃ k ∈ n :: m :: ns, int k = x := List.mem_map.1 member
        have vanishes : k = 0 := by simpa using (IsTerm.integer (V := .all) k).equal_int.1 isZero
        rw [total, List.prod_eq_zero (vanishes ▸ inside)]
      · split
        · next zero => rw [zero]
        · split
          · next one => rw [one]
          · rfl

theorem run_ints (ev : Evaluator) (fuel : Nat) (c : ContextId) :
    op.operation.run ev fuel c (call op.name (ns.map int)) = pure (int (op.total ns)) := by
  have folded := op.fold_ints ns
  cases op with
  | plus => exact congrArg Step.ofExcept folded
  | times => exact congrArg Step.ofExcept folded

theorem arrange_ints (writable : ∀ n ∈ ns, (int n).isWritable = true) :
    ∃ ms, op.total ms = op.total ns ∧
      arrange (markings op.name) (call op.name (ns.map int)) = .ok (call op.name (ms.map int)) := by
  have terms : ∀ a ∈ ns.map int, IsTerm .all a := fun a => (op.isTerm_ints ns).arg
  have flat : flatArgs (sym op.name) (ns.map int) = ns.map int :=
    flatArgs_of_flat fun a member => by
      obtain ⟨n, -, rfl⟩ := List.mem_map.1 member
      rfl
  have perm := canonicalSort_perm (ns.map int)
  refine ⟨integers (canonicalSort (ns.map int)), op.total_perm ?_, ?_⟩
  · have reordered := perm.filterMap int?
    rwa [← integers, ← integers, integers_ints] at reordered
  · have writes : areWritable (ns.map int) = true :=
      areWritable_iff.2 (List.forall_mem_map.2 writable)
    rw [arrange_ring (op.isTerm_ints ns), flat, (sortArgs_ok terms).2 ⟨.inr writes, rfl⟩, map_integers]
    intro v member
    obtain ⟨n, inside, rfl⟩ := List.mem_map.1 (perm.mem_iff.1 member)
    exact ⟨n, rfl, writable n inside⟩

end RingOp

/-- Evaluates terms and what their integers make, which takes the place of an expression. -/
def RingOp.combined (op : RingOp) (ev : Evaluator) (c : ContextId) (ts : List Value) : Eval Value := do
  let vs ← evaluateAll ev c ts
  countReplacement
  ev c (int (op.total (integers vs)))

section Plain

variable {s : Session} {c : ContextId} {n d i : Nat} {ts : List Value} (op : RingOp)

/-- An argument that comes to a value is either that value or no atom. -/
theorem Session.Harmless.atom {t : Value} {P : Value → Prop} (harmless : s.Harmless c t P) :
    s.Harmless c t fun r => P r ∧ (t.isAtom = true → r = t) := by
  intro n r u run
  obtain ⟨holds, unchanged⟩ := harmless n r u run
  refine ⟨⟨holds, fun atom => ?_⟩, unchanged⟩
  cases n with
  | zero => cases run
  | succ n =>
    obtain ⟨-, w, inner, -⟩ := deeper_ok.1 run
    rw [evaluateWith_atom atom] at inner
    cases inner
    rfl

theorem settled_counts {vs : List Value}
    (pairs : List.Forall₂ (fun t v => v.IsCount ∧ (t.isAtom = true → v = t)) ts vs) : settled ts vs = vs := by
  refine Discerned.settled fun same => ?_
  induction pairs with
  | nil => rfl
  | @cons t v ts vs here _ ih =>
    obtain ⟨⟨k, rfl, -⟩, atom⟩ := here
    rw [sameItems, Bool.and_eq_true_iff] at same
    have basic : t.isAtom = true := by
      cases t with
      | bool | number => rfl
      | _ => simp [Value.same, number?] at same
    rw [atom basic, ih same.2]

/-- A sum or product of arguments that come to integers evaluates them and comes to what they make. -/
theorem evaluateWith_ring (standard : s.registry = Builtin.standard) (silent : s.Silent c op.name)
    (each : ∀ t ∈ ts, s.Harmless c t IsCount) :
    evaluateWith (evaluate (n + 1)) (n + 1) c (call op.name ts) (s.recount d i) =
      op.combined (evaluate (n + 1)) c ts (s.recount d i) := by
  have said : (s.recount d i).Silent c op.name := silent.of_contents rfl rfl
  rw [evaluateWith_silent (s := s.recount d i) standard said (op.unheld _ (by decide)), evaluateOn,
    evaluateArgs_unheld op.unheld, RingOp.combined]
  refine Step.bind_congr rfl fun vs u ran => ?_
  obtain ⟨pairs, j, rfl⟩ := evaluateAll_harmless (fun t member => (each t member).atom) ran
  have counts : ∀ v ∈ vs, v.IsCount := fun v member => by
    obtain ⟨t, -, holds, -⟩ := exists_of_forall₂ pairs member
    exact holds
  obtain ⟨ms, total, arranged⟩ := op.arrange_ints (integers vs) fun k member => by
    obtain ⟨-, -, writable⟩ := counts (int k) (mem_integers.1 member)
    exact writable
  rw [map_integers counts] at arranged
  have unthreaded : ((markings op.name).contains Attribute.listable &&
      (call op.name (ms.map int)).threadLists.differs (call op.name (ms.map int))) = false := by
    rw [threadLists_term (op.isTerm_ints ms), differs_self rfl, Bool.and_false]
  rw [settled_counts pairs]
  change (Step.ofExcept (arrange (markings op.name) (call op.name vs)) >>= _) _ = _
  rw [arranged]
  refine (evaluateArranged_unthreaded (s := s.recount d j) op.operation standard op.named
    (silent.toUndefined.of_contents rfl rfl) unthreaded).trans ?_
  rw [op.run_ints, total, pure_bind, again_new (differs_of_basic rfl)]

end Plain

/-! ### Joining the values of terms -/

theorem evaluateAll_eq_mapM (ev : Evaluator) (c : ContextId) (ts : List Value) :
    evaluateAll ev c ts = ts.mapM (ev c) := by
  induction ts with
  | nil => rfl
  | cons t ts ih => rw [evaluateAll, List.mapM_cons, ih]

namespace RingOp

/-- Evaluates terms one after the other and joins what they come to. -/
def joined (op : RingOp) (ev : Evaluator) (c : ContextId) (ts : List Value) : Eval Value :=
  ts.foldlM (fun acc t => do Step.ofExcept (op.join acc (← ev c t))) (int op.unit)

variable (op : RingOp) {ev : Evaluator} {c : ContextId}

theorem accumulateEach_instances {body var : Value} {d : Iteration.Integers} {ts : List Value}
    (instances : (d.progression.toList.mapM fun k => Iteration.instantiate body var (int k)) = .ok ts) :
    Iteration.accumulateEach ev c op.join body var (int op.unit) d = op.joined ev c ts := by
  rw [Iteration.accumulateEach, Iteration.Integers.foldM_eq_foldlM, joined]
  generalize d.progression.toList = ks at instances
  generalize int op.unit = acc
  induction ks generalizing acc ts with
  | nil =>
    cases instances
    rfl
  | cons k ks ih =>
    rw [List.mapM_cons] at instances
    obtain ⟨t, first, later⟩ := Except.bind_ok instances
    obtain ⟨rest, found, same⟩ := Except.bind_ok later
    cases same
    rw [List.foldlM_cons, List.foldlM_cons, Iteration.evaluateAt, first]
    simp only [ih found]
    rfl

theorem joined_whole {ts : List Value} {s : Session} (whole : Iteration.Whole (ev c) ts s) :
    op.joined ev c ts s = ((fun vs => int (op.total (integers vs))) <$> evaluateAll ev c ts) s := by
  rw [joined, Iteration.foldlM_whole op.join_ints whole, evaluateAll_eq_mapM]
  simp only [op.foldl_total]

end RingOp

theorem whole_of_counts {s : Session} {c : ContextId} {n d i : Nat} {ts : List Value}
    (counts : ∀ t ∈ ts, s.Harmless c t IsCount) : Iteration.Whole (evaluate n c) ts (s.recount d i) := by
  induction ts generalizing i with
  | nil => trivial
  | cons t ts ih =>
    obtain ⟨first, later⟩ := List.forall_mem_cons.1 counts
    intro v u ran
    obtain ⟨⟨k, rfl, -⟩, j, rfl⟩ := first.run ran
    exact ⟨⟨k, rfl⟩, ih later⟩

/-! ### Summands -/

/-- What stands in the place of an argument once its value is known: the argument, if its value is the same. -/
def standing (e v : Value) : Value := if v.same e then e else v

namespace RingOp

/-- Nothing is said about an operation and its accumulation but what the language says, and a summand comes to a value
that is no sequence, with no effect but that replacements are counted. -/
structure Summand (op : RingOp) (s : Session) (c : ContextId) (n : Nat) (e v : Value) (u : Session) : Prop where
  standard : s.registry = Builtin.standard
  silent : s.Silent c op.iterated
  plain : s.Silent c op.name
  value : evaluate (n + 1) c e s.entered = .ok v u
  quiet : Roomier s.entered u
  single : (standing e v).argsOf? "Sequence" = none

variable {op : RingOp} {s u : Session} {c : ContextId} {n : Nat} {e v : Value}

theorem evaluateArgs_iterated (ev : Evaluator) (its : List Value) :
    evaluateArgs ev c (markings op.iterated) (e :: its) = (· :: its) <$> ev c e := by
  have complete : (markings op.iterated).contains Attribute.holdAllComplete = false := by cases op <;> decide
  have all : (markings op.iterated).contains Attribute.holdAll = false := by cases op <;> decide
  have first : (markings op.iterated).contains Attribute.holdFirst = false := by cases op <;> decide
  have rest : (markings op.iterated).contains Attribute.holdRest = true := by cases op <;> decide
  simp only [evaluateArgs, complete, all, first, rest, Bool.or_self, Bool.false_eq_true, if_false, if_true,
    List.take_one, List.head?_cons, Option.toList_some, evaluateAll, map_eq_pure_bind, bind_assoc, pure_bind]
  rfl

theorem settled_first (its : List Value) : settled (e :: its) (v :: its) = standing e v :: its := by
  unfold settled standing
  rw [sameItems, sameItems_of_refl (refl_items its), Bool.and_true]
  split <;> rfl

namespace Summand

variable (summand : op.Summand s c n e v u)

include summand

theorem after : u = s.recount (s.depth + 1) u.iterations := by
  obtain ⟨d, -, i, -, same⟩ := summand.quiet
  have depth : u.depth = s.depth + 1 := ((evaluate_keeps (n + 1) c e).after summand.value).depth
  have back := congrArg (fun t : Session => t.recount u.depth u.iterations) same
  rw [← depth]
  exact back.symm

theorem inner : 0 < u.depth := by
  rw [summand.after]
  exact Nat.succ_pos _

theorem room : (u.depth + 1 : Int) ≤ u.recursionLimit := by
  have entered := (deeper_ok.1 summand.value).1
  rw [summand.after]
  exact entered

theorem entered : ¬ (s.depth + 1 : Int) > s.recursionLimit := by
  have room := (deeper_ok.1 summand.value).1
  simp only [Session.entered] at room
  omega

theorem evaluate_int (k : Int) : evaluate (n + 1) c (int k) u = .ok (int k) u := by
  rw [evaluate_atom rfl summand.room, exited_entered summand.inner]

theorem registry : u.registry = Builtin.standard := by
  rw [summand.after]
  exact summand.standard

theorem undefined : u.Undefined c op.iterated := by
  rw [summand.after]
  exact summand.silent.toUndefined.of_contents rfl rfl

/-- The summand is evaluated first, and then the sum or product of what stands in its place. -/
theorem evaluate_iterated {it : Value} (ordinary : it.argsOf? "Sequence" = none) :
    evaluate (n + 2) c (call op.iterated [e, it]) s =
      Step.ending exited ((Iteration.accumulate op.iterated (int op.unit) op.join (evaluate (n + 1)) c
        (call op.iterated [standing e v, it]) [standing e v, it] >>=
          again (evaluate (n + 1)) c (call op.iterated [standing e v, it])) u) := by
  have complete : (markings op.iterated).contains Attribute.holdAllComplete = false := by cases op <;> decide
  have unthreaded : (markings op.iterated).contains Attribute.listable = false := by cases op <;> decide
  have unarranged : ∀ a ∈ [Attribute.holdAllComplete, Attribute.sequenceHold, Attribute.flat, Attribute.orderless],
      (markings op.iterated).contains a = false := by
    cases op <;> decide
  have named : (Builtin.ofName? op.iterated).map Builtin.operation = some op.accumulation := by cases op <;> rfl
  have flat : inline "Sequence" [standing e v, it] = [standing e v, it] :=
    inline_of_flat (forall_mem_pair.2 ⟨summand.single, ordinary⟩)
  have value := summand.value
  have silent : s.entered.Silent c op.iterated := summand.silent.of_contents rfl rfl
  rw [evaluate, deeper_eq, if_neg summand.entered]
  congr 1
  rw [evaluateWith_silent (s := s.entered) summand.standard silent complete, evaluateOn, evaluateArgs_iterated,
    map_eq_pure_bind, bind_assoc, Step.bind_of_ok value, pure_bind, settled_first, arrange_spliced unarranged, flat]
  refine (evaluateArranged_undefined op.accumulation summand.registry named summand.undefined unthreaded).trans ?_
  rw [op.run_accumulation]
  rfl

theorem accumulate_between (i : String) (a b : Int) {f : Value} :
    Iteration.accumulate op.iterated (int op.unit) op.join (evaluate (n + 1)) c f
        [standing e v, ofItems [sym i, int a, int b]] u =
      Iteration.accumulateEach (evaluate (n + 1)) c op.join (standing e v) (sym i) (int op.unit) (.range a b)
        u := by
  have spec : Iteration.iterator? (ofItems [sym i, int a, int b]) = some (sym i, [int a, int b]) := rfl
  have values : Iteration.accumulationValues (evaluate (n + 1)) c [int a, int b] u = .ok (some (.range a b)) u := by
    rw [Iteration.accumulationValues, Step.bind_of_ok (summand.evaluate_int a),
      Step.bind_of_ok (summand.evaluate_int b)]
    rfl
  simp only [Iteration.accumulate, Iteration.accumulateOver, spec]
  rw [Step.bind_of_ok values]

/-- An upper bound alone gives a range from one on, but only if it is positive. -/
theorem accumulate_upTo (i : String) (k : Int) {f : Value} :
    Iteration.accumulate op.iterated (int op.unit) op.join (evaluate (n + 1)) c f
        [standing e v, ofItems [sym i, int k]] u =
      if 0 < k then
        Iteration.accumulateEach (evaluate (n + 1)) c op.join (standing e v) (sym i) (int op.unit) (.range 1 k) u
      else .ok (call op.iterated [standing e v, ofItems [sym i, int k]]) u := by
  have spec : Iteration.iterator? (ofItems [sym i, int k]) = some (sym i, [int k]) := rfl
  have values : Iteration.accumulationValues (evaluate (n + 1)) c [int k] u =
      .ok (if 0 < k then some (.range 1 k) else none) u := by
    rw [Iteration.accumulationValues, Step.bind_of_ok (summand.evaluate_int k)]
    rfl
  simp only [Iteration.accumulate, Iteration.accumulateOver, spec]
  rw [Step.bind_of_ok values]
  split <;> rfl

/-- A sum over the range between two integers joins the instances of what stands in the place of the summand. -/
theorem evaluate_between (i : String) (a b : Int) {ts : List Value}
    (instances : ((Progression.between a b 1).toList.mapM fun k =>
      Iteration.instantiate (standing e v) (sym i) (int k)) = .ok ts) :
    evaluate (n + 2) c (call op.iterated [e, ofItems [sym i, int a, int b]]) s =
      Step.ending exited ((op.joined (evaluate (n + 1)) c ts >>=
        again (evaluate (n + 1)) c (call op.iterated [standing e v, ofItems [sym i, int a, int b]])) u) := by
  rw [summand.evaluate_iterated rfl, Step.bind_of_same (summand.accumulate_between i a b),
    op.accumulateEach_instances (d := .range a b) instances]

/-- Terms that come to integers are evaluated as they are under the operation. -/
theorem joined_combined {ts : List Value} (counts : ∀ t ∈ ts, s.Harmless c t IsCount) {f : String} {as : List Value} :
    (op.joined (evaluate (n + 1)) c ts >>= again (evaluate (n + 1)) c (call f as)) u =
      op.combined (evaluate (n + 1)) c ts u := by
  have whole : Iteration.Whole (evaluate (n + 1) c) ts u := by
    rw [summand.after]
    exact whole_of_counts counts
  rw [Step.bind_of_same (op.joined_whole whole), map_eq_pure_bind, bind_assoc, combined]
  simp only [pure_bind, again_new (differs_of_basic (r := int _) rfl)]

theorem evaluate_plain {ts : List Value} (counts : ∀ t ∈ ts, s.Harmless c t IsCount) :
    evaluate (n + 2) c (call op.name ts) s = Step.ending exited (op.combined (evaluate (n + 1)) c ts s.entered) := by
  rw [evaluate, deeper_eq, if_neg summand.entered]
  congr 1
  exact evaluateWith_ring op summand.standard summand.plain counts

theorem evaluate_empty (i : String) {a b : Int} (less : b < a) (limit : (u.iterations + 1 : Int) ≤ u.iterationLimit) :
    evaluate (n + 2) c (call op.iterated [e, ofItems [sym i, int a, int b]]) s =
      .ok (int op.unit) u.counted.exited := by
  have empty : (Progression.between a b 1).toList = [] := by
    simp only [Progression.toList, Progression.between, Int.fdiv_one, List.map_eq_nil_iff, List.range_eq_nil]
    omega
  have instances : ((Progression.between a b 1).toList.mapM fun k =>
      Iteration.instantiate (standing e v) (sym i) (int k)) = .ok [] := by
    rw [empty]
    rfl
  have counted : countReplacement u = .ok () u.counted := by
    rw [countReplacement_eq, if_neg (by omega)]
  have value : evaluate (n + 1) c (int op.unit) u.counted = .ok (int op.unit) u.counted :=
    (evaluate_atom (s := u.counted) rfl summand.room n).trans (congrArg (EStateM.Result.ok _)
      (exited_entered (s := u.counted) summand.inner))
  rw [summand.evaluate_between i a b instances, joined, List.foldlM_nil, pure_bind,
    again_new (differs_of_basic rfl), Step.bind_of_ok counted, value]
  rfl

theorem evaluate_upTo (i : String) {k : Int} (positive : 0 < k) {ts : List Value}
    (instances : ((Progression.between 1 k 1).toList.mapM fun k =>
      Iteration.instantiate (standing e v) (sym i) (int k)) = .ok ts)
    (number : ∀ r w, op.joined (evaluate (n + 1)) c ts u = .ok r w → r.number?.isSome = true) :
    evaluate (n + 2) c (call op.iterated [e, ofItems [sym i, int k]]) s =
      evaluate (n + 2) c (call op.iterated [e, ofItems [sym i, int 1, int k]]) s := by
  have joins : Iteration.accumulate op.iterated (int op.unit) op.join (evaluate (n + 1)) c
      (call op.iterated [standing e v, ofItems [sym i, int k]]) [standing e v, ofItems [sym i, int k]] u =
        op.joined (evaluate (n + 1)) c ts u := by
    rw [summand.accumulate_upTo, if_pos positive, op.accumulateEach_instances instances]
  rw [summand.evaluate_between i 1 k instances, summand.evaluate_iterated rfl, Step.bind_of_same joins]
  congr 1
  refine Step.bind_congr rfl fun r w came => ?_
  have basic : (r.isAtom || r.isSymbol) = true := by
    have found := number r w came
    cases r with
    | bool | number => rfl
    | _ => cases found
  rw [again_new (differs_of_basic basic), again_new (differs_of_basic basic)]

theorem evaluate_upTo_none (i : String) {k : Int} (nonpositive : k ≤ 0) :
    evaluate (n + 2) c (call op.iterated [e, ofItems [sym i, int k]]) s =
      .ok (call op.iterated [standing e v, ofItems [sym i, int k]]) u.exited := by
  rw [summand.evaluate_iterated rfl]
  have stays := summand.accumulate_upTo i k (f := call op.iterated [standing e v, ofItems [sym i, int k]])
  rw [if_neg (by omega)] at stays
  rw [Step.bind_of_ok stays, again, differs_self rfl]
  rfl

/-- Terms that come to integers make under the accumulation what they make under the operation. -/
theorem evaluate_counts (i : String) {a b : Int} {ts : List Value}
    (instances : ((Progression.between a b 1).toList.mapM fun k =>
      Iteration.instantiate (standing e v) (sym i) (int k)) = .ok ts)
    (counts : ∀ t ∈ ts, s.Harmless c t IsCount) :
    Mirrors id (evaluate (n + 2) c (call op.iterated [e, ofItems [sym i, int a, int b]]) s)
        (evaluate (n + 2) c (call op.name ts) s) ∧
      (u = s.entered → evaluate (n + 2) c (call op.iterated [e, ofItems [sym i, int a, int b]]) s =
        evaluate (n + 2) c (call op.name ts) s) := by
  have eases : Eases (op.combined (evaluate (n + 1)) c ts) :=
    (evaluateAll_eases (n + 1) c ts).bind fun vs => countReplacement_eases.bind fun _ => evaluate_eases (n + 1) c _
  rw [summand.evaluate_between i a b instances, summand.joined_combined counts, summand.evaluate_plain counts]
  exact ⟨(Mirrors.of_eases eases summand.quiet).exited, fun evaluated => by rw [evaluated]⟩

end Summand

theorem join_plus {acc v r : Value} (added : RingOp.plus.join acc v = .ok r) : r.number?.isSome = true := by
  simp only [join] at added
  unfold Arithmetic.accumulateSum at added
  split at added
  · unfold Arithmetic.lift at added
    split at added <;> cases added
    rfl
  · cases added

theorem joined_plus (ev : Evaluator) (ts : List Value) :
    (RingOp.plus.joined ev c ts).Yields fun r => r.number?.isSome = true := by
  have start : (int RingOp.plus.unit).number?.isSome = true := rfl
  rw [joined]
  generalize int RingOp.plus.unit = acc at start
  induction ts generalizing acc with
  | nil => exact .pure start
  | cons t ts ih =>
    rw [List.foldlM_cons]
    exact .bind (.bind (.any _) fun v _ => .ofExcept fun r => join_plus) ih

/-- A sum cannot go on from a term that comes to no number. -/
theorem joined_plus_fails {ev : Evaluator} {pre post : List Value} {t r : Value} {ms : List Int} {w x : Session}
    (before : evaluateAll ev c pre u = .ok (ms.map int) w) (here : ev c t w = .ok r x) (symbolic : r.number? = none) :
    RingOp.plus.joined ev c (pre ++ t :: post) u = .error (.failure .wrongKind) x := by
  have first : RingOp.plus.joined ev c pre u = .ok (int (RingOp.plus.total (integers (ms.map int)))) w := by
    rw [evaluateAll_eq_mapM] at before
    rw [joined_whole _ (Iteration.whole_of_mapM before), map_eq_pure_bind, evaluateAll_eq_mapM, Step.bind_of_ok before]
    rfl
  have fails : ∀ k, RingOp.plus.join (int k) r = .error .wrongKind := fun k => by
    rw [join, Arithmetic.accumulateSum, symbolic]
    rfl
  rw [joined] at first
  rw [joined, List.foldlM_append, Step.bind_of_ok first, List.foldlM_cons, bind_assoc, Step.bind_of_ok here, fails]
  rfl

end RingOp

/-- Where no argument is a list, an instance has the value in the place of the variable and is otherwise the same. -/
theorem instantiate_listless {v w : Value} {x : Symbol} (headed : v.isHeaded = true)
    (listless : (Bindings.empty.insert x w).isListless v = true) :
    Iteration.instantiate v (.symbol x) w = (Bindings.empty.insert x w).fill v := by
  have same : Iteration.instantiate v (.symbol x) w = v.substitute true (Bindings.empty.insert x w).entries := rfl
  rw [same]
  rcases substitute_fill (b := Bindings.empty.insert x w) headed
    with ⟨e, first, second⟩ | ⟨r, t, first, second, alike, -⟩
  · rw [first, second]
  · rw [first, second, List.singleton_inj.1 (alike.same listless)]

/-- A sum or product over the integers from `a` to `b` is what the values of its terms make when they are joined in
order. The terms are instances of what the summand has come to before, with an integer in the place of the variable,
and where no argument in it is a list this is all that the instances differ in. If the terms come to integers that can
be written, and without side effects, it comes to what the operation makes of the terms as arguments, unless it
is cut off: the summand has been evaluated first. If the summand is evaluated already, the two evaluations are one
and the same. But a sum fails at the first term that comes to no number.

Over an empty range it comes to what the operation gives without arguments. A bound `k` alone gives the range from 1 to
`k` if it is positive; then the two forms are evaluated alike, as far as numbers are accumulated. If it
is not, the sum or product is left as it is. -/
theorem accumulation_joins_terms {op : RingOp} {s u : Session} {c : ContextId} {n : Nat} {e v : Value}
    (summand : op.Summand s c n e v u) (i : String) :
    let body := standing e v
    let ranging (spec : List Value) := evaluate (n + 2) c (call op.iterated [e, ofItems (sym i :: spec)]) s
    let terms (a b : Int) := (Progression.between a b 1).toList.mapM fun k =>
      Iteration.instantiate body (sym i) (int k)
    (∀ a b ts, terms a b = .ok ts →
      ranging [int a, int b] = Step.ending exited ((op.joined (evaluate (n + 1)) c ts >>=
        again (evaluate (n + 1)) c (call op.iterated [body, ofItems [sym i, int a, int b]])) u) ∧
      ((∀ t ∈ ts, s.Harmless c t IsCount) →
        Mirrors id (ranging [int a, int b]) (evaluate (n + 2) c (call op.name ts) s) ∧
        (u = s.entered → ranging [int a, int b] = evaluate (n + 2) c (call op.name ts) s)) ∧
      (∀ pre t post (ms : List Int) w r x, op = .plus → ts = pre ++ t :: post →
        evaluateAll (evaluate (n + 1)) c pre u = .ok (ms.map int) w → evaluate (n + 1) c t w = .ok r x →
        r.number? = none → ranging [int a, int b] = .error (.failure .wrongKind) x.exited)) ∧
    (∀ a b, b < a → (u.iterations + 1 : Int) ≤ u.iterationLimit →
      ranging [int a, int b] = .ok (int op.unit) u.counted.exited) ∧
    (∀ k > 0, ∀ ts, terms 1 k = .ok ts →
      (∀ r w, op.joined (evaluate (n + 1)) c ts u = .ok r w → op = .plus ∨ r.number?.isSome = true) →
      ranging [int k] = ranging [int 1, int k]) ∧
    (∀ k ≤ 0, ranging [int k] = .ok (call op.iterated [body, ofItems [sym i, int k]]) u.exited) ∧
    (body.isHeaded = true → ∀ k : Int, (Bindings.empty.insert ⟨i⟩ (int k)).isListless body = true →
      Iteration.instantiate body (sym i) (int k) = (Bindings.empty.insert ⟨i⟩ (int k)).fill body) := by
  intro body ranging terms
  refine ⟨fun a b ts instances => ⟨summand.evaluate_between i a b instances, summand.evaluate_counts i instances, ?_⟩,
    fun a b => summand.evaluate_empty i, fun k positive ts instances number => ?_,
    fun k => summand.evaluate_upTo_none i, fun headed k listless => instantiate_listless headed listless⟩
  · rintro pre t post ms w r x rfl rfl before here symbolic
    have whole : ranging [int a, int b] = _ := summand.evaluate_between i a b instances
    rw [whole, Step.bind_of_error (RingOp.joined_plus_fails before here symbolic)]
    rfl
  · refine summand.evaluate_upTo i positive instances fun r w run => ?_
    rcases number r w run with rfl | number
    · exact RingOp.joined_plus _ ts u r w run
    · exact number

/-- Where nothing is defined, terms are evaluated without side effects. -/
theorem Session.Bare.summand {s u : Session} {c : ContextId} {V : Vocabulary} {n : Nat} {e v : Value} (bare : s.Bare c)
    (op : RingOp) (term : IsTerm V e) (value : evaluate (n + 1) c e s.entered = .ok v u)
    (counted : s.entered.iterations ≤ u.iterations) (single : (standing e v).argsOf? "Sequence" = none) :
    op.Summand s c n e v u := by
  refine ⟨bare.standard, bare.silent _, bare.silent _, value, ?_, single⟩
  obtain ⟨j, rfl⟩ := (evaluate_settles bare (n + 1) _ _ e v u term value).1
  exact ⟨_, Nat.le_refl _, _, counted, rfl⟩

theorem Session.Bare.counts {s : Session} {c : ContextId} {V : Vocabulary} {n : Nat} {t : Value} (bare : s.Bare c)
    (term : IsTerm V t)
    (passed : Step.returns (fun r => r.int?.isSome && r.isWritable) (evaluate n c t (s.recount 0 0)) = true) :
    s.Harmless c t IsCount := by
  refine (bare.harmless term passed).mono fun r both => ?_
  obtain ⟨number, writable⟩ := Bool.and_eq_true_iff.1 both
  obtain ⟨k, found⟩ := Option.isSome_iff_exists.1 number
  exact ⟨k, int?_eq_some.1 found, writable⟩

/-- What is computed to be the same as exact values is these. -/
theorem eq_ok_of_test {x : Except Error (List Value)} {ts : List Value} (precise : ts.all isExact = true)
    (passed : (x.toOption.any fun rs => rs.all isExact && sameItems rs ts) = true) : x = .ok ts := by
  cases x with
  | error e => cases passed
  | ok rs =>
    obtain ⟨preciseToo, alike⟩ := Bool.and_eq_true_iff.1 passed
    exact congrArg Except.ok (eq_of_sameItems (List.all_eq_true.1 preciseToo) (List.all_eq_true.1 precise) alike)

/-- A summand that is not evaluated yet is added, and one that is evaluated already is multiplied. -/
theorem accumulation_joins_terms_shifted :
    let shifted := call "Plus" [sym "i", call "Times" [int 2, int 3]]
    let square := call "Power" [sym "i", int 2]
    let sums := [1, 2, 3].map fun k => call "Plus" [int 6, int k]
    let squares := [1, 2, 3].map fun k => call "Power" [int k, int 2]
    let run (e : Value) := evaluate 12 globalId e Session.initial
    let ranging (f : String) (e : Value) (spec : List Value) := run (call f [e, ofItems (sym "i" :: spec)])
    (∃ v u, RingOp.plus.Summand Session.initial globalId 10 shifted v u ∧
      (∀ t ∈ sums, Session.initial.Harmless globalId t IsCount) ∧
      Mirrors id (ranging "Sum" shifted [int 1, int 3]) (run (call "Plus" sums)) ∧
      ranging "Sum" shifted [int 3] = ranging "Sum" shifted [int 1, int 3]) ∧
    (∃ v, RingOp.times.Summand Session.initial globalId 10 square v Session.initial.entered ∧
      (∀ t ∈ squares, Session.initial.Harmless globalId t IsCount) ∧
      ranging "Product" square [int 1, int 3] = run (call "Times" squares)) ∧
    Step.returns (same (int 24)) (ranging "Sum" shifted [int 1, int 3]) = true ∧
    Step.returns (same (int 36)) (ranging "Product" square [int 1, int 3]) = true := by
  intro shifted square sums squares run ranging
  have free : IsTerm .all (sym "i") := .atom trivial
  refine ⟨?_, ?_, by decide +kernel, by decide +kernel⟩
  · have six : IsTerm .all (call "Times" [int 2, int 3]) := .ofRing .times (forall_mem_pair.2 ⟨.integer 2, .integer 3⟩)
    have term : IsTerm .all shifted := .ofRing .plus (forall_mem_pair.2 ⟨free, six⟩)
    have came : Step.returns (fun v => v.isExact && v.same (call "Plus" [int 6, sym "i"]))
        (evaluate 11 globalId shifted Session.initial.entered) = true := by
      decide +kernel
    obtain ⟨v, u, value, both⟩ := Step.returns_iff.1 came
    obtain ⟨precise, alike⟩ := Bool.and_eq_true_iff.1 both
    obtain rfl := eq_of_same precise (by decide) alike
    have summand := initial_bare.summand .plus term value (Nat.zero_le _) (by decide +kernel)
    have counts : ∀ t ∈ sums, Session.initial.Harmless globalId t IsCount := by
      have each (k : Int) : IsTerm .all (call "Plus" [int 6, int k]) :=
        .ofRing .plus (forall_mem_pair.2 ⟨.integer 6, .integer k⟩)
      refine List.forall_mem_map.2 fun k member => initial_bare.counts (n := 9) (each k) ?_
      revert k
      decide +kernel
    have instances : ((Progression.between 1 3 1).toList.mapM fun k =>
        Iteration.instantiate (standing shifted (call "Plus" [int 6, sym "i"])) (sym "i") (int k)) = .ok sums :=
      eq_ok_of_test (by decide) (by decide +kernel)
    obtain ⟨law, -, upTo, -⟩ := accumulation_joins_terms summand "i"
    exact ⟨_, u, summand, counts, ((law 1 3 sums instances).2.1 counts).1,
      upTo 3 (by decide) sums instances fun _ _ _ => .inl rfl⟩
  · have term : IsTerm .all square :=
      .apply trivial (.power _ (by decide)) (forall_mem_pair.2 ⟨free, .integer 2⟩)
    have came : Step.checks (fun v t => v.same square && t.iterations == 0)
        (evaluate 11 globalId square Session.initial.entered) = true := by
      decide +kernel
    obtain ⟨v, u, value, both⟩ := Step.checks_iff.1 came
    obtain ⟨alike, uncounted⟩ := Bool.and_eq_true_iff.1 both
    have stands : standing square v = square := if_pos alike
    have summand := initial_bare.summand .times term value (Nat.zero_le _) (by rw [stands]; rfl)
    have unchanged : u = Session.initial.entered := by
      rw [summand.after, beq_iff_eq.1 uncounted]
      rfl
    subst unchanged
    have counts : ∀ t ∈ squares, Session.initial.Harmless globalId t IsCount := by
      have each (k : Int) : IsTerm .all (call "Power" [int k, int 2]) :=
        .apply trivial (.power _ (by decide))
          (forall_mem_pair.2 ⟨.integer k, .integer 2⟩)
      refine List.forall_mem_map.2 fun k member => initial_bare.counts (n := 9) (each k) ?_
      revert k
      decide +kernel
    have instances : ((Progression.between 1 3 1).toList.mapM fun k =>
        Iteration.instantiate square (sym "i") (int k)) = .ok squares :=
      eq_ok_of_test (by decide) (by decide +kernel)
    obtain ⟨law, -⟩ := accumulation_joins_terms summand "i"
    rw [stands] at law
    exact ⟨v, summand, counts, ((law 1 3 squares instances).2.1 counts).2 rfl⟩

/-- Symbolic terms are not collected: a sum of them fails, and so does a product of two. A bound alone that is not
positive leaves the sum and the product as they are, where a range from 1 to it gives 0 and 1. The summand is
evaluated before the variable has a value, so it decides on the variable itself, and a list among the arguments, as
the iterator of another sum is, loses its brackets in the terms. -/
theorem accumulation_departs :
    let i := sym "i"
    let run (e : Value) := evaluate 20 globalId e Session.initial
    let fails (e : Value) := (Step.verdict? (run e)).any fun o => o.toOption.isNone
    let branch (v : Value) := call "If" [call "Less" [v, int 2], int 10, int 20]
    let inner (v : Value) := call "Sum" [sym "j", ofItems [sym "j", int 1, v]]
    (∀ op : RingOp, op ∈ [.plus, .times] →
      fails (call op.iterated [sym "x", ofItems [i, int 1, int 2]]) = true ∧
      Step.returns (same (call op.name [sym "x", sym "x"])) (run (call op.name [sym "x", sym "x"])) = true) ∧
    (∀ op : RingOp, op ∈ [.plus, .times] →
      Step.returns (same (call op.iterated [i, ofItems [i, int 0]])) (run (call op.iterated [i, ofItems [i, int 0]])) =
        true ∧
      Step.returns (same (int op.unit)) (run (call op.iterated [i, ofItems [i, int 1, int 0]])) = true) ∧
    (Step.returns (same (int 40)) (run (call "Sum" [branch i, ofItems [i, int 1, int 2]])) = true ∧
      Step.returns (same (int 30)) (run (call "Plus" [branch (int 1), branch (int 2)])) = true) ∧
    fails (call "Sum" [inner i, ofItems [i, int 1, int 2]]) = true ∧
      Step.returns (same (int 4)) (run (call "Plus" [inner (int 1), inner (int 2)])) = true := by
  decide +kernel

end Symbolic
