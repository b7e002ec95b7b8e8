import Symbolic.Proofs.Evaluation.Calls

/-!
What evaluation costs. A computation that changes nothing is given a number of levels and a number of replacements,
and with these it comes to an outcome, whatever has been used up before (`Suffices`). Costs are added up along a
computation, and a nested evaluation takes one level. Main statement: a call of a builtin that evaluates its arguments
costs what the arguments, the builtin and the evaluation of its result cost, and one replacement if the
result is new (`Prepares.stays`, `Prepares.fails` and `Prepares.goes`).
-/
namespace Symbolic

open Value Session
open Arithmetic (inline)
open Step (ended)

namespace Session

variable {α β : Type} {s : Session} {c : ContextId} {k l j m : Nat}

/-- Inside an evaluation, `k` more levels and `j` more replacements are enough for a computation to come to an
outcome, and nothing is changed but the number of replacements. -/
def Suffices (s : Session) (k j : Nat) (x : Nat → Eval α) (o : Except Error α) : Prop :=
  ∀ n d i : Nat, 0 < d → (d + k : Int) ≤ s.recursionLimit → (i + j : Int) ≤ s.iterationLimit →
    ∃ i' ≤ i + j, x (n + k) (s.recount d i) = ended (s.recount d i') o

namespace Suffices

theorem mono {x : Nat → Eval α} {o : Except Error α} (enough : s.Suffices k j x o) (deep : k ≤ l) (long : j ≤ m) :
    s.Suffices l m x o := by
  intro n d i inner levels replacements
  obtain ⟨i', bound, ran⟩ := enough (n + (l - k)) d i inner (by omega) (by omega)
  rw [Nat.add_assoc, Nat.sub_add_cancel deep] at ran
  exact ⟨i', by omega, ran⟩

theorem ofExcept (r : Except Error α) : s.Suffices k 0 (fun _ => Step.ofExcept r) r := by
  intro n d i _ _ _
  refine ⟨i, Nat.le_refl _, ?_⟩
  cases r <;> rfl

theorem pure (a : α) : s.Suffices k 0 (fun _ => Pure.pure a) (.ok a) := ofExcept (.ok a)

theorem bind {x : Nat → Eval α} {g : Nat → α → Eval β} {a : α} {o : Except Error β} (first : s.Suffices k j x (.ok a))
    (next : s.Suffices k m (fun n => g n a) o) : s.Suffices k (j + m) (fun n => x n >>= g n) o := by
  intro n d i inner levels replacements
  obtain ⟨i', bound, ran⟩ := first n d i inner levels (by omega)
  obtain ⟨i'', later, ranToo⟩ := next n d i' inner levels (by omega)
  exact ⟨i'', by omega, (Step.bind_of_ok ran).trans ranToo⟩

theorem bind_error {x : Nat → Eval α} {g : Nat → α → Eval β} {e : Error} (first : s.Suffices k j x (.error e)) :
    s.Suffices k j (fun n => x n >>= g n) (.error e) := by
  intro n d i inner levels replacements
  obtain ⟨i', bound, ran⟩ := first n d i inner levels replacements
  exact ⟨i', bound, Step.bind_of_error ran⟩

theorem count : s.Suffices k 1 (fun _ => countReplacement) (.ok ()) := by
  intro n d i _ _ replacements
  exact ⟨i + 1, Nat.le_refl _, (countReplacement_eq (s.recount d i)).trans (if_neg (Int.not_lt.2 replacements))⟩

end Suffices

abbrev Comes (s : Session) (c : ContextId) (k j : Nat) (v : Value) (o : Except Error Value) : Prop :=
  s.Suffices k j (fun n => evaluateWith (evaluate n) n c v) o

variable {v : Value} {o : Except Error Value}

theorem ended_exited {d i : Nat} : Step.ending exited (ended (s.recount (d + 1) i) o) = ended (s.recount d i) o := by
  cases o <;> rfl

theorem Comes.nested (comes : s.Comes c k j v o) : s.Suffices (k + 1) j (fun n => evaluate n c v) o := by
  intro n d i inner levels replacements
  obtain ⟨i', bound, ran⟩ := comes n (d + 1) i (Nat.succ_pos d) (by omega) replacements
  have counted : (if d = 0 then 0 else i) = i := if_neg (Nat.pos_iff_ne_zero.1 inner)
  have entered : (s.recount d i).entered = s.recount (d + 1) i := congrArg (s.recount (d + 1)) counted
  have shallow : ¬ ((s.recount d i).depth + 1 : Int) > (s.recount d i).recursionLimit := by
    simp only [Session.recount]
    omega
  have whole : evaluate (n + (k + 1)) c v = deeper (evaluateWith (evaluate (n + k)) (n + k) c v) := rfl
  simp only at ran
  refine ⟨i', bound, ?_⟩
  simp only [whole, deeper_eq, if_neg shallow, entered, ran, ended_exited]

/-- What is enough inside an evaluation is enough for a whole one. -/
theorem Comes.evaluate (comes : s.Comes c k j v o) (levels : (s.depth + 1 + k : Int) ≤ s.recursionLimit)
    (replacements : (s.iterations + j : Int) ≤ s.iterationLimit) (n : Nat) :
    ∃ i, Symbolic.evaluate (n + k + 1) c v s = ended (s.recount s.depth i) o := by
  have fewer : (s.entered.iterations + j : Int) ≤ s.iterationLimit := by
    simp only [Session.entered]
    split <;> omega
  obtain ⟨i, -, ran⟩ := comes n (s.depth + 1) s.entered.iterations (Nat.succ_pos _) (by omega) fewer
  have entered : s.entered = s.recount (s.depth + 1) s.entered.iterations := rfl
  simp only at ran
  refine ⟨i, ?_⟩
  rw [Symbolic.evaluate, deeper_eq, if_neg (by omega), entered, ran, ended_exited]

theorem comes_atom (atom : v.isAtom = true) : s.Comes c 0 0 v (.ok v) := by
  intro n d i _ _ _
  exact ⟨i, Nat.le_refl _, evaluateWith_atom atom⟩

section Rows

variable {a b : Value} {as bs : List Value}

theorem Comes.cons (first : s.Comes c k j a (.ok b))
    (others : s.Suffices (k + 1) m (fun n => evaluateAll (Symbolic.evaluate n) c as) (.ok bs)) :
    s.Suffices (k + 1) (j + m) (fun n => evaluateAll (Symbolic.evaluate n) c (a :: as)) (.ok (b :: bs)) :=
  first.nested.bind (others.bind (m := 0) (.pure (b :: bs)))

theorem suffices_atoms (atoms : ∀ a ∈ as, a.isAtom = true) :
    s.Suffices (k + 1) 0 (fun n => evaluateAll (Symbolic.evaluate n) c as) (.ok as) := by
  induction as with
  | nil => exact .pure []
  | cons a as ih =>
    obtain ⟨first, others⟩ := List.forall_mem_cons.1 atoms
    exact Comes.cons ((comes_atom first).mono (Nat.zero_le k) (Nat.le_refl 0)) (ih others)

end Rows

end Session

/-! ### Calls -/

/-- The language gives a name a builtin of an operation that gets its arguments evaluated. -/
structure Eager (f : String) (op : Operation) : Prop where
  named : (Builtin.ofName? f).map Builtin.operation = some op
  unheld : ∀ a ∈ Attribute.holding, (markings f).contains a = false

/-- Calls of a name in a context are left to a builtin that gets its arguments evaluated. -/
structure Session.Provides (s : Session) (c : ContextId) (f : String) (op : Operation) : Prop extends Eager f op where
  standard : s.registry = Builtin.standard
  silent : s.Silent c f

theorem threadLists_unlisted {f : String} {as : List Value} (unlisted : ∀ a ∈ as, a.argsOf? "List" = none) :
    (call f as).threadLists = call f as := by
  have none : listLengths as = [] := by
    refine List.filterMap_eq_nil_iff.2 fun a member => ?_
    rw [unlisted a member]
    rfl
  rw [threadLists, none]

section Calls

variable {s : Session} {c : ContextId} {k j m : Nat} {f : String} {op : Operation} {as bs cs : List Value}

/-- The arguments of a call come to values that are brought in order. -/
def Prepares (s : Session) (c : ContextId) (k j : Nat) (f : String) (as cs : List Value) : Prop :=
  ∃ bs, s.Suffices k j (fun n => evaluateAll (evaluate n) c as) (.ok bs) ∧
    arrange (markings f) (call f (settled as bs)) = .ok (call f cs) ∧ ∀ a ∈ cs, a.argsOf? "List" = none

variable (provides : s.Provides c f op)

include provides

theorem evaluateWith_eager (n d i : Nat) : evaluateWith (evaluate (n + 1)) (n + 1) c (call f as) (s.recount d i) =
    (evaluateAll (evaluate (n + 1)) c as >>= fun bs =>
      (Step.ofExcept (arrange (markings f) (call f (settled as bs))) : Eval Value) >>=
        evaluateArranged (evaluate (n + 1)) (n + 1) c (markings f)) (s.recount d i) := by
  have said : (s.recount d i).Silent c f := provides.silent.of_contents rfl rfl
  rw [evaluateWith_silent (s := s.recount d i) provides.standard said (provides.unheld _ (by decide)), evaluateOn,
    evaluateArgs_unheld provides.unheld]
  rfl

theorem evaluateArranged_unlisted (unlisted : ∀ a ∈ cs, a.argsOf? "List" = none) (ev : Evaluator) (n d i : Nat) :
    evaluateArranged ev (n + 1) c (markings f) (call f cs) (s.recount d i) =
      (op.run ev (n + 1) c (call f cs) >>= again ev c (call f cs)) (s.recount d i) := by
  refine evaluateArranged_unthreaded (s := s.recount d i) op provides.standard provides.named
    (provides.silent.toUndefined.of_contents rfl rfl) ?_
  rw [threadLists_unlisted unlisted, differs_self rfl, Bool.and_false]

theorem comes_of_row {o : Except Error Value}
    (enough : s.Suffices (k + 1) j (fun n => evaluateAll (evaluate n) c as >>= fun bs =>
      (Step.ofExcept (arrange (markings f) (call f (settled as bs))) : Eval Value) >>=
        evaluateArranged (evaluate n) n c (markings f)) o) : s.Comes c (k + 1) j (call f as) o := by
  intro n d i inner levels replacements
  obtain ⟨i', bound, ran⟩ := enough n d i inner levels replacements
  exact ⟨i', bound, (evaluateWith_eager provides (n + k) d i).trans ran⟩

theorem comes_of_disorder {e : Error} (args : s.Suffices (k + 1) j (fun n => evaluateAll (evaluate n) c as) (.ok bs))
    (disorder : arrange (markings f) (call f (settled as bs)) = .error e) :
    s.Comes c (k + 1) j (call f as) (.error e) := by
  refine comes_of_row provides (args.bind (m := 0) ?_)
  rw [disorder]
  exact (Suffices.ofExcept (.error e)).bind_error

theorem Prepares.comes (prepares : Prepares s c (k + 1) j f as cs) {o : Except Error Value}
    (rest : s.Suffices (k + 1) m
      (fun n => op.run (evaluate n) n c (call f cs) >>= again (evaluate n) c (call f cs)) o) :
    s.Comes c (k + 1) (j + m) (call f as) o := by
  obtain ⟨bs, args, arranged, unlisted⟩ := prepares
  refine comes_of_row provides (args.bind ?_)
  rw [arranged]
  intro n d i inner levels replacements
  obtain ⟨i', bound, ran⟩ := rest n d i inner levels replacements
  exact ⟨i', bound, (evaluateArranged_unlisted provides unlisted _ _ d i).trans ran⟩

variable (prepares : Prepares s c (k + 1) j f as cs)

include prepares

theorem Prepares.fails {e : Error}
    (ran : s.Suffices (k + 1) 0 (fun n => op.run (evaluate n) n c (call f cs)) (.error e)) :
    s.Comes c (k + 1) j (call f as) (.error e) :=
  prepares.comes provides ran.bind_error

theorem Prepares.stays {r : Value} (ran : s.Suffices (k + 1) 0 (fun n => op.run (evaluate n) n c (call f cs)) (.ok r))
    (same : r.differs (call f cs) = false) : s.Comes c (k + 1) j (call f as) (.ok (call f cs)) := by
  refine prepares.comes provides (m := 0) (ran.bind (m := 0) ?_)
  simp only [again, same, Bool.false_eq_true, if_false]
  exact .pure _

theorem Prepares.goes {r : Value} {o : Except Error Value}
    (ran : s.Suffices (k + 1) 0 (fun n => op.run (evaluate n) n c (call f cs)) (.ok r))
    (new : r.differs (call f cs) = true) (next : s.Comes c k m r o) : s.Comes c (k + 1) (j + m + 1) (call f as) o := by
  have comes := prepares.comes provides (m := 0 + (1 + m)) (o := o) (ran.bind ?_)
  · exact comes.mono (Nat.le_refl _) (by omega)
  · simp only [again_new new]
    exact Suffices.count.bind next.nested

theorem Prepares.gives {r : Except Error Value}
    (ran : s.Suffices (k + 1) 0 (fun n => op.run (evaluate n) n c (call f cs)) r)
    (atom : ∀ v, r = .ok v → v.isAtom = true) : s.Comes c (k + 1) (j + 1) (call f as) r := by
  cases r with
  | error e => exact (prepares.fails provides ran).mono (Nat.le_refl _) (Nat.le_succ j)
  | ok v =>
    have basic : (v.isAtom || v.isSymbol) = true := by rw [atom v rfl, Bool.true_or]
    have next : s.Comes c k 0 v (.ok v) := (comes_atom (atom v rfl)).mono (Nat.zero_le k) (Nat.le_refl 0)
    exact prepares.goes provides ran (differs_of_basic basic) next

end Calls
end Symbolic
