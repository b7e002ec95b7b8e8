import Symbolic.Proofs.Evaluation.Numerics

/-!
A number in front of something that is no number, which the functions of numbers leave in quotients by zero and in
absolute values. The product of a restless number and such a factor is a new one each time it is evaluated, and so goes
on until a limit stops it (`Factor.endless`). Main statement: of all other numbers a product comes to what
`Product` says, and stays what it is if neither the number nor the factor is dropped (`Factor.comes_product`).
-/
namespace Symbolic

open Value Session Number
open Arithmetic (orFail lift)

/-! ### Runs that a limit stops -/

/-- A run is stopped at a limit. -/
def Step.Stopped {σ α : Type} (r : EStateM.Result Halt σ α) : Prop := ∃ e t, r = .error (.failure e) t ∧ e.isLimit = true

namespace Session

variable {α β : Type} {s : Session} {c : ContextId} {n d : Nat} {v : Value}

/-- At some depth, whatever has been counted, a computation is stopped at a limit, or it comes to a value with a
property and changes nothing but the count of replacements. -/
def Confines (s : Session) (d : Nat) (x : Eval α) (P : α → Prop) : Prop :=
  ∀ i, Step.Stopped (x (s.recount d i)) ∨ ∃ a j, P a ∧ x (s.recount d i) = .ok a (s.recount d j)

theorem Confines.pure {P : α → Prop} {a : α} (holds : P a) : s.Confines d (Pure.pure a) P :=
  fun i => .inr ⟨a, i, holds, rfl⟩

theorem Confines.bind {P : α → Prop} {Q : β → Prop} {x : Eval α} {g : α → Eval β} (first : s.Confines d x P)
    (next : ∀ a, P a → s.Confines d (g a) Q) : s.Confines d (x >>= g) Q := by
  intro i
  rcases first i with ⟨e, t, ran, limit⟩ | ⟨a, j, holds, ran⟩
  · exact .inl ⟨e, t, Step.bind_of_error ran, limit⟩
  · rw [Step.bind_of_ok ran]
    exact next a holds j

theorem confines_count : s.Confines d countReplacement fun _ => True := by
  intro i
  rw [countReplacement_eq]
  split
  · exact .inl ⟨_, _, rfl, rfl⟩
  · exact .inr ⟨(), i + 1, trivial, rfl⟩

theorem Confines.nested {P : Value → Prop}
    (deep : (d + 1 : Int) ≤ s.recursionLimit → s.Confines (d + 1) (evaluateWith (evaluate n) n c v) P) :
    s.Confines d (evaluate (n + 1) c v) P := by
  intro i
  by_cases room : (d + 1 : Int) ≤ s.recursionLimit
  · have entered : (s.recount d i).entered = s.recount (d + 1) (if d = 0 then 0 else i) := rfl
    have shallow : ¬ ((s.recount d i).depth + 1 : Int) > (s.recount d i).recursionLimit := Int.not_lt.2 room
    rw [evaluate, deeper_eq, if_neg shallow, entered]
    rcases deep room (if d = 0 then 0 else i) with ⟨e, t, ran, limit⟩ | ⟨a, j, holds, ran⟩
    · rw [ran]
      exact .inl ⟨e, _, rfl, limit⟩
    · rw [ran]
      exact .inr ⟨a, j, holds, rfl⟩
  · exact .inl ⟨_, _, evaluate_exceeded (s := s.recount d i) room n v, rfl⟩

theorem confines_atom (atom : v.isAtom = true) (fuel : s.recursionLimit < d + n) (level : (d : Int) ≤ s.recursionLimit) :
    s.Confines d (evaluate n c v) (· = v) := by
  obtain ⟨m, rfl⟩ : ∃ m, n = m + 1 := ⟨n - 1, by omega⟩
  exact .nested fun _ i => .inr ⟨v, i, rfl, evaluateWith_atom atom⟩

theorem confines_all {as : List Value} (each : ∀ a ∈ as, s.Confines d (evaluate n c a) (· = a)) :
    s.Confines d (evaluateAll (evaluate n) c as) (· = as) := by
  induction as with
  | nil => exact .pure rfl
  | cons a as ih =>
    obtain ⟨first, others⟩ := List.forall_mem_cons.1 each
    refine first.bind fun b same => (ih others).bind fun bs sameToo => .pure ?_
    rw [same, sameToo]

theorem confines_again {e r : Value} {P : Value → Prop} {ev : Evaluator} (new : r.differs e = true)
    (next : s.Confines d (ev c r) P) : s.Confines d (again ev c e r) P := by
  rw [again_new new]
  exact confines_count.bind fun _ _ => next

theorem confines_settled {e r : Value} {P : Value → Prop} {ev : Evaluator} (same : r.differs e = false) (holds : P e) :
    s.Confines d (again ev c e r) P := by
  rw [again, same]
  exact .pure holds

/-- With more fuel than levels are left, the evaluation of a value comes to nothing, and a limit stops it. -/
def Endless (s : Session) (c : ContextId) (v : Value) : Prop :=
  ∀ n d : Nat, (d : Int) ≤ s.recursionLimit → s.recursionLimit < d + n →
    s.Confines d (evaluateWith (evaluate n) n c v) fun _ => False

theorem Endless.nested (endless : s.Endless c v) (level : (d : Int) ≤ s.recursionLimit)
    (fuel : s.recursionLimit < d + n) : s.Confines d (evaluate n c v) fun _ => False := by
  obtain ⟨m, rfl⟩ : ∃ m, n = m + 1 := ⟨n - 1, by omega⟩
  exact .nested fun room => endless m (d + 1) (by omega) (by omega)

theorem Endless.stopped (endless : s.Endless c v) (level : (s.depth : Int) ≤ s.recursionLimit)
    (fuel : s.recursionLimit < s.depth + n) : Step.Stopped (evaluate n c v s) := by
  rcases endless.nested level fuel s.iterations with stopped | ⟨_, _, none, -⟩
  · exact stopped
  · exact none.elim

end Session

section Calls

variable {s : Session} {c : ContextId} {n d : Nat} {f : String} {op : Operation} {as cs : List Value}
  (provides : s.Provides c f op)

include provides

theorem confines_call {r : Value} {P : Value → Prop}
    (args : s.Confines d (evaluateAll (evaluate (n + 1)) c as) (· = as))
    (arranged : arrange (markings f) (call f as) = .ok (call f cs)) (unlisted : ∀ a ∈ cs, a.argsOf? "List" = none)
    (ran : op.run (evaluate (n + 1)) (n + 1) c (call f cs) = Step.ofExcept (.ok r))
    (next : s.Confines d (again (evaluate (n + 1)) c (call f cs) r) P) :
    s.Confines d (evaluateWith (evaluate (n + 1)) (n + 1) c (call f as)) P := by
  intro i
  rw [evaluateWith_eager provides n d i]
  refine Confines.bind args (fun bs same => ?_) i
  rw [same, settled_self, arranged]
  intro j
  have whole := evaluateArranged_unlisted provides unlisted (evaluate (n + 1)) n d j
  have sorted : (Step.ofExcept (.ok (call f cs)) >>= evaluateArranged (evaluate (n + 1)) (n + 1) c (markings f))
      (s.recount d j) = again (evaluate (n + 1)) c (call f cs) r (s.recount d j) := by
    rw [ran] at whole
    exact whole
  rw [sorted]
  exact next j

end Calls

/-! ### A number and something else -/

/-- What a number can be multiplied with: a symbol or an expression, but no product, sequence or list, that comes to
itself. -/
structure Factor (s : Session) (c : ContextId) (w : Value) : Prop where
  rests : s.Comes c 1 0 w (.ok w)
  callable : w.canHead = true
  single : w.argsOf? "Sequence" = none
  other : w.argsOf? "Times" = none
  unlisted : w.argsOf? "List" = none
  writable : w.isWritable = true
  confined : ∀ n d : Nat, (d : Int) ≤ s.recursionLimit → s.recursionLimit < d + n →
    s.Confines d (evaluate n c w) (· = w)

/-- A number and something else, in either order. -/
inductive Couple (n : Number) (w : Value) : List Value → Prop
  | before : Couple n w [.number n, w]
  | after : Couple n w [w, .number n]

section Couples

variable {s : Session} {c : ContextId} {n : Number} {w : Value} {as : List Value}

theorem number_of_callable (callable : w.canHead = true) : w.number? = none := by
  cases w with
  | symbol | expr => rfl
  | _ => cases callable

theorem number_same (callable : w.canHead = true) (n : Number) : (Value.number n).same w = false := by
  rw [Value.same, number_of_callable callable]

theorem Couple.perm (couple : Couple n w as) : as.Perm [.number n, w] := by
  cases couple with
  | before => exact .refl _
  | after => exact .swap _ _ _

theorem Couple.forall_mem {P : Value → Prop} (couple : Couple n w as) (first : P (.number n)) (second : P w) :
    ∀ a ∈ as, P a :=
  fun a member => forall_mem_pair.2 ⟨first, second⟩ a (couple.perm.mem_iff.1 member)

/-- A number comes before what is no number, and their keys differ. -/
theorem Couple.distinct (callable : w.canHead = true) (couple : Couple n w as) :
    Before (.number n) w ∧ ∀ x ∈ as, ∀ y ∈ as, x.sortKey = y.sortKey → x = y := by
  have ranks : w.sortKey.rank ≠ (Value.number n).sortKey.rank ∧ Before (.number n) w := by
    cases w with
    | symbol x => exact ⟨by simp [sortKey], rfl⟩
    | expr h bs t => exact ⟨by simp [sortKey], rfl⟩
    | _ => cases callable
  refine ⟨ranks.2, couple.forall_mem (couple.forall_mem (fun _ => rfl) fun same => ?_)
    (couple.forall_mem (fun same => ?_) fun _ => rfl)⟩
  · exact absurd (congrArg SortKey.rank same).symm ranks.1
  · exact absurd (congrArg SortKey.rank same) ranks.1

theorem canonicalSort_couple (callable : w.canHead = true) (couple : Couple n w as) :
    canonicalSort as = [.number n, w] := by
  obtain ⟨before, distinct⟩ := couple.distinct callable
  rw [canonicalSort_congr couple.perm distinct]
  exact canonicalSort_of_pairwise (List.pairwise_pair.2 before)

theorem sortArgs_couple (callable : w.canHead = true) (writable : w.isWritable = true) (couple : Couple n w as)
    (f : String) : (call f as).sortArgs =
      if n.isWritable then .ok (call f [.number n, w]) else .error .malformed := by
  have two : ¬ as.length < 2 := by
    rw [couple.perm.length_eq]
    exact Nat.lt_irrefl 2
  have written : areWritable as = n.isWritable := by
    rw [areWritable_perm couple.perm, areWritable, areWritable, areWritable, writable, Value.isWritable,
      Bool.and_true, Bool.and_true]
  rw [sortArgs, if_neg two]
  split
  · next short =>
    rw [sorted_of_writable (written.trans short) (toldApart_of_distinct (couple.distinct callable).2),
      canonicalSort_couple callable couple]
    cases couple with
    | before =>
      show Except.ok (ite _ _ _) = _
      rw [ite_self]
    | after =>
      have apart : sameItems [.number n, w] [w, .number n] = false := by
        rw [sameItems, number_same callable, Bool.false_and]
      show Except.ok (ite _ _ _) = _
      rw [if_neg (Bool.eq_false_iff.1 apart)]
  · next long =>
    rw [sorted_of_unwritable (written.trans (Bool.eq_false_iff.2 long))]
    rfl

/-- Zero absorbs what it is multiplied with, and one leaves it alone. -/
theorem times_couple (callable : w.canHead = true) (other : w.argsOf? "Times" = none) :
    Arithmetic.times [.number n, w] = .ok (if n.isZero then int 0 else if n.isOne then w
      else call "Times" [.number n.once, w]) := by
  have symbolic := number_of_callable callable
  have nonzero : w.equal (int 0) = false := by
    cases w with
    | symbol | expr => simp [Value.equal, number?, Value.same]
    | _ => cases callable
  have flat : Arithmetic.inline "Times" [.number n, w] = [.number n, w] :=
    inline_of_flat (forall_mem_pair.2 ⟨rfl, other⟩)
  have separated : Arithmetic.separate [.number n, w] = ([n], [w]) := by
    have numeric : (Value.number n).number? = some n := rfl
    simp [Arithmetic.separate, symbolic, numeric]
  have product : Arithmetic.productOf [n] = .ok n.once := by
    rw [Arithmetic.productOf, List.foldlM_cons, mul_one_eq]
    rfl
  have zero : (Value.number n).equal (int 0) = n.isZero := rfl
  simp only [Arithmetic.times, List.any_cons, List.any_nil, zero, nonzero, Bool.or_false]
  rw [flat, separated, product]
  cases absorbs : n.isZero with
  | true => rfl
  | false =>
    have more : n.once.isZero = false := (isZero_once n).trans absorbs
    simp only [orFail, bind, Except.bind, pure, Except.pure, more, isOne_once, List.isEmpty_cons, Bool.false_eq_true,
      if_false]
    cases n.isOne <;> rfl

theorem differs_couple (f : String) (m n : Number) (w : Value) :
    (call f [.number m, w]).differs (call f [.number n, w]) = !m.same n := by
  have head : (sym f).same (sym f) = true := same_refl _
  have items : sameItems [.number m, w] [.number n, w] = m.same n := by
    rw [sameItems, sameItems, sameItems, same_refl, Value.same, number?, Bool.and_true, Bool.and_true]
  have whole : (call f [.number m, w]).same (call f [.number n, w]) = m.same n := by
    rw [Value.same, head, items, Bool.true_and, beq_self_eq_true, Bool.and_true]
  exact congrArg (! ·) whole

end Couples

/-- What the product of a number that rests and a factor comes to. -/
inductive Product (n : Number) (w : Value) : Except Error Value → Prop
  | unwritable : n.isWritable = false → Product n w (.error .malformed)
  | zero : n.isZero = true → Product n w (.ok (int 0))
  | one : n.isOne = true → Product n w (.ok w)
  | scaled : n.isZero = false → n.isOne = false → Product n w (.ok (call "Times" [.number n, w]))

/-- A number that stays in front of a factor. -/
structure Number.Stands (n : Number) : Prop where
  writable : n.isWritable = true
  nonzero : n.isZero = false
  other : n.isOne = false
  rests : n.isRestless = false

theorem Number.isWritable_of_isRestless {n : Number} (restless : n.isRestless = true) : n.isWritable = true := by
  cases n with
  | int a => cases restless
  | _ => rfl

namespace Factor

variable {s : Session} {c : ContextId} {k j : Nat} {n : Number} {w : Value} {as : List Value}
  (calculates : s.Calculates c) (factor : Factor s c w) (couple : Couple n w as)

include factor couple

theorem args : s.Suffices (k + 2) 0 (fun n => evaluateAll (evaluate n) c as) (.ok as) := by
  have number : s.Comes c (k + 1) 0 (.number n) (.ok (.number n)) :=
    (comes_atom rfl).mono (Nat.zero_le _) (Nat.le_refl 0)
  have rests : s.Comes c (k + 1) 0 w (.ok w) := factor.rests.mono (by omega) (Nat.le_refl 0)
  have none : s.Suffices (k + 2) 0 (fun n => evaluateAll (evaluate n) c []) (.ok []) := .pure []
  cases couple with
  | before => exact number.cons (rests.cons none)
  | after => exact rests.cons (number.cons none)

theorem arranged : arrange (markings "Times") (call "Times" (settled as as)) =
    if n.isWritable then .ok (call "Times" [.number n, w]) else .error .malformed := by
  rw [settled_self]
  exact (arrange_flat .times (couple.forall_mem rfl factor.single) (couple.forall_mem rfl factor.other)).trans
    (sortArgs_couple factor.callable factor.writable couple "Times")

theorem prepares (writable : n.isWritable = true) : Prepares s c (k + 2) 0 "Times" as [.number n, w] := by
  refine ⟨as, factor.args couple, ?_, ?_⟩
  · rw [factor.arranged couple, if_pos writable]
  · exact forall_mem_pair.2 ⟨rfl, factor.unlisted⟩

omit couple in
theorem ran : s.Suffices (k + 2) 0 (fun m => Operation.times.run (evaluate m) m c (call "Times" [.number n, w]))
    (.ok (if n.isZero then int 0 else if n.isOne then w else call "Times" [.number n.once, w])) := by
  have folded : Arithmetic.times [.number n, w] = _ := times_couple factor.callable factor.other
  rw [← folded]
  exact .ofExcept _

include calculates

theorem comes_scaled (stands : n.Stands) :
    s.Comes c (k + 2) 0 (call "Times" as) (.ok (call "Times" [.number n, w])) := by
  have ran := factor.ran (k := k) (n := n)
  simp only [stands.nonzero, stands.other, Bool.false_eq_true, if_false] at ran
  refine (factor.prepares couple stands.writable).stays (calculates.provides .times) ran ?_
  rw [differs_couple, same_once stands.rests]
  rfl

theorem comes_product (rests : n.isRestless = false) : ∃ o, Product n w o ∧
    (∀ p, o = .ok (call "Times" [.number p, w]) → p.Stands) ∧ s.Comes c 2 1 (call "Times" as) o := by
  have provides : s.Provides c "Times" .times := calculates.provides .times
  cases writable : n.isWritable with
  | false =>
    have disorder : arrange (markings "Times") (call "Times" (settled as as)) = .error .malformed := by
      rw [factor.arranged couple, writable]
      rfl
    have fails := comes_of_disorder provides (factor.args (k := 0) couple) disorder
    exact ⟨_, .unwritable writable, fun _ same => (by cases same), fails.mono (by omega) (by omega)⟩
  | true =>
    have prepares : Prepares s c 2 0 "Times" as [.number n, w] := factor.prepares couple writable
    have ran := factor.ran (k := 0) (n := n)
    cases zero : n.isZero with
    | true =>
      rw [zero] at ran
      have gives := prepares.gives provides ran fun v given => by cases given; rfl
      exact ⟨_, .zero zero, fun _ same => (by cases same), gives.mono (by omega) (by omega)⟩
    | false =>
      cases one : n.isOne with
      | true =>
        rw [zero, one] at ran
        have goes := prepares.goes provides ran (differs_call factor.callable factor.other) factor.rests
        refine ⟨_, .one one, fun p same => ?_, goes.mono (by omega) (by omega)⟩
        have apart := factor.other
        rw [Except.ok.inj same] at apart
        cases apart
      | false =>
        have stands : n.Stands := ⟨writable, zero, one, rests⟩
        have stays := factor.comes_scaled (k := 0) calculates couple stands
        refine ⟨_, .scaled zero one, fun q equal => ?_, stays.mono (Nat.le_refl _) (by omega)⟩
        cases equal
        exact stands

/-- A restless number in front of a factor is replaced for ever. -/
theorem endless (restless : n.isRestless = true) : s.Endless c (call "Times" as) := by
  intro m
  induction m generalizing n as with
  | zero =>
    intro d level fuel
    omega
  | succ m ih =>
    intro d level fuel
    have each : ∀ a ∈ as, s.Confines d (evaluate (m + 1) c a) (· = a) :=
      couple.forall_mem (confines_atom rfl fuel level) (factor.confined (m + 1) d level fuel)
    have arranged := factor.arranged couple
    rw [settled_self, if_pos (isWritable_of_isRestless restless)] at arranged
    have folded : Arithmetic.times [.number n, w] = .ok (call "Times" [.number n.once, w]) := by
      rw [times_couple factor.callable factor.other, show n.isZero = false from equal_int_of_isRestless restless 0,
        show n.isOne = false from equal_int_of_isRestless restless 1]
      rfl
    refine confines_call (calculates.provides .times) (confines_all each) arranged
      (forall_mem_pair.2 ⟨rfl, factor.unlisted⟩) (congrArg Step.ofExcept folded)
      (confines_again ?_ (.nested fun room => ?_))
    · exact (differs_couple "Times" n.once n w).trans (by rw [not_same_once restless]; rfl)
    · exact ih .before (isRestless_once restless) (d + 1) (by omega) (by omega)

end Factor
end Symbolic
