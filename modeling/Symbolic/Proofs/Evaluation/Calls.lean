import Symbolic.Proofs.Evaluation.Transparency

/-!
Calls of builtins that get their arguments unevaluated. Where nothing is defined about such a call, the builtin
is run on the arguments as they are, and what it gives takes the place of the call: it is evaluated in turn,
unless it is no different from the call (`again`). Main statement: this is all that the evaluation of the call
does, one level deeper than it was begun (`evaluate_held`).
-/
namespace Symbolic

open Value Session
open Arithmetic (inline)

namespace SymbolSet

variable {x y : Symbol} {t u : SymbolSet}

theorem mem_place {ts : List Symbol} : x ∈ place y ts ↔ x = y ∨ x ∈ ts := by
  refine ⟨mem_of_mem_place, ?_⟩
  induction ts with
  | nil => simp [place]
  | cons z ts ih =>
    simp only [place]
    split
    · exact List.mem_cons.2
    · next notBefore =>
      split
      · rintro (here | there)
        · exact List.mem_cons_of_mem z (ih (.inl here))
        · exact (List.mem_cons.1 there).elim (fun first => List.mem_cons.2 (.inl first))
            fun later => List.mem_cons_of_mem z (ih (.inr later))
      · next notAfter =>
        -- Neither name comes before the other, so the symbol is there already.
        have same : y = z := by
          by_contra ne
          exact notAfter (Symbol.before_of_not ne notBefore)
        rintro (here | there)
        · exact List.mem_cons.2 (.inl (here.trans same))
        · exact there

theorem contains_union : (t.union u).contains x = (t.contains x || u.contains x) := by
  have added : ∀ (ss : List Symbol) (t : SymbolSet), x ∈ (ss.foldl insert t).members ↔ x ∈ t.members ∨ x ∈ ss := by
    intro ss
    induction ss with
    | nil => simp
    | cons y ss ih =>
      intro t
      rw [List.foldl_cons, ih, insert, mem_place, List.mem_cons, or_comm (a := x = y), or_assoc]
  rw [Bool.eq_iff_iff, Bool.or_eq_true]
  simp only [contains, List.contains_iff_mem]
  exact added u.members t

end SymbolSet

/-- The attributes that bring the arguments of an expression into another form. -/
def Attribute.arranging : List Symbol := [flat, orderless, listable]

namespace Session

/-- In a context of the session nothing is defined about calls of a name, though it may have attributes there.
Lists of definitions may be there if they are empty. -/
structure Undefined (s : Session) (c : ContextId) (f : String) : Prop where
  unset : ∀ k l, s.definitions? c (sym f) k = some l → s.definitionsOf l = []
  upward : ∀ x l, s.definitions? c (sym x) .up = some l → s.definitionsOf l = []

variable {s t : Session} {c : ContextId} {f : String}

theorem Undefined.of_contents (undefined : s.Undefined c f) (contexts : t.contexts = s.contexts)
    (lists : t.lists = s.lists) : t.Undefined c f where
  unset k l found := by
    rw [definitionsOf, lists]
    exact undefined.unset k l ((nearest_congr contexts.symm _ c).trans found)
  upward x l found := by
    rw [definitionsOf, lists]
    exact undefined.upward x l ((nearest_congr contexts.symm _ c).trans found)

theorem exited_entered (inner : 0 < s.depth) : s.entered.exited = s := by
  have counted : s.entered.iterations = s.iterations := if_neg (Nat.pos_iff_ne_zero.1 inner)
  simp only [entered] at counted
  simp only [entered, exited, counted, Nat.add_sub_cancel]

theorem Silent.toUndefined (silent : s.Silent c f) : s.Undefined c f := ⟨silent.undefined, silent.upward⟩

/-- A head has the attributes that it is given in the context and those that the language gives it. -/
theorem contains_effectiveAttributes (standard : s.registry = Builtin.standard) (a : Symbol) :
    (s.effectiveAttributes c (sym f) .empty).contains a =
      ((symbolsOf (s.attributesOf c (sym f))).contains a || (markings f).contains a) := by
  simp only [effectiveAttributes, builtin?, standard, find_standard, markings, SymbolSet.contains_union]
  simp only [symbolsOf, SymbolSet.ofList, SymbolSet.contains, SymbolSet.empty, List.filterMap_nil, List.foldl_nil,
    List.contains_nil, Bool.or_false, Bool.false_or]

end Session

/-- What comes of an expression for which a builtin or a definition gave a value: that value is evaluated, unless
it is no different from the expression. -/
def again (ev : Evaluator) (c : ContextId) (e r : Value) : Eval Value :=
  if r.differs e then do
    countReplacement
    ev c r
  else return e

theorem again_new {ev : Evaluator} {c : ContextId} {e r : Value} (new : r.differs e = true) :
    again ev c e r = (countReplacement >>= fun _ => ev c r) :=
  if_pos new

theorem evaluateWith_atom {c : ContextId} {ev : Evaluator} {fuel : Nat} {s : Session} {r : Value}
    (atom : r.isAtom = true) : evaluateWith ev fuel c r s = .ok r s := by
  cases r with
  | symbol | expr => cases atom
  | _ => rfl

theorem differs_of_basic {r h : Value} {as : List Value} {t : SymbolSet} (basic : (r.isAtom || r.isSymbol) = true) :
    r.differs (.expr h as t) = true := by
  cases r with
  | null | bool | number | text | symbol => simp [differs, Value.equal, number?, same]
  | _ => cases basic

theorem evaluate_atom {c : ContextId} {s : Session} {r : Value} (atom : r.isAtom = true)
    (room : (s.depth + 1 : Int) ≤ s.recursionLimit) (fuel : Nat) :
    evaluate (fuel + 1) c r s = .ok r s.entered.exited := by
  rw [evaluate, deeper_eq, if_neg (by omega), evaluateWith_atom atom]
  rfl

section Calls

variable {ev : Evaluator} {fuel : Nat} {c : ContextId} {s : Session} {f : String} {as : List Value} {op : Operation}

/-- With its arguments in order and no list to be threaded over, a call that nothing is defined about is what its
builtin makes of it. -/
theorem evaluateArranged_unthreaded {attrs : SymbolSet} (op : Operation) (standard : s.registry = Builtin.standard)
    (named : (Builtin.ofName? f).map Builtin.operation = some op) (undefined : s.Undefined c f)
    (unthreaded : (attrs.contains Attribute.listable && (call f as).threadLists.differs (call f as)) = false) :
    evaluateArranged ev (fuel + 1) c attrs (call f as) s =
      (op.run ev (fuel + 1) c (call f as) >>= again ev c (call f as)) s := by
  have unchanged : firstChange ev (fuel + 1) c (call f as) (sources (call f as)) s = .ok none s :=
    firstChange_call undefined.upward (undefined.unset .down)
  simp only [evaluateArranged, unthreaded, Bool.false_eq_true, if_false, replaceOnce, bind_assoc]
  rw [Step.bind_of_ok unchanged]
  exact Step.bind_of_same (runBuiltin_named op standard named)

theorem evaluateArranged_undefined {attrs : SymbolSet} (op : Operation) (standard : s.registry = Builtin.standard)
    (named : (Builtin.ofName? f).map Builtin.operation = some op) (undefined : s.Undefined c f)
    (unthreaded : attrs.contains Attribute.listable = false) :
    evaluateArranged ev (fuel + 1) c attrs (call f as) s =
      (op.run ev (fuel + 1) c (call f as) >>= again ev c (call f as)) s :=
  evaluateArranged_unthreaded op standard named undefined (by rw [unthreaded, Bool.false_and])

/-- A call that nothing is said about but what the language says goes on with its arguments. -/
theorem evaluateWith_silent (standard : s.registry = Builtin.standard) (silent : s.Silent c f)
    (complete : (markings f).contains Attribute.holdAllComplete = false) :
    evaluateWith ev (fuel + 1) c (call f as) s = evaluateOn ev (fuel + 1) c (markings f) as .empty (sym f) s := by
  have whole : evaluateWith ev (fuel + 1) c (call f as) s =
      evaluateBy ev (fuel + 1) c (s.effectiveAttributes c (sym f) .empty) (sym f) as .empty s := evaluateWith_eq
  have attrs : s.effectiveAttributes c (sym f) .empty = markings f :=
    effectiveAttributes_unmarked standard silent.unmarked
  have head : headUnder ev (fuel + 1) c (markings f) (sym f) s = .ok (sym f) s := by
    rw [headUnder, if_neg (Bool.eq_false_iff.1 complete)]
    exact newHead_unset (silent.undefined .own)
  rw [whole, attrs, evaluateBy, Step.bind_of_ok head]

/-- The language gives a name a builtin of an operation that gets its arguments as they are. -/
structure Verbatim (f : String) (op : Operation) : Prop where
  named : (Builtin.ofName? f).map Builtin.operation = some op
  held : (markings f).contains Attribute.holdAll = true
  plain : ∀ a ∈ Attribute.arranging, (markings f).contains a = false

/-- A name is given no attributes in a context that bring its arguments into another form. -/
def Session.Unarranged (s : Session) (c : ContextId) (f : String) : Prop :=
  ∀ a ∈ Attribute.arranging, (symbolsOf (s.attributesOf c (sym f))).contains a = false

theorem Session.Silent.unarranged (silent : s.Silent c f) : s.Unarranged c f := by
  intro a _
  rw [silent.unmarked]
  rfl

theorem Session.Unarranged.of_contexts {t : Session} (unarranged : s.Unarranged c f)
    (contexts : t.contexts = s.contexts) : t.Unarranged c f := by
  intro a member
  rw [attributesOf, nearest_congr contexts]
  exact unarranged a member

variable (verbatim : Verbatim f op) (standard : s.registry = Builtin.standard) (undefined : s.Undefined c f)
  (unarranged : s.Unarranged c f) (single : ∀ a ∈ as, a.argsOf? "Sequence" = none)

include verbatim standard undefined unarranged single

theorem evaluateWith_held :
    evaluateWith ev (fuel + 1) c (call f as) s =
      (op.run ev (fuel + 1) c (call f as) >>= again ev c (call f as)) s := by
  have whole : evaluateWith ev (fuel + 1) c (call f as) s =
      evaluateBy ev (fuel + 1) c (s.effectiveAttributes c (sym f) .empty) (sym f) as .empty s := evaluateWith_eq
  have marked := fun a => contains_effectiveAttributes (c := c) (f := f) standard a
  have held := (marked Attribute.holdAll).trans (by rw [verbatim.held, Bool.or_true])
  have plain : ∀ a ∈ Attribute.arranging, (s.effectiveAttributes c (sym f) .empty).contains a = false := by
    intro a member
    rw [marked, unarranged a member, verbatim.plain a member]
    rfl
  simp only [Attribute.arranging, List.forall_mem_cons] at plain
  obtain ⟨flat, orderless, listable, -⟩ := plain
  generalize s.effectiveAttributes c (sym f) .empty = attrs at whole held flat orderless listable
  have head : headUnder ev (fuel + 1) c attrs (sym f) s = .ok (sym f) s := by
    unfold headUnder
    split
    · rfl
    · exact newHead_unset (undefined.unset .own)
  have args : evaluateArgs ev c attrs as = pure as := by simp only [evaluateArgs, held, Bool.or_true, if_true]
  have arranged : arrange attrs (call f as) = .ok (call f as) := by
    have spliced : (call f as).spliceSequences = call f as := congrArg (call f) (inline_of_flat single)
    simp only [arrange, flat, orderless, spliced, ite_self, Bool.false_eq_true, if_false]
  rw [whole, evaluateBy, Step.bind_of_ok head, evaluateOn, args, pure_bind]
  simp only [settled, ite_self, SymbolSet.empty]
  rw [arranged]
  exact evaluateArranged_undefined op standard verbatim.named undefined listable

/-- A call whose arguments are held and are no sequences is what its builtin makes of it, if nothing is defined about
it and no attribute brings the arguments into another form. -/
theorem evaluate_held :
    evaluate (fuel + 2) c (call f as) s =
      deeper (op.run (evaluate (fuel + 1)) (fuel + 1) c (call f as) >>=
        again (evaluate (fuel + 1)) c (call f as)) s := by
  rw [evaluate]
  exact deeper_congr
    (evaluateWith_held verbatim standard (undefined.of_contents rfl rfl) (unarranged.of_contexts rfl) single)

end Calls
end Symbolic
