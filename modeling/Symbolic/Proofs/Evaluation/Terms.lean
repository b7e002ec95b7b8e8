import Mathlib.Algebra.BigOperators.Ring.List
import Mathlib.Algebra.Ring.Int.Defs
import Symbolic.Evaluate
import Symbolic.Proofs.Computation
import Symbolic.Proofs.Elements

/-!
Arithmetic terms are made of integers and symbols by sums and products of any length, by
the operations that have a fixed number of arguments, and by functions that nothing is
known about. This module says what the evaluator sees of them: the attributes of their
heads, the builtin that it runs, and that no list or sequence is among them.
-/
namespace Symbolic

open Value

inductive RingOp where
  | plus
  | times
  deriving DecidableEq

namespace RingOp

def name : RingOp → String
  | .plus => "Plus"
  | .times => "Times"

def unit : RingOp → Int
  | .plus => 0
  | .times => 1

def total : RingOp → List Int → Int
  | .plus, ns => ns.sum
  | .times, ns => ns.prod

@[simp] theorem total_nil (op : RingOp) : op.total [] = op.unit := by
  cases op <;> rfl

@[simp] theorem total_singleton (op : RingOp) (n : Int) : op.total [n] = n := by
  cases op <;> simp [total]

theorem total_perm (op : RingOp) {xs ys : List Int} (perm : xs.Perm ys) : op.total xs = op.total ys := by
  cases op with
  | plus => exact perm.sum_eq
  | times => exact perm.prod_eq

end RingOp

def Builtin.ofName? (f : String) : Option Builtin := Builtin.all.find? fun b => b.symbol.symbol? == some ⟨f⟩

/-- No builtin has the name, and evaluation does not treat it in a way of its own. -/
structure Uninterpreted (f : String) : Prop where
  unbuilt : Builtin.ofName? f = none
  notList : f ≠ "List"
  notSequence : f ≠ "Sequence"

/-- What may stand under a head. -/
inductive Legal : String → List Value → Prop
  | ring (op : RingOp) (as : List Value) : Legal op.name as
  | minus (a : Value) : Legal "Minus" [a]
  | subtract (a b : Value) : Legal "Subtract" [a, b]
  | abs (a : Value) : Legal "Abs" [a]
  | power (a : Value) {n : Int} : 0 ≤ n → Legal "Power" [a, int n]
  | free {f : String} (as : List Value) : Uninterpreted f → Legal f as

/-- The names that terms may use. Sums and products always may occur. -/
structure Vocabulary where
  atom : String → Prop
  head : String → Prop
  ring : ∀ op : RingOp, head op.name

def Vocabulary.all : Vocabulary := ⟨fun _ => True, fun _ => True, fun _ => trivial⟩

inductive IsTerm (V : Vocabulary) : Value → Prop
  | integer (n : Int) : IsTerm V (int n)
  | atom {x : String} : V.atom x → IsTerm V (sym x)
  | apply {f : String} {as : List Value} : V.head f → Legal f as → (∀ a ∈ as, IsTerm V a) → IsTerm V (call f as)

/-- What the builtin of a head makes of arguments; without one the expression is left as it is. -/
def fold (f : String) (as : List Value) : Except Error Value :=
  match f with
  | "Plus" => Arithmetic.plus as
  | "Times" => Arithmetic.times as
  | "Minus" => Arithmetic.minus (call f as) as
  | "Subtract" => Arithmetic.subtract (call f as) as
  | "Abs" => Arithmetic.abs (call f as) as
  | "Power" => Arithmetic.power (call f as) as
  | f => .ok (call f as)

/-- The attributes that the language gives a head. -/
def markings (f : String) : SymbolSet :=
  ((symbolsOf []).union (symbolsOf ((Builtin.ofName? f).elim [] Builtin.attributes))).union .empty

/-! ### The registry of the language -/

theorem find_standard (f : String) : Context.find? (sym f) Builtin.standard = Builtin.ofName? f := by
  have found : ∀ bs : List Builtin, Context.find? (sym f) (bs.map fun b => (b.symbol, b)) =
      bs.find? fun b => b.symbol.symbol? == some ⟨f⟩ := by
    intro bs
    induction bs with
    | nil => rfl
    | cons b bs ih =>
      have alike : (sym f).same b.symbol = (b.symbol.symbol? == some ⟨f⟩) := by
        cases b.symbol <;> simp [same, symbol?, eq_comm]
      simp only [List.map_cons, Context.find?, List.find?_cons, alike, ih]
      cases b.symbol.symbol? == some ⟨f⟩ <;> rfl
  exact found Builtin.all

theorem Uninterpreted.ne {f g : String} (free : Uninterpreted f)
    (built : (Builtin.ofName? g).isSome = true) : f ≠ g := by
  rintro rfl
  rw [free.unbuilt] at built
  cases built

theorem fold_free {f : String} (free : Uninterpreted f) (as : List Value) : fold f as = .ok (call f as) := by
  have plus : f ≠ "Plus" := free.ne rfl
  have times : f ≠ "Times" := free.ne rfl
  have minus : f ≠ "Minus" := free.ne rfl
  have subtract : f ≠ "Subtract" := free.ne rfl
  have abs : f ≠ "Abs" := free.ne rfl
  have power : f ≠ "Power" := free.ne rfl
  unfold fold
  split <;> simp_all

theorem runBuiltin_named {ev : Evaluator} {fuel : Nat} {c : ContextId} {s : Session} {f : String} {as : List Value}
    (op : Operation) (standard : s.registry = Builtin.standard)
    (named : (Builtin.ofName? f).map Builtin.operation = some op) :
    runBuiltin ev fuel c (call f as) s = op.run ev fuel c (call f as) s := by
  obtain ⟨b, built, rfl⟩ := Option.map_eq_some_iff.1 named
  have found : s.builtin? (sym f) = some b := by rw [Session.builtin?, standard, find_standard, built]
  simp only [runBuiltin]
  rw [Step.bind_get, found]

/-- On legal arguments the builtin of a head is a function of the arguments. -/
theorem runBuiltin_eq {ev : Evaluator} {fuel : Nat} {c : ContextId} {s : Session} {f : String} {as : List Value}
    (standard : s.registry = Builtin.standard) (legal : Legal f as) :
    runBuiltin ev fuel c (call f as) s = Step.ofExcept (fold f as) s := by
  have found : s.builtin? (sym f) = Builtin.ofName? f := by rw [Session.builtin?, standard, find_standard]
  simp only [runBuiltin]
  rw [Step.bind_get, found]
  cases legal with
  | ring op => cases op <;> rfl
  | minus | subtract | abs | power => rfl
  | free as free => rw [free.unbuilt, fold_free free]; rfl

/-! ### Attributes of heads -/

theorem Legal.holds_nothing {f : String} {as : List Value} (legal : Legal f as) :
    ∀ a ∈ Attribute.holding, (markings f).contains a = false := by
  cases legal with
  | ring op => cases op <;> decide
  | minus | subtract | abs | power => decide
  | free as free => rw [markings, free.unbuilt]; decide

theorem Legal.arranges {f : String} {as : List Value} (legal : Legal f as) {a : Symbol}
    (arranging : a = Attribute.flat ∨ a = Attribute.orderless) :
    (markings f).contains a = true ↔ ∃ op : RingOp, f = op.name := by
  cases legal with
  | ring op =>
    refine iff_of_true ?_ ⟨op, rfl⟩
    rcases arranging with rfl | rfl <;> cases op <;> decide
  | free as free =>
    have unmarked : (markings f).contains a = false := by
      rw [markings, free.unbuilt]
      rcases arranging with rfl | rfl <;> decide
    refine iff_of_false (by simp [unmarked]) ?_
    rintro ⟨op, rfl⟩
    cases op <;> cases free.unbuilt
  | minus | subtract | abs | power =>
    refine iff_of_false (by rcases arranging with rfl | rfl <;> decide) ?_
    rintro ⟨op, named⟩
    revert named
    cases op <;> decide

/-! ### Shape of terms -/

namespace IsTerm

variable {V : Vocabulary} {f : String} {as : List Value} {v : Value}

theorem head (term : IsTerm V (call f as)) : V.head f := by
  cases term with
  | apply head _ _ => exact head

theorem legal (term : IsTerm V (call f as)) : Legal f as := by
  cases term with
  | apply _ legal _ => exact legal

theorem arg (term : IsTerm V (call f as)) {a : Value} (member : a ∈ as) : IsTerm V a := by
  cases term with
  | apply _ _ args => exact args a member

theorem ofRing (op : RingOp) (terms : ∀ a ∈ as, IsTerm V a) : IsTerm V (call op.name as) :=
  .apply (V.ring op) (.ring op as) terms

theorem expr {h : Value} {t : SymbolSet} (term : IsTerm V (.expr h as t)) :
    ∃ f, h = sym f ∧ t = ⟨[], List.Pairwise.nil⟩ ∧ V.head f ∧ Legal f as ∧ ∀ a ∈ as, IsTerm V a := by
  cases term with
  | apply head legal args => exact ⟨_, rfl, rfl, head, legal, args⟩

theorem isExact (term : IsTerm V v) : v.isExact = true := by
  induction term with
  | integer | atom => rfl
  | apply _ _ _ ih => exact everywhere_expr.2 ⟨rfl, rfl, ih⟩

theorem number {n : Number} (term : IsTerm V v) (number : v.number? = some n) :
    ∃ k : Int, n = .int k ∧ v = int k := by
  cases term with
  | integer k => cases number; exact ⟨k, rfl, rfl⟩
  | atom | apply => cases number

theorem ordinary (term : IsTerm V v) {g : String} (special : g = "List" ∨ g = "Sequence") :
    v.argsOf? g = none := by
  cases term with
  | integer | atom => rfl
  | apply _ legal =>
    have other : ∀ f as, Legal f as → f ≠ g := by
      intro f as legal
      cases legal with
      | free as free => rcases special with rfl | rfl; exacts [free.notList, free.notSequence]
      | ring op => rcases special with rfl | rfl <;> cases op <;> decide
      | minus | subtract | abs | power => rcases special with rfl | rfl <;> decide
    simp [argsOf?, other _ _ legal]

end IsTerm

section Arrangement

variable {V : Vocabulary} {f : String} {as : List Value}

theorem inline_of_flat {name : String} (flat : ∀ a ∈ as, a.argsOf? name = none) : Arithmetic.inline name as = as := by
  have each : ∀ a ∈ as, (a.argsOf? name).getD [a] = [a] := by
    intro a member
    rw [flat a member]
    rfl
  rw [Arithmetic.inline, List.flatMap_congr each]
  exact List.flatMap_singleton' as

theorem spliceSequences_term (term : IsTerm V (call f as)) : (call f as).spliceSequences = call f as := by
  have kept : (as.flatMap fun a => (a.argsOf? "Sequence").getD [a]) = as :=
    inline_of_flat fun a member => (term.arg member).ordinary (.inr rfl)
  rw [spliceSequences, kept]

theorem threadLists_term (term : IsTerm V (call f as)) : (call f as).threadLists = call f as := by
  have noLists : listLengths as = [] := by
    refine List.filterMap_eq_nil_iff.2 ?_
    intro a member
    rw [(term.arg member).ordinary (.inl rfl)]
    rfl
  rw [threadLists, noLists]

theorem arrange_ring {op : RingOp} (term : IsTerm V (call op.name as)) :
    arrange (markings op.name) (call op.name as) = (call op.name (flatArgs (sym op.name) as)).sortArgs := by
  have flat := (term.legal.arranges (.inl rfl)).2 ⟨op, rfl⟩
  have orderless := (term.legal.arranges (.inr rfl)).2 ⟨op, rfl⟩
  have complete := term.legal.holds_nothing Attribute.holdAllComplete (by decide)
  have held := term.legal.holds_nothing Attribute.sequenceHold (by decide)
  simp only [arrange, flat, orderless, complete, held, Bool.or_self, Bool.false_eq_true, if_true, if_false,
    spliceSequences_term term, flattenNested]

theorem arrange_other (term : IsTerm V (call f as)) (other : ∀ op : RingOp, f ≠ op.name) :
    arrange (markings f) (call f as) = .ok (call f as) := by
  have unmarked : ∀ a, a = Attribute.flat ∨ a = Attribute.orderless → (markings f).contains a = false := by
    intro a arranging
    rw [Bool.eq_false_iff, Ne, term.legal.arranges arranging]
    exact fun ⟨op, named⟩ => other op named
  have complete := term.legal.holds_nothing Attribute.holdAllComplete (by decide)
  have held := term.legal.holds_nothing Attribute.sequenceHold (by decide)
  simp only [arrange, unmarked _ (.inl rfl), unmarked _ (.inr rfl), complete, held, Bool.or_self,
    Bool.false_eq_true, if_false, spliceSequences_term term]

end Arrangement

end Symbolic
