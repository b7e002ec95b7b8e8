import Symbolic.Proofs.Evaluation.Environment
import Symbolic.Proofs.Evaluation.Isolation

/-!
Three ways to give a local variable a value: to put the value in its place in the body, to
rename it to a new symbol that is defined as the value, and to define it in a context of its
own. Main statement: on terms all three come to the same, which is what the body with the value in
place of the variable comes to.
-/
namespace Symbolic

open Value Session

/-- A name that is none of a vocabulary. -/
structure Vocabulary.Lacks (V : Vocabulary) (x : String) : Prop where
  atom : ¬ V.atom x
  head : ¬ V.head x

def assigning (x : String) (w : Value) : String → Option Value := fun y => if y = x then some w else none

@[simp] theorem assigning_self (x : String) (w : Value) : assigning x w x = some w := if_pos rfl

theorem assigning_none {x y : String} {w : Value} : assigning x w y = none ↔ y ≠ x := by
  simp [assigning]

theorem eq_of_assigning {x y : String} {v w : Value} (found : assigning x w y = some v) : y = x ∧ v = w := by
  by_cases same : y = x
  · subst same
    rw [assigning_self] at found
    exact ⟨rfl, (Option.some.inj found).symm⟩
  · rw [assigning_none.2 same] at found
    cases found

namespace Vocabulary.Lacks

variable {V : Vocabulary} {x y : String}

theorem atom_unassigned (lacks : V.Lacks x) (w : Value) (known : V.atom y) : assigning x w y = none :=
  assigning_none.2 fun same => lacks.atom (same ▸ known)

theorem head_unassigned (lacks : V.Lacks x) (w : Value) (known : V.head y) : assigning x w y = none :=
  assigning_none.2 fun same => lacks.head (same ▸ known)

end Vocabulary.Lacks

/-- A value that does not mention its symbol makes a valuation. -/
def Valuation.single (x : String) {V : Vocabulary} {w : Value} (term : IsTerm V w) (lacks : V.Lacks x)
    (stable : Stable w) : Valuation where
  value? := assigning x w
  ring op := lacks.head_unassigned w (V.ring op)
  term found := by
    obtain ⟨rfl, rfl⟩ := eq_of_assigning found
    exact term.widen (fun _ => lacks.atom_unassigned _) fun _ => lacks.head_unassigned _
  stable found := by
    obtain ⟨-, rfl⟩ := eq_of_assigning found
    exact stable

section Substitution

variable {U V : Vocabulary} {x y g : String} {v w : Value}

theorem IsTerm.assigned (value : IsTerm U w) (known : y ≠ x → U.atom y) :
    IsTerm U ((assigning x w y).getD (sym y)) := by
  by_cases same : y = x
  · subst same
    simpa using value
  · rw [assigning_none.2 same]
    exact .atom (known same)

theorem substituteAll_each {splice : Bool} {es : List (Symbol × Value)} {f : Value → Value} {vs : List Value}
    (each : ∀ v ∈ vs, v.substitute splice es = .ok (f v)) : substituteAll splice es vs = .ok (vs.map f) := by
  induction vs with
  | nil => rw [substituteAll, List.map_nil]
  | cons v vs ih =>
    rw [substituteAll, each v (by simp), ih fun u member => each u (by simp [member])]
    rfl

/-- Substitution of one symbol in a term that it heads nothing in. -/
theorem substituteTable_term (term : IsTerm V v) (head : ¬ V.head x) (value : IsTerm .all w) :
    v.substituteTable false [(sym x, w)] = .ok (v.instantiate (assigning x w)) := by
  show v.substitute false [(⟨x⟩, w)] = _
  have precise : ∀ {u}, IsTerm V u → (u.instantiate (assigning x w)).isExact = true := by
    intro u term
    exact (term.instantiate (fun y _ => value.assigned fun _ => trivial) fun _ _ => trivial).isExact
  induction term with
  | integer n => simp [int, substitute, instantiate]
  | @atom y _ =>
    rw [instantiate_sym, sym, substitute]
    by_cases same : y = x <;> simp [Bindings.lookup, assigning, same]
  | @apply f as known legal args ih =>
    have other : f ≠ x := fun same => head (same ▸ known)
    have top : (sym f).substitute false [(⟨x⟩, w)] = .ok (sym f) := by
      rw [sym, substitute]
      simp [Bindings.lookup, other]
    have steps : (call f as).substitute false [(⟨x⟩, w)] =
        if (sym f).equal (sym f) && sameItems (as.map (instantiate (assigning x w))) as then .ok (call f as)
        else .ok (call f (as.map (instantiate (assigning x w)))) := by
      rw [call, substitute, top, substituteAll_each ih]
      rfl
    rw [steps, instantiate_call]
    split
    · next unchanged =>
      have same := (Bool.and_eq_true_iff.1 unchanged).2
      have exactArgs : ∀ b ∈ as.map (instantiate (assigning x w)), b.isExact = true := by
        intro b member
        obtain ⟨a, inside, rfl⟩ := List.mem_map.1 member
        exact precise (args a inside)
      rw [eq_of_sameItems exactArgs (fun a member => (args a member).isExact) same]
    · rfl

/-- A symbol that was not there before may stand between a variable and its value. -/
theorem instantiate_renamed (term : IsTerm V v) (new : V.Lacks g) :
    (v.instantiate (assigning x (sym g))).instantiate (assigning g w) = v.instantiate (assigning x w) := by
  induction term with
  | integer n => simp
  | @atom y known =>
    have other : y ≠ g := fun same => new.atom (same ▸ known)
    by_cases same : y = x
    · simp [same]
    · simp [assigning_none.2 same, assigning_none.2 other]
  | @apply f as _ _ _ ih =>
    rw [instantiate_call, instantiate_call, instantiate_call, List.map_map]
    exact congrArg (call f) (List.map_congr_left ih)

end Substitution

/-! ### Contexts without definitions -/

namespace Session

/-- Nothing is defined in a context of the session. Lists of definitions may be there if they are empty. -/
structure Vacant (s : Session) (c : ContextId) : Prop where
  standard : s.registry = Builtin.standard
  here : c < s.contexts.size
  empty : ∀ {x k l}, s.definitions? c (sym x) k = some l → s.lists[l]? = some []
  unmarked : ∀ x, s.attributesOf c (sym x) = []

variable {s t : Session} {c inner : ContextId} {x : String} {l : ListId} {α : Type}

theorem initial_vacant : initial.Vacant globalId where
  standard := rfl
  here := by decide
  empty found := by
    rw [definitions?, nearest] at found
    cases found
  unmarked x := initial_bare.unmarked _

theorem definitionsOf_of_found {ds : List Definition} (found : s.lists[l]? = some ds) : s.definitionsOf l = ds := by
  rw [definitionsOf, Array.getD_eq_getD_getElem?, found]
  rfl

theorem Vacant.assigns (vacant : s.Vacant c) : s.Assigns c .nothing where
  standard := vacant.standard
  assigned found := nomatch found
  undefined _ found := definitionsOf_of_found (vacant.empty found)
  unmarked := vacant.unmarked

theorem Vacant.of_contents (vacant : s.Vacant c) (registry : t.registry = s.registry)
    (contexts : t.contexts = s.contexts) (lists : t.lists = s.lists) : t.Vacant c where
  standard := registry.trans vacant.standard
  here := contexts ▸ vacant.here
  empty found := lists ▸ vacant.empty ((nearest_congr contexts.symm _ c).trans found)
  unmarked x := by
    rw [attributesOf, nearest_congr contexts]
    exact vacant.unmarked x

theorem lists_newList {ds : List Definition} (found : s.lists[l]? = some ds) (es : List Definition) :
    (s.newList es).2.lists[l]? = some ds := by
  have bound := (Array.getElem?_eq_some_iff.1 found).1
  exact (Array.getElem?_push.trans (if_neg (Nat.ne_of_lt bound))).trans found

theorem Vacant.newList (vacant : s.Vacant c) (ds : List Definition) : (s.newList ds).2.Vacant c where
  standard := vacant.standard
  here := vacant.here
  empty found :=
    lists_newList (vacant.empty ((nearest_congr (s := s) (t := (s.newList ds).2) rfl _ c).trans found)) ds
  unmarked x := by
    rw [attributesOf, nearest_congr (s := (s.newList ds).2) (t := s) rfl]
    exact vacant.unmarked x

theorem Vacant.before (vacant : s.Vacant c) (inner : ContextId) (registry : t.registry = s.registry)
    (lists : t.lists = s.lists)
    (unchanged : ∀ b ctx, s.contexts[b]? = some ctx → b ≠ inner → t.contexts[b]? = some ctx) (below : c < inner) :
    t.Vacant c where
  standard := registry.trans vacant.standard
  here := by
    obtain ⟨ctx, found⟩ : ∃ ctx, s.contexts[c]? = some ctx := ⟨_, Array.getElem?_eq_getElem vacant.here⟩
    exact (Array.getElem?_eq_some_iff.1 (unchanged c ctx found (Nat.ne_of_lt below))).1
  empty found := by
    rw [definitions?, nearest_of_unchanged unchanged vacant.here below] at found
    exact lists ▸ vacant.empty found
  unmarked x := by
    rw [attributesOf, nearest_of_unchanged unchanged vacant.here below]
    exact vacant.unmarked x

theorem Vacant.newContext (vacant : s.Vacant c) (name : String) :
    (s.newContext name (some c)).2.Vacant c ∧ (s.newContext name (some c)).2.Vacant s.contexts.size := by
  have old : (s.newContext name (some c)).2.Vacant c := by
    refine vacant.before s.contexts.size rfl rfl (fun b ctx found _ => ?_) vacant.here
    have bound := (Array.getElem?_eq_some_iff.1 found).1
    exact (Array.getElem?_push.trans (if_neg (Nat.ne_of_lt bound))).trans found
  have made : (s.newContext name (some c)).2.contexts[s.contexts.size]? = some (.fresh name (some c)) :=
    Array.getElem?_push.trans (if_pos rfl)
  have inherits : ∀ {β : Type} (f : Context → Option β), f (.fresh name (some c)) = none →
      (s.newContext name (some c)).2.nearest f s.contexts.size = (s.newContext name (some c)).2.nearest f c := by
    intro β f absent
    rw [nearest_of_parent made absent]
    exact if_pos vacant.here
  refine ⟨old, vacant.standard, (Array.getElem?_eq_some_iff.1 made).1, fun found => ?_, fun x => ?_⟩
  · rw [definitions?, inherits _ rfl] at found
    exact old.empty found
  · rw [attributesOf, inherits _ rfl]
    exact old.unmarked x

theorem nearest_updated {f : Context → Option α} {g : Context → Context} {ctx : Context}
    (parent : (g ctx).parent = ctx.parent) (found : s.contexts[c]? = some ctx) :
    (s.updateContext c g).nearest f c = if (f (g ctx)).isSome then f (g ctx)
      else ctx.parent.bind fun p => if p < c then s.nearest f p else none := by
  have now : (s.updateContext c g).contexts[c]? = some (g ctx) := by
    rw [contexts_update, if_pos rfl, found]
    rfl
  cases held : f (g ctx) with
  | some r => rw [nearest_of_found now held]; rfl
  | none =>
    rw [nearest_of_parent now held, parent]
    have bound := (Array.getElem?_eq_some_iff.1 found).1
    cases ctx.parent with
    | none => rfl
    | some p =>
      simp only [Option.bind_some, Option.isSome_none, Bool.false_eq_true, if_false]
      by_cases earlier : p < c
      · rw [if_pos earlier, if_pos earlier]
        refine nearest_of_unchanged (c := c) (fun b ctx there other => ?_) (Nat.lt_trans earlier bound) earlier
        rw [contexts_update, if_neg (Ne.symm other), there]
      · rw [if_neg earlier, if_neg earlier]

theorem nearest_kept {f : Context → Option α} {g : Context → Context} {ctx : Context}
    (parent : (g ctx).parent = ctx.parent) (found : s.contexts[c]? = some ctx) (same : f (g ctx) = f ctx) :
    (s.updateContext c g).nearest f c = s.nearest f c := by
  rw [nearest_updated parent found, same]
  cases held : f ctx with
  | some r => rw [nearest_of_found found held]; rfl
  | none => rw [nearest_of_parent found held]; rfl

/-- A list that is stored for a symbol is found for it, and nothing else changes. -/
theorem definitions_setList (here : c < s.contexts.size) (x y : String) (k j : DefinitionKind) (l : ListId) :
    (s.updateContext c fun ctx => ctx.setList (sym x) k l).definitions? c (sym y) j =
      if y = x ∧ j = k then some l else s.definitions? c (sym y) j := by
  obtain ⟨ctx, found⟩ : ∃ ctx, s.contexts[c]? = some ctx := ⟨_, Array.getElem?_eq_getElem here⟩
  have entry : ((ctx.setList (sym x) k l).entry (sym y)).list? j =
      if y = x ∧ j = k then some l else (ctx.entry (sym y)).list? j := by
    rw [sym, sym, Context.entry_setList]
    by_cases same : y = x
    · subst same
      simp [same_symbol_iff.2 rfl, Entry.list?_setList]
    · have other : (Value.symbol ⟨x⟩).same (.symbol ⟨y⟩) = false :=
        Bool.eq_false_iff.2 fun hit => same (by cases same_symbol_iff.1 hit; rfl)
      simp [other, same]
  by_cases here : y = x ∧ j = k
  · rw [if_pos here] at entry ⊢
    rw [definitions?, nearest_updated rfl found, entry]
    rfl
  · rw [if_neg here] at entry ⊢
    exact nearest_kept rfl found entry

theorem attributesOf_setList (here : c < s.contexts.size) (v u : Value) (k : DefinitionKind) (l : ListId) :
    (s.updateContext c fun ctx => ctx.setList v k l).attributesOf c u = s.attributesOf c u := by
  obtain ⟨ctx, found⟩ : ∃ ctx, s.contexts[c]? = some ctx := ⟨_, Array.getElem?_eq_getElem here⟩
  rw [attributesOf, attributesOf, nearest_kept rfl found rfl]

theorem Vacant.setList (vacant : s.Vacant c) (x : String) (k : DefinitionKind) (blank : s.lists[l]? = some []) :
    (s.updateContext c fun ctx => ctx.setList (sym x) k l).Vacant c where
  standard := vacant.standard
  here := by
    show c < (s.contexts.modify c _).size
    rw [Array.size_modify]
    exact vacant.here
  empty found := by
    rw [definitions_setList vacant.here] at found
    split at found
    · cases found
      exact blank
    · exact vacant.empty found
  unmarked x := (attributesOf_setList vacant.here _ _ k l).trans (vacant.unmarked x)

theorem Vacant.define (vacant : s.Vacant c) {V : Vocabulary} {w : Value} (term : IsTerm V w) (lacks : V.Lacks x)
    (stable : Stable w) :
    (s.define c (sym x) .own [⟨sym x, w, .null⟩]).Assigns c (.single x term lacks stable) := by
  have pushed := vacant.newList [⟨sym x, w, .null⟩]
  have stored : (s.newList [⟨sym x, w, .null⟩]).2.lists[s.lists.size]? = some [⟨sym x, w, .null⟩] :=
    Array.getElem?_push.trans (if_pos rfl)
  refine ⟨vacant.standard, ?_, ?_, ?_⟩
  · intro y u found
    obtain ⟨rfl, rfl⟩ := eq_of_assigning found
    exact ⟨s.lists.size, (definitions_setList pushed.here ..).trans (if_pos ⟨rfl, rfl⟩), definitionsOf_of_found stored⟩
  · intro y k l free found
    have other : ¬ (y = x ∧ k = .own) := fun same => assigning_none.1 (free same.2) same.1
    have there := (definitions_setList pushed.here ..).symm.trans found
    rw [if_neg other] at there
    exact definitionsOf_of_found (pushed.empty there)
  · exact fun y => (attributesOf_setList pushed.here ..).trans (pushed.unmarked y)

theorem Vacant.define_after (vacant : s.Vacant c) (below : c < inner) (v : Value) (k : DefinitionKind)
    (ds : List Definition) : (s.define inner v k ds).Vacant c := by
  refine (vacant.newList ds).before inner rfl rfl (fun b ctx found other => ?_) below
  exact (contexts_update _ inner b _).trans ((if_neg (Ne.symm other)).trans found)

theorem Vacant.ownList (vacant : s.Vacant c) (x : String) :
    ∃ l u, Scope.ownList c (sym x) s = .ok l u ∧ u.lists[l]? = some [] ∧ ∀ a, s.Vacant a → u.Vacant a := by
  have checked : (Step.ofExcept (requireKeys [sym x]) : Eval Unit) s = .ok () s := rfl
  rw [Admissible.ownList_eq, Step.bind_of_ok checked, perform]
  cases found : s.definitions? c (sym x) .own with
  | some l => exact ⟨l, s, rfl, vacant.empty found, fun a there => there⟩
  | none =>
    refine ⟨s.lists.size, (s.newList []).2, rfl, ?_, fun a there => there.newList []⟩
    exact Array.getElem?_push.trans (if_pos rfl)

end Session

/-! ### The three constructs -/

inductive ScopeOp where
  | constant
  | newSymbol
  | newContext
  deriving DecidableEq

namespace ScopeOp

def name : ScopeOp → String
  | .constant => "With"
  | .newSymbol => "Module"
  | .newContext => "Block"

def run : ScopeOp → Evaluator → ContextId → Value → List Value → Eval Value
  | .constant => Scope.withScope
  | .newSymbol => Scope.moduleScope
  | .newContext => Scope.blockScope

def apply (op : ScopeOp) (x : String) (v body : Value) : Value :=
  call op.name [ofItems [call "Set" [sym x, v]], body]

end ScopeOp

theorem runBuiltin_scope {op : ScopeOp} {ev : Evaluator} {fuel : Nat} {c : ContextId} {s : Session} {as : List Value}
    (standard : s.registry = Builtin.standard) :
    runBuiltin ev fuel c (call op.name as) s = op.run ev c (call op.name as) as s := by
  cases op with
  | constant => exact runBuiltin_named .withScope standard rfl
  | newSymbol => exact runBuiltin_named .moduleScope standard rfl
  | newContext => exact runBuiltin_named .blockScope standard rfl

theorem Legal.ne_scope {f : String} {as : List Value} (legal : Legal f as) (op : ScopeOp) : f ≠ op.name := by
  cases legal with
  | free _ free => exact free.ne (by cases op <;> rfl)
  | ring k => cases k <;> cases op <;> decide
  | minus | subtract | abs | power => cases op <;> decide

section Constructs

open Step

variable {U V W : Vocabulary} {x : String} {v body : Value} {fuel : Nat} {c : ContextId} {s : Session}

theorem IsTerm.differs_scope {r : Value} (result : IsTerm U r) (value : IsTerm V v) (term : IsTerm W body)
    (op : ScopeOp) : r.differs (op.apply x v body) = true := by
  have all : ∀ {f : String} {as : List Value}, (∀ a ∈ as, a.isExact = true) → (call f as).isExact = true :=
    fun each => everywhere_expr.2 ⟨rfl, rfl, each⟩
  have symbol : (sym x).isExact = true := rfl
  have assignment : (call "Set" [sym x, v]).isExact = true := all (by simp [symbol, value.isExact])
  have locals : (ofItems [call "Set" [sym x, v]]).isExact = true := all (by simp [assignment])
  have precise : (op.apply x v body).isExact = true := all (by simp [locals, term.isExact])
  by_contra same
  rw [Bool.not_eq_true, differs_eq_false_iff result.isExact precise] at same
  subst same
  exact result.legal.ne_scope op rfl

/-- What a local variable with an initial value and a body come to: the failure of the initial value, or what the
body comes to with the value in place of the variable. -/
inductive ScopeComesTo (x : String) (v body : Value) : Except Error Value → Prop
  | fails {h : Error} (value : ComesTo v (.error h)) : ScopeComesTo x v body (.error h)
  | body {w : Value} {o : Except Error Value} (value : ComesTo v (.ok w))
    (rest : ComesTo (body.instantiate (assigning x w)) o) : ScopeComesTo x v body o

theorem ScopeComesTo.unique {o p : Except Error Value} (first : ScopeComesTo x v body o)
    (second : ScopeComesTo x v body p) : o = p := by
  cases first with
  | fails value =>
    cases second with
    | fails other => exact congrArg _ (Except.error.inj (value.unique other))
    | body other => cases value.unique other
  | body value rest =>
    cases second with
    | fails other => cases value.unique other
    | body other last =>
      cases value.unique other
      exact rest.unique last

theorem IsTerm.inPlace {w : Value} (value : IsTerm U w) (term : IsTerm U body) :
    IsTerm U (body.instantiate (assigning x w)) :=
  term.instantiate (fun _ known => value.assigned fun _ => known) fun _ known => known

theorem ScopeComesTo.result {r : Value} (comes : ScopeComesTo x v body (.ok r)) (value : IsTerm U v)
    (term : IsTerm U body) : IsTerm U r ∧ Stable r := by
  cases comes with
  | body first rest =>
    have inner := ((first.result value).1.isTerm value).inPlace (x := x) term
    obtain ⟨rewrites, stable⟩ := rest.result inner
    exact ⟨rewrites.isTerm inner, stable⟩

/-- The variable and its body have come to something, and what is defined by then does not bear on it. -/
def Concluded (c : ContextId) (x : String) (v body : Value) (o : Except Error Value) (t : Session) : Prop :=
  ScopeComesTo x v body o ∧ ∃ ρ, t.Assigns c ρ ∧ IsTerm ρ.unbound v ∧ IsTerm ρ.unbound body

theorem evaluateParts_scope {ρ : Valuation} {ev : Evaluator} (op : ScopeOp) (assigns : s.Assigns c ρ)
    (free : ρ.value? op.name = none) (as : List Value) :
    Reaches (evaluateParts ev fuel c (markings op.name) (sym op.name) as ⟨[], List.Pairwise.nil⟩ s)
      fun o t => o = .ok (call op.name as) ∧ s = t := by
  have complete : (markings op.name).contains Attribute.holdAllComplete = false := by cases op <;> decide
  have held : (markings op.name).contains Attribute.holdAll = true := by cases op <;> decide
  have unchanged : (sym op.name).differs (sym op.name) = false := differs_self rfl
  simp only [evaluateParts, complete, held, Bool.false_or, Bool.false_eq_true, if_false, if_true, evaluateHead,
    evaluateArgs]
  refine (evaluateSymbol_unbound assigns free).bind ?_ ?_
  · rintro _ _ ⟨⟨⟩, rfl⟩
    simp only [unchanged, Bool.false_eq_true, if_false, pure_bind, ite_self]
    exact reaches_ok.2 ⟨rfl, rfl⟩
  · rintro e t ⟨⟨⟩, _⟩

theorem arrange_scope (op : ScopeOp) (term : IsTerm W body) :
    arrange (markings op.name) (op.apply x v body) = .ok (op.apply x v body) := by
  have complete : (markings op.name).contains Attribute.holdAllComplete = false := by cases op <;> decide
  have splices : (markings op.name).contains Attribute.sequenceHold = false := by cases op <;> decide
  have nested : (markings op.name).contains Attribute.flat = false := by cases op <;> decide
  have ordered : (markings op.name).contains Attribute.orderless = false := by cases op <;> decide
  have kept : ([ofItems [call "Set" [sym x, v]], body].flatMap fun a => (a.argsOf? "Sequence").getD [a]) =
      [ofItems [call "Set" [sym x, v]], body] := by
    refine inline_of_flat fun a member => ?_
    rcases List.mem_pair.1 member with rfl | rfl
    · rfl
    · exact term.ordinary (.inr rfl)
  simp only [arrange, complete, splices, nested, ordered, Bool.or_self, Bool.false_eq_true, if_false, ScopeOp.apply,
    call, spliceSequences]
  rw [kept]

theorem Concluded.of_vacant {o : Except Error Value} {t : Session} (comes : ScopeComesTo x v body o)
    (vacant : t.Vacant c) (value : IsTerm V v) (term : IsTerm W body) : Concluded c x v body o t :=
  ⟨comes, .nothing, vacant.assigns, value.widen (fun _ _ => rfl) fun _ _ => rfl,
    term.widen (fun _ _ => rfl) fun _ _ => rfl⟩

/-- A construct is evaluated by running it on its parts as they are. Evaluating the result again changes
nothing. -/
theorem evaluate_scope (op : ScopeOp) (vacant : s.Vacant c) (value : IsTerm V v) (term : IsTerm W body)
    {P : Except Error Value → Prop}
    (run : Reaches (op.run (evaluate fuel) c (op.apply x v body) [ofItems [call "Set" [sym x, v]], body] s.entered)
      fun o t => P o ∧ Concluded c x v body o t) :
    Reaches (evaluate (fuel + 1) c (op.apply x v body) s) fun o _ => P o := by
  have assigns : s.entered.Assigns c .nothing := vacant.assigns.of_contents rfl rfl rfl
  have unthreaded : (markings op.name).contains Attribute.listable = false := by cases op <;> decide
  have arranged : arrange (markings op.name) (call op.name [ofItems [call "Set" [sym x, v]], body]) =
      .ok (op.apply x v body) := arrange_scope op term
  have replaced : Reaches (replaceOnce (evaluate fuel) fuel c (op.apply x v body) s.entered)
      fun o t => P o ∧ Concluded c x v body o t := by
    refine (firstChange_nothing assigns (sources_other _)).bind ?_ ?_
    · rintro _ _ ⟨⟨⟩, rfl⟩
      simp only [ScopeOp.apply, runBuiltin_scope assigns.standard]
      exact run
    · rintro e t ⟨⟨⟩, _⟩
  refine Reaches.deeper ?_
  rw [ScopeOp.apply, evaluateWith_unmarked assigns.standard (assigns.unmarked _)]
  refine (evaluateParts_scope op assigns rfl _).bind ?_ ?_
  · rintro _ _ ⟨⟨⟩, rfl⟩
    rw [bind_of_ok (Step.ofExcept_ok.2 ⟨arranged, rfl⟩)]
    simp only [evaluateArranged, unthreaded, Bool.false_and, Bool.false_eq_true, if_false]
    refine replaced.bind ?_ ?_
    · rintro r t ⟨holds, comes, ρ, known, free, freeBody⟩
      obtain ⟨result, stable⟩ := comes.result free freeBody
      rw [if_pos (result.differs_scope value term op)]
      refine (Reaches.count (P := fun o u => o = .ok () ∧ t.counted = u) ⟨rfl, rfl⟩).bind ?_ ?_
      · rintro _ _ ⟨_, rfl⟩
        refine (evaluate_interprets known fuel t.depth (t.iterations + 1) r (Valuation.unbound_admitted result)).mono ?_
        rintro o u ⟨again, _⟩
        rw [Valuation.instantiate_unbound result] at again
        exact (stable.comesTo result).unique again ▸ holds
      · rintro e u ⟨⟨⟩, _⟩
    · exact fun e t both => both.1
  · rintro e t ⟨⟨⟩, _⟩

/-- A value, and then a body with the value in place of a variable. -/
def inPlace (ev : Evaluator) (c : ContextId) (x : String) (v body : Value) : Eval Value := do
  let w ← ev c v
  ev c (body.instantiate (assigning x w))

/-- Where nothing is defined, a term comes to what it comes to by itself. -/
theorem Session.Vacant.comesTo (vacant : s.Vacant c) (value : IsTerm U v) :
    Reaches (evaluate fuel c v s) fun o t => ComesTo v o ∧ ∃ j, s.recount s.depth j = t := by
  have free : IsTerm Valuation.nothing.unbound v := value.widen (fun _ _ => rfl) fun _ _ => rfl
  have run := evaluate_interprets vacant.assigns fuel s.depth s.iterations v (Valuation.unbound_admitted free)
  rwa [Valuation.instantiate_unbound free] at run

theorem inPlace_reaches (vacant : s.Vacant c) (value : IsTerm V v) (term : IsTerm W body) :
    Reaches (inPlace (evaluate fuel) c x v body s) fun o t =>
      ScopeComesTo x v body o ∧ ∃ j, s.recount s.depth j = t := by
  have free : IsTerm .all v := value.widen (fun _ _ => trivial) fun _ _ => trivial
  have freeBody : IsTerm .all body := term.widen (fun _ _ => trivial) fun _ _ => trivial
  refine vacant.comesTo value |>.bind ?_ ?_
  · rintro w _ ⟨first, j, rfl⟩
    have inner := ((first.result free).1.isTerm free).inPlace (x := x) freeBody
    have still : (s.recount s.depth j).Vacant c := vacant.of_contents rfl rfl rfl
    exact (still.comesTo inner).mono fun o t both => ⟨.body first both.1, both.2⟩
  · rintro h t ⟨first, same⟩
    exact ⟨.fails first, same⟩

theorem withScope_eq (vacant : s.Vacant c) (value : IsTerm V v) (term : IsTerm W body) (head : ¬ W.head x) (e : Value) :
    Scope.withScope (evaluate fuel) c e [ofItems [call "Set" [sym x, v]], body] s =
      inPlace (evaluate fuel) c x v body s := by
  have comes : Reaches (evaluate fuel c v s) _ := vacant.comesTo value
  cases ran : evaluate fuel c v s with
  | error h t =>
    rw [inPlace, bind_of_error ran]
    have table : Scope.constants (evaluate fuel) c [] [.initial (sym x) v] s = .error h t := bind_of_error ran
    exact bind_of_error table
  | ok w t =>
    rw [ran, reaches_ok] at comes
    have free : IsTerm .all v := value.widen (fun _ _ => trivial) fun _ _ => trivial
    have result := (comes.1.result free).1.isTerm free
    have table : Scope.constants (evaluate fuel) c [] [.initial (sym x) v] s = .ok [(sym x, w)] t := bind_of_ok ran
    have placed : (Step.ofExcept (body.substituteTable false [(sym x, w)]) : Eval Value) t =
        .ok (body.instantiate (assigning x w)) t := Step.ofExcept_ok.2 ⟨substituteTable_term term head result, rfl⟩
    rw [inPlace, bind_of_ok ran]
    exact (bind_of_ok table).trans (bind_of_ok placed)

theorem moduleScope_reaches (vacant : s.Vacant c) (value : IsTerm V v) (term : IsTerm W body) (head : ¬ W.head x)
    (new : V.Lacks (x ++ Nat.repr s.nextSymbol)) (newBody : W.Lacks (x ++ Nat.repr s.nextSymbol)) (e : Value) :
    Reaches (Scope.moduleScope (evaluate fuel) c e [ofItems [call "Set" [sym x, v]], body] s)
      (Concluded c x v body) := by
  generalize fresh : x ++ Nat.repr s.nextSymbol = g at new newBody
  have made : Scope.freshFor (sym x) s = .ok (sym g) (s.generate x).2 := by
    rw [← fresh]
    rfl
  have table : Reaches (Scope.rename (evaluate fuel) c [] [.initial (sym x) v] s) fun o u =>
      (∃ h, ComesTo v (.error h) ∧ o = .error h ∧ u.Vacant c) ∨
        ∃ w, ∃ comes : ComesTo v (.ok w), o = .ok [(sym x, sym g)] ∧
          u.Assigns c (.single g ((comes.result value).1.isTerm value) new (comes.result value).2) := by
    have still : (s.generate x).2.Vacant c := vacant.of_contents rfl rfl rfl
    rw [Scope.rename, bind_of_ok made]
    refine (still.comesTo value).bind ?_ ?_
    · rintro w _ ⟨comes, j, rfl⟩
      have later : ((s.generate x).2.recount (s.generate x).2.depth j).Vacant c := vacant.of_contents rfl rfl rfl
      exact reaches_ok.2 (.inr ⟨w, comes, rfl, later.define _ _ _⟩)
    · rintro h _ ⟨comes, j, rfl⟩
      exact .inl ⟨h, comes, rfl, vacant.of_contents rfl rfl rfl⟩
  refine table.bind ?_ ?_
  · rintro _ u (⟨h, _, ⟨⟩, _⟩ | ⟨w, comes, ⟨⟩, assigns⟩)
    have renamed : (Step.ofExcept (body.substituteTable false [(sym x, sym g)]) : Eval Value) u =
        .ok (body.instantiate (assigning x (sym g))) u :=
      Step.ofExcept_ok.2 ⟨substituteTable_term term head (.atom trivial), rfl⟩
    rw [bind_of_ok renamed]
    have inner : IsTerm (Valuation.single g ((comes.result value).1.isTerm value) new (comes.result value).2).admitted
        (body.instantiate (assigning x (sym g))) :=
      term.instantiate (fun _ _ => (IsTerm.atom trivial).assigned fun _ => trivial) fun _ => newBody.head_unassigned w
    refine (evaluate_interprets assigns fuel u.depth u.iterations _ inner).mono ?_
    rintro o _ ⟨rest, j, rfl⟩
    have same : (body.instantiate (assigning x (sym g))).instantiate (assigning g w) =
      body.instantiate (assigning x w) := instantiate_renamed term newBody
    refine ⟨.body comes (same ▸ rest), _, assigns.of_contents rfl rfl rfl, ?_, ?_⟩
    · exact value.widen (fun _ => new.atom_unassigned w) fun _ => new.head_unassigned w
    · exact term.widen (fun _ => newBody.atom_unassigned w) fun _ => newBody.head_unassigned w
  · rintro _ u (⟨h, comes, ⟨⟩, still⟩ | ⟨w, _, ⟨⟩, _⟩)
    exact .of_vacant (.fails comes) still value term

/-- The variable is defined as the value in the new context. The list that it had before is noted. -/
theorem shadow_reaches {inner : ContextId} (vacant : s.Vacant c) (child : s.Vacant inner) (below : c < inner)
    (value : IsTerm V v) (lacks : V.Lacks x) :
    Reaches (Scope.shadow (evaluate fuel) c inner [] [.initial (sym x) v] s) fun o t =>
      t.Vacant c ∧ ((∃ h, ComesTo v (.error h) ∧ o = .error h) ∨
        ∃ w l, ∃ comes : ComesTo v (.ok w), o = .ok [(sym x, l)] ∧ t.lists[l]? = some [] ∧
          t.Assigns inner (.single x ((comes.result value).1.isTerm value) lacks (comes.result value).2)) := by
  rw [Scope.shadow]
  refine (vacant.comesTo value).bind ?_ ?_
  · rintro w _ ⟨comes, j, rfl⟩
    have later : (s.recount s.depth j).Vacant c := vacant.of_contents rfl rfl rfl
    have childLater : (s.recount s.depth j).Vacant inner := child.of_contents rfl rfl rfl
    obtain ⟨l, u, noted, blank, remains⟩ := later.ownList x
    rw [bind_of_ok noted]
    refine reaches_ok.2 ⟨(remains c later).define_after below .., .inr ⟨w, l, comes, rfl, ?_, ?_⟩⟩
    · exact lists_newList blank _
    · exact (remains inner childLater).define _ _ _
  · rintro h _ ⟨comes, j, rfl⟩
    exact ⟨vacant.of_contents rfl rfl rfl, .inl ⟨h, comes, rfl⟩⟩

/-- The third construct gives the value to the variable in a context of its own. -/
theorem blockScope_reaches (vacant : s.Vacant c) (value : IsTerm V v) (term : IsTerm W body) (lacks : V.Lacks x)
    (head : ¬ W.head x) (e : Value) :
    Reaches (Scope.blockScope (evaluate fuel) c e [ofItems [call "Set" [sym x, v]], body] s)
      (Concluded c x v body) := by
  obtain ⟨old, child⟩ := vacant.newContext "Block"
  show Reaches ((Scope.shadow (evaluate fuel) c s.contexts.size [] [.initial (sym x) v] >>= fun saved =>
    Scope.inside s.contexts.size (evaluate fuel s.contexts.size body) >>= fun r =>
    modify (fun s => saved.foldl (fun s p => s.updateContext c fun ctx => ctx.setList p.1 .own p.2) s) >>= fun _ =>
    pure r) (s.newContext "Block" (some c)).2) _
  refine (shadow_reaches old child vacant.here value lacks).bind ?_ ?_
  · rintro _ u ⟨outer, ⟨h, _, ⟨⟩⟩ | ⟨w, l, comes, ⟨⟩, blank, assigns⟩⟩
    have inner : IsTerm (Valuation.single x ((comes.result value).1.isTerm value) lacks (comes.result value).2).admitted
        body := term.widen (fun _ _ => trivial) fun f known => assigning_none.2 fun same => head (same ▸ known)
    have within : Reaches (Scope.inside s.contexts.size (evaluate fuel s.contexts.size body) u) fun o t =>
        ScopeComesTo x v body o ∧ t.Vacant c ∧ t.lists[l]? = some [] := by
      rw [inside_eq, reaches_ending]
      refine (evaluate_interprets (s := u.pushed s.contexts.size) (assigns.of_contents rfl rfl rfl) fuel u.depth
        u.iterations body inner).mono ?_
      rintro o _ ⟨rest, j, rfl⟩
      exact ⟨.body comes rest, outer.of_contents rfl rfl rfl, blank⟩
    refine within.bind ?_ ?_
    · rintro r t ⟨result, still, empty⟩
      exact reaches_ok.2 (.of_vacant result (still.setList x .own empty) value term)
    · rintro h t ⟨result, still, _⟩
      exact .of_vacant result still value term
  · rintro _ u ⟨outer, ⟨h, comes, ⟨⟩⟩ | ⟨w, l, comes, ⟨⟩, _⟩⟩
    exact .of_vacant (.fails comes) outer value term

/-- What is not cut off one level deeper is not cut off here either. -/
theorem inPlace_entered : Reaches (inPlace (evaluate fuel) c x v body s.entered) fun o _ =>
    verdict? (inPlace (evaluate fuel) c x v body s) = some o := by
  have eases : Eases (inPlace (evaluate fuel) c x v body) :=
    (evaluate_eases fuel c v).bind fun w => evaluate_eases fuel c _
  have higher : ∀ t, Roomier t s.entered → Reaches (inPlace (evaluate fuel) c x v body s.entered) fun o _ =>
      verdict? (inPlace (evaluate fuel) c x v body t) = some o := by
    intro t roomier o come
    obtain ⟨u, -, ran⟩ := eases s.entered t roomier o come
    rw [ran]
    exact verdict_ended come u
  by_cases outer : s.depth = 0
  · -- Outside of all evaluation the count so far plays no part.
    cases fuel with
    | zero => exact reaches_outOfFuel
    | succ fuel =>
      have again : evaluate (fuel + 1) c v (s.recount 0 0) = evaluate (fuel + 1) c v s := by
        simp [evaluate, deeper_eq, entered, Session.recount, outer]
      have same : inPlace (evaluate (fuel + 1)) c x v body (s.recount 0 0) =
          inPlace (evaluate (fuel + 1)) c x v body s := by
        simp only [inPlace, bind, EStateM.bind, again]
      rw [← same]
      exact higher _ ⟨0, Nat.zero_le _, 0, Nat.zero_le _, rfl⟩
  · refine higher s ⟨s.depth, Nat.le_succ _, s.iterations, ?_, rfl⟩
    simp [entered, outer]

end Constructs

/-- On terms the three constructs come to the same, unless one of them is cut off: to what the initial value and
then the body, with the value in place of the variable, come to. These two need one unit of fuel less, as they
are evaluated inside of each construct. -/
theorem evaluate_scopes {V W : Vocabulary} {fuel : Nat} {c : ContextId} {s : Session} {x : String} {v body : Value}
    (vacant : s.Vacant c) (value : IsTerm V v) (term : IsTerm W body) (lacks : V.Lacks x) (head : ¬ W.head x)
    (new : V.Lacks (x ++ Nat.repr s.nextSymbol)) (newBody : W.Lacks (x ++ Nat.repr s.nextSymbol))
    (finished : ∀ op : ScopeOp, (Step.verdict? (evaluate (fuel + 1) c (op.apply x v body) s)).isSome) :
    ∃ o, (∀ op : ScopeOp, Step.verdict? (evaluate (fuel + 1) c (op.apply x v body) s) = some o) ∧
      Step.verdict? (inPlace (evaluate fuel) c x v body s) = some o := by
  have inner : s.entered.Vacant c := vacant.of_contents rfl rfl rfl
  have constant : Step.Reaches (evaluate (fuel + 1) c (ScopeOp.constant.apply x v body) s) fun o _ =>
      ScopeComesTo x v body o ∧ Step.verdict? (inPlace (evaluate fuel) c x v body s) = some o := by
    refine evaluate_scope .constant vacant value term ?_
    rw [ScopeOp.run, withScope_eq inner value term head]
    intro o come
    obtain ⟨comes, j, same⟩ := inPlace_reaches inner value term o come
    refine ⟨⟨comes, inPlace_entered o come⟩, .of_vacant comes ?_ value term⟩
    rw [← same]
    exact inner.of_contents rfl rfl rfl
  have each : ∀ op : ScopeOp, Step.Reaches (evaluate (fuel + 1) c (op.apply x v body) s) fun o _ =>
      ScopeComesTo x v body o := by
    intro op
    cases op with
    | constant => exact constant.mono fun o t both => both.1
    | newSymbol =>
      refine evaluate_scope .newSymbol vacant value term ?_
      refine Step.Reaches.mono ?_ fun o t done => ⟨done.1, done⟩
      exact moduleScope_reaches inner value term head new newBody (ScopeOp.newSymbol.apply x v body)
    | newContext =>
      refine evaluate_scope .newContext vacant value term ?_
      refine Step.Reaches.mono ?_ fun o t done => ⟨done.1, done⟩
      exact blockScope_reaches inner value term lacks head (ScopeOp.newContext.apply x v body)
  obtain ⟨o, come⟩ := Option.isSome_iff_exists.1 (finished .constant)
  obtain ⟨comes, direct⟩ := constant o come
  refine ⟨o, fun op => ?_, direct⟩
  obtain ⟨p, other⟩ := Option.isSome_iff_exists.1 (finished op)
  rw [other, comes.unique (each op p other)]

/-- The value of the variable is a sum, which is flattened, sorted and cancelled in different terms of the body. -/
theorem evaluate_scopes_sum :
    ∃ o, (∀ op : ScopeOp, Step.verdict? (evaluate 12 globalId (op.apply "x" (call "Plus" [sym "y", int 2, int 3])
        (call "Plus" [sym "x", call "f" [call "Times" [sym "x", int 1]], call "Subtract" [sym "x", int 5]])) initial) =
          some o) ∧
      Step.verdict? (inPlace (evaluate 11) globalId "x" (call "Plus" [sym "y", int 2, int 3])
        (call "Plus" [sym "x", call "f" [call "Times" [sym "x", int 1]], call "Subtract" [sym "x", int 5]]) initial) =
          some o := by
  let V : Vocabulary := ⟨(· = "y"), (· ∈ ["Plus", "Times"]), by rintro (_ | _) <;> decide⟩
  let W : Vocabulary := ⟨(· ∈ ["x", "y"]), (· ∈ ["Plus", "Times", "Subtract", "f"]), by rintro (_ | _) <;> decide⟩
  have value : IsTerm V (call "Plus" [sym "y", int 2, int 3]) := by
    refine .apply (V.ring .plus) (.ring .plus _) ?_
    simp only [List.forall_mem_cons]
    exact ⟨.atom rfl, .integer 2, .integer 3, by simp⟩
  have known : IsTerm W (sym "x") := .atom (by decide)
  have free : Uninterpreted "f" := ⟨by decide, by decide, by decide⟩
  have product : IsTerm W (call "Times" [sym "x", int 1]) := by
    refine .apply (W.ring .times) (.ring .times _) ?_
    simp only [List.forall_mem_cons]
    exact ⟨known, .integer 1, by simp⟩
  have applied : IsTerm W (call "f" [call "Times" [sym "x", int 1]]) :=
    .apply (by decide) (.free _ free) (by simpa using product)
  have difference : IsTerm W (call "Subtract" [sym "x", int 5]) := by
    refine .apply (by decide) (.subtract _ _) ?_
    simp only [List.forall_mem_cons]
    exact ⟨known, .integer 5, by simp⟩
  have term : IsTerm W (call "Plus" [sym "x", call "f" [call "Times" [sym "x", int 1]],
      call "Subtract" [sym "x", int 5]]) := by
    refine .apply (W.ring .plus) (.ring .plus _) ?_
    simp only [List.forall_mem_cons]
    exact ⟨known, applied, difference, by simp⟩
  refine evaluate_scopes initial_vacant value term ⟨by decide, by decide⟩ (by decide) ⟨by decide, by decide⟩
    ⟨by decide, by decide⟩ fun op => ?_
  cases op <;> decide +kernel

end Symbolic
