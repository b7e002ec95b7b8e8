import Symbolic.Proofs.Evaluation.Firing
import Symbolic.Proofs.Evaluation.Outcome
import Symbolic.Proofs.Evaluation.Room

/-!
Terms in a context that gives values to some symbols. What a term comes to by itself is said
by a relation, which knows of no session, limit or fuel, and by which a term comes to one thing
only. Main statement: what evaluation comes to in the context is what the term with the values in
place of the symbols comes to by itself.
-/
namespace Symbolic

open Value Session

/-! ### What a term comes to by itself -/

/-- What is done on a call after its arguments: it comes to something, or something new takes its place. -/
def conclude (f : String) (args : Except Error (List Value)) : Except Error Value ⊕ Value :=
  match args >>= fun as => arrange (markings f) (call f as) with
  | .error h => .inl (.error h)
  | .ok e => match fold f e.args with
    | .error h => .inl (.error h)
    | .ok q => if q.differs e then .inr q else .inl (.ok e)

mutual

inductive ComesTo : Value → Except Error Value → Prop
  | integer (n : Int) : ComesTo (int n) (.ok (int n))
  | atom (x : String) : ComesTo (sym x) (.ok (sym x))
  | ends {f : String} {as : List Value} {args : Except Error (List Value)} {o : Except Error Value}
    (each : AllCome as args) (last : conclude f args = .inl o) : ComesTo (call f as) o
  | goesOn {f : String} {as : List Value} {args : Except Error (List Value)} {q : Value} {o : Except Error Value}
    (each : AllCome as args) (new : conclude f args = .inr q) (rest : ComesTo q o) : ComesTo (call f as) o

/-- A row of terms comes to its values, or to its first failure. -/
inductive AllCome : List Value → Except Error (List Value) → Prop
  | nil : AllCome [] (.ok [])
  | fails {a : Value} {as : List Value} {h : Error} (here : ComesTo a (.error h)) : AllCome (a :: as) (.error h)
  | cons {a b : Value} {as : List Value} {args : Except Error (List Value)} (here : ComesTo a (.ok b))
    (rest : AllCome as args) : AllCome (a :: as) (args.map (b :: ·))

end

theorem ComesTo.unique {v : Value} {o p : Except Error Value} (first : ComesTo v o) (second : ComesTo v p) : o = p := by
  refine @ComesTo.rec (fun v o _ => ∀ p, ComesTo v p → o = p) (fun as x _ => ∀ y, AllCome as y → x = y)
    ?integer ?atom ?ends ?goesOn ?nil ?fails ?cons v o first p second
  case integer =>
    rintro n p ⟨⟩
    rfl
  case atom =>
    rintro x p ⟨⟩
    rfl
  case nil =>
    rintro y ⟨⟩
    rfl
  case ends =>
    rintro f as args o _ last same p (_ | _ | ⟨others, final⟩ | ⟨others, new, _⟩)
    · cases same _ others
      exact Sum.inl.inj (last.symm.trans final)
    · cases same _ others
      cases last.symm.trans new
  case goesOn =>
    rintro f as args q o _ new _ same again p (_ | _ | ⟨others, final⟩ | ⟨others, other, rest⟩)
    · cases same _ others
      cases new.symm.trans final
    · cases same _ others
      cases new.symm.trans other
      exact again p rest
  case fails =>
    rintro a as h _ same y (_ | there | ⟨there, _⟩)
    · rw [Except.error.inj (same _ there)]
    · cases same _ there
  case cons =>
    rintro a b as args _ _ same rest y (_ | there | ⟨there, others⟩)
    · cases same _ there
    · cases same _ there
      rw [rest _ others]

section Results

variable {V : Vocabulary} {f : String} {as : List Value}

theorem conclude_unarranged {h : Error} (arranged : arrange (markings f) (call f as) = .error h) :
    conclude f (.ok as) = .inl (.error h) := by
  simp only [conclude, bind, Except.bind, arranged]

theorem conclude_unfolded {bs : List Value} {h : Error} (arranged : arrange (markings f) (call f as) = .ok (call f bs))
    (folded : fold f bs = .error h) : conclude f (.ok as) = .inl (.error h) := by
  simp only [conclude, bind, Except.bind, arranged, args, folded]

theorem conclude_folded {bs : List Value} {q : Value} (arranged : arrange (markings f) (call f as) = .ok (call f bs))
    (folded : fold f bs = .ok q) :
    conclude f (.ok as) = if q.differs (call f bs) then .inr q else .inl (.ok (call f bs)) := by
  simp only [conclude, bind, Except.bind, arranged, args, folded]

/-- Unless it fails, what is done on a call of terms is to arrange it and to run its builtin. -/
theorem conclude_cases (term : IsTerm V (call f as)) :
    (∃ h, conclude f (.ok as) = .inl (.error h)) ∨
      ∃ bs q, arrange (markings f) (call f as) = .ok (call f bs) ∧ fold f bs = .ok q := by
  cases arranged : arrange (markings f) (call f as) with
  | error h => exact .inl ⟨h, conclude_unarranged arranged⟩
  | ok w =>
    obtain ⟨bs, rfl, -⟩ := arrange_ok term arranged
    cases folded : fold f bs with
    | error h => exact .inl ⟨h, conclude_unfolded arranged folded⟩
    | ok q => exact .inr ⟨bs, q, rfl, folded⟩

/-- If there is nothing new, the call, arranged, is its own value. -/
theorem conclude_settled (term : IsTerm V (call f as)) (stable : ∀ a ∈ as, Stable a) {e : Value}
    (last : conclude f (.ok as) = .inl (.ok e)) : Rewrites (call f as) e ∧ Stable e := by
  obtain ⟨h, failed⟩ | ⟨bs, q, arranged, folded⟩ := conclude_cases term
  · cases failed.symm.trans last
  · obtain ⟨_, ⟨⟩, rewrites, again, inherited⟩ := arrange_ok term arranged
    have inner := rewrites.isTerm term
    have built := (Rewrites.fold inner folded).isTerm inner
    rw [conclude_folded arranged folded] at last
    split at last
    · cases last
    · next same =>
      cases last
      rw [Bool.not_eq_true, differs_eq_false_iff built.isExact inner.isExact] at same
      subst same
      exact ⟨rewrites, .apply (inherited _ (fun k ds t whole b => whole.arg) stable) again folded⟩

theorem conclude_new (term : IsTerm V (call f as)) {q : Value} (new : conclude f (.ok as) = .inr q) :
    Rewrites (call f as) q := by
  obtain ⟨h, failed⟩ | ⟨bs, r, arranged, folded⟩ := conclude_cases term
  · cases failed.symm.trans new
  · obtain ⟨_, ⟨⟩, rewrites, -⟩ := arrange_ok term arranged
    rw [conclude_folded arranged folded] at new
    split at new
    · cases new
      exact rewrites.trans (Rewrites.fold (rewrites.isTerm term) folded)
    · cases new

/-- What a term comes to follows from it by the laws of arithmetic, and nothing is left to do on it. -/
theorem ComesTo.result {v r : Value} (comes : ComesTo v (.ok r)) (term : IsTerm V v) : Rewrites v r ∧ Stable r := by
  refine @ComesTo.rec (fun v o _ => IsTerm V v → ∀ r, o = .ok r → Rewrites v r ∧ Stable r)
    (fun as x _ => (∀ a ∈ as, IsTerm V a) → ∀ bs, x = .ok bs →
      List.Forall₂ (fun a b => Rewrites a b ∧ Stable b) as bs)
    ?integer ?atom ?ends ?goesOn ?nil ?fails ?cons v _ comes term r rfl
  case integer =>
    rintro n _ r ⟨⟩
    exact ⟨.refl _, .integer n⟩
  case atom =>
    rintro x _ r ⟨⟩
    exact ⟨.refl _, .atom x⟩
  case ends =>
    rintro f as args o _ last values term r rfl
    cases args with
    | error h => cases last
    | ok bs =>
      have related := values (fun a => term.arg) bs rfl
      have inner : Rewrites (call f as) (call f bs) := .args (related.imp fun a b both => both.1)
      have stable : ∀ b ∈ bs, Stable b := by
        intro b member
        obtain ⟨a, _, both⟩ := exists_of_forall₂ related member
        exact both.2
      obtain ⟨rewrites, settled⟩ := conclude_settled (inner.isTerm term) stable last
      exact ⟨inner.trans rewrites, settled⟩
  case goesOn =>
    rintro f as args q o _ new _ values again term r rfl
    cases args with
    | error h => cases new
    | ok bs =>
      have related := values (fun a => term.arg) bs rfl
      have inner : Rewrites (call f as) (call f bs) := .args (related.imp fun a b both => both.1)
      have first := inner.trans (conclude_new (inner.isTerm term) new)
      obtain ⟨rewrites, settled⟩ := again (first.isTerm term) r rfl
      exact ⟨first.trans rewrites, settled⟩
  case nil =>
    rintro _ bs ⟨⟩
    exact .nil
  case fails =>
    rintro a as h _ _ _ bs ⟨⟩
  case cons =>
    rintro a b as args _ _ here rest terms cs whole
    cases args with
    | error h => cases whole
    | ok bs =>
      cases whole
      exact .cons (here (terms a (by simp)) b rfl) (rest (fun a member => terms a (by simp [member])) bs rfl)

theorem AllCome.result {bs : List Value} (row : AllCome as (.ok bs)) (terms : ∀ a ∈ as, IsTerm V a) :
    List.Forall₂ (fun a b => Rewrites a b ∧ Stable b) as bs := by
  induction as generalizing bs with
  | nil =>
    cases row
    exact .nil
  | cons a as ih =>
    obtain ⟨here, others⟩ := List.forall_mem_cons.1 terms
    generalize whole : (Except.ok bs : Except Error (List Value)) = o at row
    cases row with
    | fails => cases whole
    | @cons _ b _ args first rest =>
      cases args with
      | error h => cases whole
      | ok cs =>
        cases whole
        exact .cons (first.result here) (ih rest others)

theorem Stable.comesTo {v : Value} (stable : Stable v) (term : IsTerm V v) : ComesTo v (.ok v) := by
  induction stable with
  | integer n => exact .integer n
  | atom x => exact .atom x
  | @apply f as _ arranged folded ih =>
    have row : ∀ bs : List Value, (∀ b ∈ bs, ComesTo b (.ok b)) → AllCome bs (.ok bs) := by
      intro bs each
      induction bs with
      | nil => exact .nil
      | cons b bs ih => exact .cons (each b (by simp)) (ih fun c member => each c (by simp [member]))
    refine .ends (row as fun a member => ih a member (term.arg member)) ?_
    have same : (call f as).differs (call f as) = false := differs_self rfl
    rw [conclude_folded arranged folded, same]
    rfl

end Results

/-! ### Values in place of symbols -/

namespace Value

mutual

/-- A value with others in place of some symbols. Heads stay. -/
def instantiate (value? : String → Option Value) : Value → Value
  | .symbol s => (value? s.name).getD (.symbol s)
  | .expr h as t => .expr h (instantiateAll value? as) t
  | v => v

def instantiateAll (value? : String → Option Value) : List Value → List Value
  | [] => []
  | v :: vs => instantiate value? v :: instantiateAll value? vs

end

theorem instantiateAll_eq (value? : String → Option Value) (vs : List Value) :
    instantiateAll value? vs = vs.map (instantiate value?) := by
  induction vs with
  | nil => rfl
  | cons v vs ih => rw [instantiateAll, ih, List.map_cons]

@[simp] theorem instantiate_sym (value? : String → Option Value) (x : String) :
    (sym x).instantiate value? = (value? x).getD (sym x) := by
  simp [sym, instantiate]

@[simp] theorem instantiate_int (value? : String → Option Value) (n : Int) : (int n).instantiate value? = int n := by
  simp [int, instantiate]

@[simp] theorem instantiate_call (value? : String → Option Value) (f : String) (as : List Value) :
    (call f as).instantiate value? = call f (as.map (instantiate value?)) := by
  simp [call, instantiate, instantiateAll_eq]

end Value

theorem Legal.map {f : String} {as : List Value} (legal : Legal f as) {g : Value → Value}
    (integer : ∀ n, g (int n) = int n) : Legal f (as.map g) := by
  cases legal with
  | ring op as => exact .ring op _
  | minus a => exact .minus _
  | subtract a b => exact .subtract _ _
  | abs a => exact .abs _
  | @power a n positive =>
    rw [List.map_cons, List.map_cons, integer n]
    exact .power _ positive
  | free as free => exact .free _ free

theorem IsTerm.widen {V W : Vocabulary} {v : Value} (term : IsTerm V v) (atoms : ∀ x, V.atom x → W.atom x)
    (heads : ∀ f, V.head f → W.head f) : IsTerm W v := by
  induction term with
  | integer n => exact .integer n
  | atom known => exact .atom (atoms _ known)
  | apply head legal _ ih => exact .apply (heads _ head) legal ih

theorem IsTerm.instantiate {V W : Vocabulary} {v : Value} (term : IsTerm V v) {value? : String → Option Value}
    (atoms : ∀ x, V.atom x → IsTerm W ((value? x).getD (sym x))) (heads : ∀ f, V.head f → W.head f) :
    IsTerm W (v.instantiate value?) := by
  induction term with
  | integer n => simpa using IsTerm.integer n
  | atom known => simpa using atoms _ known
  | @apply f as head legal _ ih =>
    rw [instantiate_call]
    refine .apply (heads f head) (legal.map fun n => instantiate_int _ n) fun b member => ?_
    obtain ⟨a, inside, rfl⟩ := List.mem_map.1 member
    exact ih a inside

/-- Values for some symbols. In a value no symbol occurs that has one, and nothing is left to do on it. -/
structure Valuation where
  value? : String → Option Value
  ring : ∀ op : RingOp, value? op.name = none
  term : ∀ {x w}, value? x = some w → IsTerm ⟨fun y => value? y = none, fun y => value? y = none, ring⟩ w
  stable : ∀ {x w}, value? x = some w → Stable w

namespace Valuation

variable (ρ : Valuation)

def unbound : Vocabulary := ⟨fun x => ρ.value? x = none, fun f => ρ.value? f = none, ρ.ring⟩

/-- All names, but as heads only those that have no value. -/
def admitted : Vocabulary := ⟨fun _ => True, fun f => ρ.value? f = none, ρ.ring⟩

def nothing : Valuation where
  value? _ := none
  ring _ := rfl
  term found := nomatch found
  stable found := nomatch found

variable {ρ} {v : Value}

theorem isTerm_instantiate (term : IsTerm ρ.admitted v) : IsTerm ρ.unbound (v.instantiate ρ.value?) := by
  refine term.instantiate (fun x _ => ?_) fun f free => free
  cases found : ρ.value? x with
  | none => exact .atom found
  | some w => exact ρ.term found

theorem instantiate_unbound (term : IsTerm ρ.unbound v) : v.instantiate ρ.value? = v := by
  induction term with
  | integer n => exact instantiate_int _ n
  | @atom x free =>
    have none : ρ.value? x = none := free
    rw [instantiate_sym, none]
    rfl
  | @apply f as _ _ _ ih =>
    rw [instantiate_call, List.map_congr_left ih, List.map_id']

theorem unbound_admitted (term : IsTerm ρ.unbound v) : IsTerm ρ.admitted v :=
  term.widen (fun _ _ => trivial) fun _ free => free

end Valuation

/-! ### Evaluation where some symbols have values -/

namespace Session

/-- In a context of the session symbols have these values, and nothing else is defined. -/
structure Assigns (s : Session) (c : ContextId) (ρ : Valuation) : Prop where
  standard : s.registry = Builtin.standard
  assigned : ∀ {x w}, ρ.value? x = some w →
    ∃ l, s.definitions? c (sym x) .own = some l ∧ s.definitionsOf l = [⟨sym x, w, .null⟩]
  undefined : ∀ {x k l}, (k = .own → ρ.value? x = none) → s.definitions? c (sym x) k = some l →
    s.definitionsOf l = []
  unmarked : ∀ x, s.attributesOf c (sym x) = []

variable {s t : Session} {c : ContextId} {ρ : Valuation}

theorem Assigns.of_contents (assigns : s.Assigns c ρ) (registry : t.registry = s.registry)
    (contexts : t.contexts = s.contexts) (lists : t.lists = s.lists) : t.Assigns c ρ where
  standard := registry.trans assigns.standard
  assigned found := by
    obtain ⟨l, there, holds⟩ := assigns.assigned found
    exact ⟨l, (nearest_congr contexts _ c).trans there, by rwa [definitionsOf, lists]⟩
  undefined free found := by
    rw [definitionsOf, lists]
    exact assigns.undefined free ((nearest_congr contexts.symm _ c).trans found)
  unmarked x := by
    rw [attributesOf, nearest_congr contexts]
    exact assigns.unmarked x

end Session

section Parts

open Step

variable {ρ : Valuation} {ev : Evaluator} {fuel : Nat} {c : ContextId} {s : Session} (assigns : s.Assigns c ρ)

include assigns

theorem applyDefinitions_nothing {k : DefinitionKind} {x : String} {e : Value} (free : k = .own → ρ.value? x = none) :
    Reaches (applyDefinitions ev fuel c k (sym x) e s) fun o t => o = .ok none ∧ s = t := by
  rw [applyDefinitions, bind_get]
  cases found : s.definitions? c (sym x) k with
  | none => exact reaches_ok.2 ⟨rfl, rfl⟩
  | some l =>
    cases fuel with
    | zero => exact reaches_outOfFuel
    | succ fuel =>
      simp only
      rw [applyFrom_empty (assigns.undefined free found)]
      exact reaches_ok.2 ⟨rfl, rfl⟩

theorem evaluateSymbol_unbound {x : String} (free : ρ.value? x = none) :
    Reaches (evaluateSymbol ev fuel c (sym x) s) fun o t => o = .ok (sym x) ∧ s = t := by
  refine (applyDefinitions_nothing assigns fun _ => free).bind ?_ ?_
  · rintro _ _ ⟨⟨⟩, rfl⟩
    exact reaches_ok.2 ⟨rfl, rfl⟩
  · rintro e t ⟨⟨⟩, _⟩

theorem evaluateSymbol_assigned {x : String} {w : Value} (found : ρ.value? x = some w)
    {P : Except Error Value → Session → Prop} (value : Reaches (ev c w s) P) :
    Reaches (evaluateSymbol ev fuel c (sym x) s) P := by
  obtain ⟨l, there, holds⟩ := assigns.assigned found
  cases fuel with
  | zero =>
    have stopped : applyDefinitions ev 0 c .own (sym x) (sym x) s = .error .outOfFuel s := by
      rw [applyDefinitions, bind_get, there]
      rfl
    rw [evaluateSymbol, bind_of_error stopped]
    exact reaches_outOfFuel
  | succ fuel =>
    rw [evaluateSymbol_own there holds]
    exact value

theorem firstChange_nothing {e : Value} {places : List (DefinitionKind × Value)}
    (others : ∀ p ∈ places, p.1 ≠ .own ∧ ∃ x, p.2 = sym x) :
    Reaches (firstChange ev fuel c e places s) fun o t => o = .ok none ∧ s = t := by
  induction places with
  | nil => exact reaches_ok.2 ⟨rfl, rfl⟩
  | cons p places ih =>
    obtain ⟨⟨kind, x, named⟩, rest⟩ := List.forall_mem_cons.1 others
    obtain ⟨k, v⟩ := p
    obtain rfl : v = sym x := named
    refine (applyDefinitions_nothing assigns fun own => (kind own).elim).bind ?_ ?_
    · rintro _ _ ⟨⟨⟩, rfl⟩
      exact ih rest
    · rintro e t ⟨⟨⟩, _⟩

omit assigns in
/-- No value of a symbol is among the definitions that can apply to an expression. -/
theorem sources_other (e : Value) : ∀ p ∈ sources e, p.1 ≠ .own ∧ ∃ x, p.2 = sym x := by
  have subject : ∀ a v : Value, subject? a = some v → ∃ x, v = sym x := by
    intro a v found
    unfold subject? at found
    split at found <;> cases found <;> exact ⟨_, rfl⟩
  cases e with
  | expr h as t =>
    intro p member
    rcases List.mem_append.1 member with up | head
    · obtain ⟨a, -, found⟩ := List.mem_filterMap.1 up
      obtain ⟨v, there, rfl⟩ := Option.map_eq_some_iff.1 found
      exact ⟨by simp, subject a v there⟩
    · split at head
      · rw [List.mem_singleton.1 head]
        exact ⟨by simp, _, rfl⟩
      · rw [List.mem_singleton.1 head]
        exact ⟨by simp, _, rfl⟩
      · cases head
  | _ => exact fun p member => nomatch member

/-- A head without a value stays, and what the arguments come to takes their place. -/
theorem evaluateParts_reaches {f : String} {as : List Value} (free : ρ.value? f = none) (legal : Legal f as)
    {P : Except Error Value → Session → Prop}
    (row : Reaches (evaluateAll ev c as s) fun o t =>
      P (o.map fun bs => call f (if sameItems bs as then as else bs)) t) :
    Reaches (evaluateParts ev fuel c (markings f) (sym f) as ⟨[], List.Pairwise.nil⟩ s) P := by
  have complete := legal.holds_nothing Attribute.holdAllComplete (by decide)
  have unchanged : (sym f).differs (sym f) = false := differs_self rfl
  simp only [evaluateParts, complete, Bool.false_eq_true, if_false, legal.evaluateArgs_eq, evaluateHead]
  refine (evaluateSymbol_unbound assigns free).bind ?_ ?_
  · rintro _ _ ⟨⟨⟩, rfl⟩
    simp only [unchanged, Bool.false_eq_true, if_false, pure_bind]
    exact row.bind (fun bs t holds => reaches_ok.2 holds) fun e t holds => holds
  · rintro e t ⟨⟨⟩, _⟩

/-- Without lists to thread over, what is left is the builtin: its result is evaluated if it is
something new. -/
theorem evaluateArranged_reaches {V : Vocabulary} {f : String} {as : List Value} (term : IsTerm V (call f as))
    {P : Except Error Value → Session → Prop} (failed : ∀ h, fold f as = .error h → P (.error h) s)
    (kept : ∀ q, fold f as = .ok q → q.differs (call f as) = false → P (.ok (call f as)) s)
    (again : ∀ q, fold f as = .ok q → q.differs (call f as) = true → Reaches (ev c q s.counted) P) :
    Reaches (evaluateArranged ev fuel c (markings f) (call f as) s) P := by
  have unthreaded : (call f as).threadLists.differs (call f as) = false := by
    rw [threadLists_term term, differs_self rfl]
  have built : Reaches (replaceOnce ev fuel c (call f as) s) fun o t => o = fold f as ∧ s = t := by
    refine (firstChange_nothing assigns (sources_other _)).bind ?_ ?_
    · rintro _ _ ⟨⟨⟩, rfl⟩
      simp only [runBuiltin_eq assigns.standard term.legal]
      exact .ofExcept ⟨rfl, rfl⟩
    · rintro e t ⟨⟨⟩, _⟩
  simp only [evaluateArranged, unthreaded, Bool.and_false, Bool.false_eq_true, if_false]
  refine built.bind ?_ ?_
  · rintro q _ ⟨folded, rfl⟩
    split
    · next new =>
      refine (Reaches.count (P := fun o t => o = .ok () ∧ s.counted = t) ⟨rfl, rfl⟩).bind ?_ ?_
      · rintro _ _ ⟨_, rfl⟩
        exact again q folded.symm new
      · rintro e t ⟨⟨⟩, _⟩
    · next same => exact reaches_ok.2 (kept q folded.symm (Bool.not_eq_true _ ▸ same))
  · rintro h _ ⟨folded, rfl⟩
    exact failed h folded.symm

end Parts

/-- An evaluator by which a term comes to what it comes to with values in place of symbols, and which changes
nothing but the count of replacements. -/
def Session.Interprets (s : Session) (c : ContextId) (ρ : Valuation) (ev : Evaluator) : Prop :=
  ∀ d i v, IsTerm ρ.admitted v →
    Step.Reaches (ev c v (s.recount d i)) fun o t => ComesTo (v.instantiate ρ.value?) o ∧ ∃ j, s.recount d j = t

section Calls

open Step

variable {ρ : Valuation} {ev : Evaluator} {fuel d i : Nat} {c : ContextId} {s : Session} {f : String} {as : List Value}

theorem evaluateAll_interprets (interprets : s.Interprets c ρ ev) (terms : ∀ a ∈ as, IsTerm ρ.admitted a) :
    Reaches (evaluateAll ev c as (s.recount d i)) fun o t =>
      AllCome (as.map (instantiate ρ.value?)) o ∧ ∃ j, s.recount d j = t := by
  induction as generalizing i with
  | nil => exact reaches_ok.2 ⟨.nil, i, rfl⟩
  | cons a as ih =>
    obtain ⟨here, others⟩ := List.forall_mem_cons.1 terms
    refine (interprets d i a here).bind ?_ ?_
    · rintro b _ ⟨first, j, rfl⟩
      refine (ih others).bind ?_ ?_
      · rintro bs t ⟨rest, same⟩
        exact reaches_ok.2 ⟨.cons first rest, same⟩
      · rintro e t ⟨rest, same⟩
        exact ⟨.cons first rest, same⟩
    · rintro e t ⟨first, same⟩
      exact ⟨.fails first, same⟩

theorem evaluateWith_interprets (assigns : s.Assigns c ρ) (interprets : s.Interprets c ρ ev)
    (term : IsTerm ρ.admitted (call f as)) :
    Reaches (evaluateWith ev fuel c (call f as) (s.recount d i)) fun o t =>
      ComesTo ((call f as).instantiate ρ.value?) o ∧ ∃ j, s.recount d j = t := by
  have still : ∀ j, (s.recount d j).Assigns c ρ := fun j => assigns.of_contents rfl rfl rfl
  have whole := Valuation.isTerm_instantiate term
  rw [instantiate_call] at whole ⊢
  -- What the arguments come to are terms, so that it plays no part whether they replace identical ones.
  have parts : Reaches (evaluateParts ev fuel c (markings f) (sym f) as ⟨[], List.Pairwise.nil⟩ (s.recount d i))
      fun o t => ∃ args, AllCome (as.map (instantiate ρ.value?)) args ∧ o = args.map (call f) ∧
        ∃ j, s.recount d j = t := by
    refine evaluateParts_reaches (still i) term.head term.legal ?_
    refine (evaluateAll_interprets interprets fun a => term.arg).mono ?_
    rintro args t ⟨all, same⟩
    refine ⟨args, all, ?_, same⟩
    cases args with
    | error h => rfl
    | ok bs =>
      have related := all.result fun a => whole.arg
      have precise : ∀ b ∈ bs, b.isExact = true := by
        intro b member
        obtain ⟨a, inside, both⟩ := exists_of_forall₂ related member
        exact (both.1.isTerm (whole.arg inside)).isExact
      simp only [Except.map, ite_sameItems precise fun a member => (term.arg member).isExact]
  rw [evaluateWith_unmarked (still i).standard ((still i).unmarked f)]
  refine parts.bind ?_ ?_
  · rintro _ _ ⟨args, all, same, j, rfl⟩
    cases args with
    | error h => cases same
    | ok bs =>
      cases same
      have inner : IsTerm ρ.unbound (call f bs) :=
        (Rewrites.args ((all.result fun a => whole.arg).imp fun a b both => both.1)).isTerm whole
      refine (Reaches.ofExcept (P := fun o t => arrange (markings f) (call f bs) = o ∧ s.recount d j = t)
        ⟨rfl, rfl⟩).bind ?_ ?_
      · rintro _ _ ⟨arranged, rfl⟩
        obtain ⟨cs, rfl, sorted, -⟩ := arrange_ok inner arranged
        have settled := sorted.isTerm inner
        refine evaluateArranged_reaches (still j) settled ?_ ?_ ?_
        · exact fun h folded => ⟨.ends all (conclude_unfolded arranged folded), j, rfl⟩
        · intro q folded same
          refine ⟨.ends all ?_, j, rfl⟩
          rw [conclude_folded arranged folded, same]
          rfl
        · intro q folded new
          have next := (Rewrites.fold settled folded).isTerm settled
          refine (interprets d (j + 1) q (Valuation.unbound_admitted next)).mono ?_
          rintro o t ⟨rest, same⟩
          rw [Valuation.instantiate_unbound next] at rest
          refine ⟨.goesOn all ?_ rest, same⟩
          rw [conclude_folded arranged folded, if_pos new]
      · rintro h _ ⟨arranged, rfl⟩
        exact ⟨.ends all (conclude_unarranged arranged), j, rfl⟩
  · rintro h t ⟨args, all, same, rest⟩
    cases args with
    | ok bs => cases same
    | error h =>
      cases same
      exact ⟨.ends all rfl, rest⟩

end Calls

/-- What a term comes to in the context is what it comes to by itself with the values in place of the
symbols. -/
theorem evaluate_interprets {ρ : Valuation} {s : Session} {c : ContextId} (assigns : s.Assigns c ρ) (fuel : Nat) :
    s.Interprets c ρ (evaluate fuel) := by
  induction fuel with
  | zero => exact fun d i v term => Step.reaches_outOfFuel
  | succ fuel ih =>
    intro d i v term
    have still : ∀ i, (s.recount (d + 1) i).Assigns c ρ := fun i => assigns.of_contents rfl rfl rfl
    have nested : ∀ i, Step.Reaches (evaluateWith (evaluate fuel) fuel c v (s.recount (d + 1) i)) fun o t =>
        ComesTo (v.instantiate ρ.value?) o ∧ ∃ j, s.recount (d + 1) j = t := by
      intro i
      cases term with
      | integer n => exact Step.reaches_ok.2 ⟨by simpa using ComesTo.integer n, i, rfl⟩
      | @atom x _ =>
        rw [instantiate_sym]
        cases found : ρ.value? x with
        | none =>
          refine (evaluateSymbol_unbound (still i) found).mono ?_
          rintro _ _ ⟨rfl, rfl⟩
          exact ⟨.atom x, i, rfl⟩
        | some w =>
          have free := ρ.term found
          have value := ih (d + 1) i w (Valuation.unbound_admitted free)
          rw [Valuation.instantiate_unbound free] at value
          exact evaluateSymbol_assigned (still i) found value
      | apply head legal args => exact evaluateWith_interprets assigns ih (.apply head legal args)
    refine (Step.Reaches.deeper ((nested _).mono ?_))
    rintro o _ ⟨comes, j, rfl⟩
    exact ⟨comes, j, rfl⟩

end Symbolic
