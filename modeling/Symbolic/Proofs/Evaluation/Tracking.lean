import Symbolic.Proofs.Evaluation.Frame
import Symbolic.Proofs.Pattern.Elements

/-!
What can be said of evaluation from what is said of the evaluations it is made of. A regime says what is
asked along the way: which contexts are written to and, if it is strict, that values are elements, or else of the
foreign sorts that builtins make. A property of computations, or of families of computations that are compared with
each other, together with what is known of their results, tracks a regime if it is kept by sequencing and by the few steps
that touch a session. Main statement: if nested evaluations have such a property, so has every builtin
(`Tracks.operation`), and so has evaluation as a whole (`Tracks.evaluateWith`). What a property does to be fit for a
search through definitions, and for a loop without a bound, is left to it. The builtins are gone through here once.
-/
namespace Symbolic

open Value Session

def perform {α : Type} (f : Session → α × Session) : Eval α := fun s => .ok (f s).1 (f s).2

abbrev IsElement (v : Value) : Prop := v.isElement = true

structure Definition.IsMade (d : Definition) : Prop where
  pattern : d.pattern.isElement = true
  replacement : d.replacement.isElement = true
  condition : d.condition.isElement = true

/-! ### Tables of elements -/

namespace Context

/-- A written table has the new value, under a key that is the same, and otherwise what it had. -/
theorem mem_write {α : Type} {k : Value} {a : α} {es : List (Value × α)} {p : Value × α} (member : p ∈ write k a es) :
    p ∈ es ∨ p.2 = a ∧ ∀ y, p.1 = .symbol y → k = .symbol y := by
  induction es with
  | nil =>
    cases List.mem_singleton.1 member
    exact .inr ⟨rfl, fun y key => key⟩
  | cons e es ih =>
    obtain ⟨l, b⟩ := e
    rw [write] at member
    split at member
    · next same =>
      rcases List.mem_cons.1 member with rfl | later
      · exact .inr ⟨rfl, fun y key => same_symbol_iff.1 (key ▸ same)⟩
      · exact .inl (List.mem_cons_of_mem _ later)
    · rcases List.mem_cons.1 member with rfl | later
      · exact .inl List.mem_cons_self
      · exact (ih later).imp (List.mem_cons_of_mem _) id

end Context

theorem writeKey_eq_write (k v : Value) (es : List (Value × Value)) : writeKey k v es = Context.write k v es := by
  induction es with
  | nil => rfl
  | cons e es ih => simp only [writeKey, Context.write, ih]

abbrev TableMade (es : List (Value × Value)) : Prop := ∀ e ∈ es, e.2.isElement = true

theorem tableMade_write {k v : Value} {es : List (Value × Value)} (known : TableMade es) (value : v.isElement = true) :
    TableMade (writeKey k v es) := by
  intro e member
  rw [writeKey_eq_write] at member
  rcases (Context.mem_write member).symm with ⟨new, -⟩ | old
  · rwa [new]
  · exact known e old

def Scope.Local.IsMade : Scope.Local → Prop
  | .bare s => s.isElement = true
  | .initial target v => target.isElement = true ∧ v.isElement = true

theorem locals_made {spec : Value} (element : spec.isElement = true) : ∀ l ∈ Scope.locals spec, l.IsMade := by
  intro l member
  obtain ⟨item, place, read⟩ := List.mem_filterMap.1 member
  have inner : item.isElement = true := by
    cases found : spec.argsOf? "List" with
    | none =>
      rw [found] at place
      cases place
    | some xs =>
      rw [found] at place
      exact elements_argsOf element found item place
  unfold Scope.local? at read
  split at read
  · cases read
    exact inner
  · split at read
    · next target v found =>
      cases read
      have parts : Elements [target, v] := by
        rcases Option.or_eq_some_iff.1 found with set | ⟨_, rule⟩
        · exact elements_argsOf inner set
        · exact elements_argsOf inner rule
      exact ⟨(elements_cons.1 parts).1, (elements_cons.1 (elements_cons.1 parts).2).1⟩
    · cases read

/-- What is asked along an evaluation. All but the contexts is only asked if the regime is strict. -/
structure Regime where
  /-- Values are asked to be elements. -/
  strict : Prop
  context : ContextId → Prop
  session : Session → Prop
  /-- The lists of definitions that contexts hold. -/
  list : ListId → Prop
  operation : Operation → Prop
  /-- What builtins give besides elements. -/
  foreign : Value → Prop

namespace Regime

variable (D : Regime)

abbrev Fine (v : Value) : Prop := D.strict → v.isElement = true

abbrev FineAll (vs : List Value) : Prop := D.strict → Elements vs

/-- A builtin gives an element, or what is foreign. -/
def Gives (r : Value) : Prop := r.isElement = true ∨ D.foreign r

variable {D} {v w : Value} {vs : List Value}

theorem fineAll_cons : D.FineAll (v :: vs) ↔ D.Fine v ∧ D.FineAll vs :=
  (imp_congr_right fun _ => elements_cons).trans imp_and

theorem fineAll_pair : D.FineAll (v :: w :: vs) ↔ D.Fine v ∧ D.Fine w ∧ D.FineAll vs :=
  fineAll_cons.trans (and_congr_right' fineAll_cons)

end Regime

open Regime

variable {ι : Type}

/-- A property of families of computations, with what is known of their results, that goes along with a regime. -/
structure Tracks (D : Regime) (P : ∀ α : Type, (α → Prop) → (ι → Eval α) → Prop) : Prop where
  pure {α : Type} {Q : α → Prop} {a : α} (known : D.strict → Q a) : P α Q fun _ => Pure.pure a
  fail {α : Type} {Q : α → Prop} (e : Error) : P α Q fun _ => Step.fail e
  bind {α β : Type} {Q : α → Prop} {R : β → Prop} {m : ι → Eval α} {k : ι → α → Eval β} (first : P α Q m)
    (next : ∀ a, (D.strict → Q a) → P β R fun i => k i a) : P β R fun i => m i >>= k i
  /-- Going on by what the contents of the session are. -/
  read {α : Type} {Q : α → Prop} {k : ι → Session → Eval α} (same : ∀ i s f, k i (s.withFrame f) = k i s)
    (next : ∀ s, (D.strict → D.session s) → P α Q fun i => k i s) : P α Q fun i => get >>= k i
  count : P Unit (fun _ => True) fun _ => countReplacement
  inside {α : Type} {Q : α → Prop} {m : ι → Eval α} (c : ContextId) (run : P α Q m) :
    P α Q fun i => Scope.inside c (m i)
  enter {α : Type} {Q : α → Prop} {k : ι → ContextId → Eval α} {c : ContextId} (here : D.context c)
    (next : ∀ inner, D.context inner → P α Q fun i => k i inner) :
    P α Q fun i => perform (fun s => s.newContext "Block" (some c)) >>= k i
  define {c : ContextId} {v : Value} {ds : List Definition} (here : D.context c)
    (made : D.strict → ∀ d ∈ ds, d.IsMade) : P PUnit (fun _ => True) fun _ => modify fun s => s.define c v .own ds
  addBody {c : ContextId} {x : Symbol} {body : Value} (here : D.context c) (element : D.Fine body) :
    P PUnit (fun _ => True) fun _ => modify fun s => s.addDefinition c (.symbol x) .down ⟨.symbol x, body, .null⟩
  freshFor (target : Value) : P Value IsElement fun _ => Scope.freshFor target
  ownList (c : ContextId) (target : Value) : P ListId D.list fun _ => Scope.ownList c target
  restore {c : ContextId} {saved : List (Value × ListId)} (here : D.context c)
    (within : D.strict → ∀ p ∈ saved, D.list p.2) : P PUnit (fun _ => True) fun _ =>
      modify fun s => saved.foldl (fun s p => s.updateContext c fun ctx => ctx.setList p.1 .own p.2) s
  request (as : List Value) : P Value (fun r => ∃ es, r = .table es) fun _ => Web.request as
  found {s : Session} {c : ContextId} {v : Value} {k : DefinitionKind} {l : ListId} (known : D.session s)
    (listed : s.definitions? c v k = some l) : D.list l
  made {s : Session} {l : ListId} (known : D.session s) (within : D.list l) : ∀ d ∈ s.definitionsOf l, d.IsMade
  registered {s : Session} {v : Value} {b : Builtin} (known : D.session s) (found : s.builtin? v = some b) :
    D.operation b.operation
  constant {v : Value} (there : D.operation (.const v)) : v.isElement = true
  repetition {r : Value} (there : D.operation .product) (repeated : Arithmetic.Repetition r) : D.foreign r
  answer {es : List (Value × Value)} (there : D.operation .request) : D.foreign (.table es)

namespace Tracks

variable {D : Regime} {P : ∀ α : Type, (α → Prop) → (ι → Eval α) → Prop} (T : Tracks D P)

section Sequencing

variable {α β : Type} {Q Q' : α → Prop} {R : β → Prop}

theorem choose {S : (ι → Eval α) → Prop} {p : Prop} [Decidable p] {x y : ι → Eval α} (yes : S x) (no : S y) :
    S fun i => if p then x i else y i := by
  by_cases holds : p
  · simpa only [if_pos holds] using yes
  · simpa only [if_neg holds] using no

include T

theorem ofExcept {r : Except Error α} (known : D.strict → ∀ a, r = .ok a → Q a) : P α Q fun _ => Step.ofExcept r := by
  cases r with
  | ok a => exact T.pure fun on => known on a rfl
  | error e => exact T.fail e

theorem some (r : Except Error α) : P α (fun _ => True) fun _ => Step.ofExcept r := T.ofExcept fun _ _ _ => trivial

theorem quiet {x : Eval α} (quiet : x.Quiet) (yields : D.strict → x.Yields Q) : P α Q fun _ => x := by
  obtain ⟨r, rfl⟩ := quiet
  exact T.ofExcept fun on a found => yields on .initial a .initial (Step.ofExcept_ok.2 ⟨found, rfl⟩)

theorem mono {m : ι → Eval α} (run : P α Q m) (weaker : D.strict → ∀ a, Q a → Q' a) : P α Q' m := by
  simpa only [bind_pure] using T.bind run fun a known => T.pure fun on => weaker on a (known on)

theorem foldlM {f : ι → β → α → Eval β} {as : List α} {b : β} (start : D.strict → R b)
    (each : ∀ b, (D.strict → R b) → ∀ a ∈ as, P β R fun i => f i b a) : P β R fun i => as.foldlM (f i) b := by
  induction as generalizing b with
  | nil => exact T.pure start
  | cons a as ih =>
    simp only [List.foldlM_cons]
    exact T.bind (each b start a (List.mem_cons_self ..)) fun c next =>
      ih next fun d fine e member => each d fine e (List.mem_cons_of_mem _ member)

end Sequencing

section Builtins

variable {ev : ι → Evaluator} (calls : ∀ c, D.context c → ∀ v, D.Fine v → P Value IsElement fun i => ev i c v)
  {c : ContextId} (here : D.context c) {e : Value} {as : List Value}

include T calls here

/-! ### Comparison and logic -/

theorem withTwo {short : Value} {f : Value → Value → Eval Value} (default : D.Fine short)
    (join : ∀ x y, P Value IsElement fun _ => f x y) (elements : D.FineAll as) :
    P Value IsElement fun i => Comparison.withTwo (ev i) c short f as := by
  match as with
  | [] | [_] => exact T.pure default
  | a :: b :: _ =>
    obtain ⟨first, second, -⟩ := fineAll_pair.1 elements
    exact T.bind (calls c here a first) fun x _ => T.bind (calls c here b second) fun y _ => join x y

theorem withOne {short : Value} {f : Value → Eval Value} (default : D.Fine short)
    (use : ∀ x, P Value IsElement fun _ => f x) (elements : D.FineAll as) :
    P Value IsElement fun i => Comparison.withOne (ev i) c short f as := by
  cases as with
  | nil => exact T.pure default
  | cons a _ => exact T.bind (calls c here a (fineAll_cons.1 elements).1) fun x _ => use x

theorem relation (r : Number.Relation) (element : D.Fine e) (elements : D.FineAll as) :
    P Value IsElement fun i => Comparison.relation r (ev i) c e as := by
  refine T.withTwo calls here element (fun x y => ?_) elements
  split
  · rename_i m n
    refine T.bind (Q := fun _ => True) ?_ fun _ _ => T.pure fun _ => rfl
    cases m.compare r n with
    | ok a => exact T.pure fun _ => trivial
    | error f => exact T.fail _
  · exact T.pure element

theorem equality (negated : Bool) (element : D.Fine e) (elements : D.FineAll as) :
    P Value IsElement fun i => Comparison.equality negated (ev i) c e as := by
  refine T.withTwo calls here element (fun x y => ?_) elements
  split
  · exact T.pure fun _ => rfl
  · exact T.pure element

theorem conjunction (element : D.Fine e) (elements : D.FineAll as) :
    P Value IsElement fun i => Comparison.conjunction (ev i) c e as := by
  induction as with
  | nil => exact T.pure fun _ => rfl
  | cons a as ih =>
    obtain ⟨first, rest⟩ := fineAll_cons.1 elements
    exact T.bind (calls c here a first) fun v _ =>
      choose (T.pure fun _ => rfl) (choose (ih rest) (T.pure element))

theorem disjunction (element : D.Fine e) (elements : D.FineAll as) :
    P Value IsElement fun i => Comparison.disjunction (ev i) c e as := by
  induction as with
  | nil => exact T.pure fun _ => rfl
  | cons a as ih =>
    obtain ⟨first, rest⟩ := fineAll_cons.1 elements
    exact T.bind (calls c here a first) fun v _ =>
      choose (T.pure fun _ => rfl) (choose (ih rest) (T.pure element))

theorem negation (element : D.Fine e) (elements : D.FineAll as) :
    P Value IsElement fun i => Comparison.negation (ev i) c e as :=
  T.withOne calls here element
    (fun _ => choose (T.pure fun _ => rfl) (choose (T.pure fun _ => rfl) (T.pure element))) elements

theorem predicate (p : Value → Bool) (elements : D.FineAll as) :
    P Value IsElement fun i => Comparison.predicate p (ev i) c as :=
  T.withOne calls here (fun _ => rfl) (fun _ => T.pure fun _ => rfl) elements

/-! ### Assignment, conditionals and loops -/

theorem assign (element : D.Fine e) (elements : D.FineAll as) :
    P Value IsElement fun i => Control.assign (ev i) c e as := by
  match as with
  | [] | [_] => exact T.pure element
  | target :: body :: _ =>
    refine T.bind (calls c here body (fineAll_pair.1 elements).2.1) fun v value => ?_
    cases target with
    | symbol x =>
      refine T.bind (T.define here fun on => ?_) fun _ _ => T.pure value
      exact List.forall_mem_singleton.2 ⟨rfl, value on, rfl⟩
    | _ => exact T.pure element

omit calls in
theorem assignDelayed (element : D.Fine e) (elements : D.FineAll as) :
    P Value IsElement fun _ => Control.assignDelayed c e as := by
  match as with
  | [] | [_] => exact T.pure element
  | target :: body :: _ =>
    cases target with
    | symbol x => exact T.bind (T.addBody here (fineAll_pair.1 elements).2.1) fun _ _ => T.pure fun _ => rfl
    | _ => exact T.pure element

theorem conditional (element : D.Fine e) (elements : D.FineAll as) :
    P Value IsElement fun i => Control.conditional (ev i) c e as := by
  match as with
  | [] | [_] => exact T.pure element
  | test :: yes :: more =>
    obtain ⟨first, second, others⟩ := fineAll_pair.1 elements
    refine T.bind (calls c here test first) fun v _ => choose (calls c here yes second) ?_
    cases more with
    | nil => exact T.pure fun _ => rfl
    | cons no _ => exact calls c here no (fineAll_cons.1 others).1

theorem firstTrue : ∀ as : List Value, D.FineAll as → P Value IsElement fun i => Control.firstTrue (ev i) c as
  | [], _ | [_], _ => T.pure fun _ => rfl
  | test :: v :: more, elements => by
    obtain ⟨first, second, others⟩ := fineAll_pair.1 elements
    exact T.bind (calls c here test first) fun _ _ => choose (calls c here v second) (firstTrue more others)

theorem firstMatch (subject : Value) :
    ∀ as : List Value, D.FineAll as → P Value IsElement fun i => Control.firstMatch (ev i) c subject as
  | [], _ => T.pure fun _ => rfl
  | [v], elements => calls c here v (fineAll_cons.1 elements).1
  | p :: v :: more, elements => by
    obtain ⟨-, second, others⟩ := fineAll_pair.1 elements
    exact T.bind (T.quiet (Pattern.matchPlain_quiet p subject) fun _ => .any _) fun _ _ =>
      choose (calls c here v second) (firstMatch subject more others)

theorem switch (element : D.Fine e) (elements : D.FineAll as) :
    P Value IsElement fun i => Control.switch (ev i) c e as := by
  match as with
  | [] | [_] => exact T.pure element
  | subject :: a :: more =>
    obtain ⟨first, rest⟩ := fineAll_cons.1 elements
    exact T.bind (calls c here subject first) fun v _ => T.firstMatch calls here v (a :: more) rest

theorem sequence {last : Value} (default : D.Fine last) (elements : D.FineAll as) :
    P Value IsElement fun i => Control.sequence (ev i) c last as := by
  induction as generalizing last with
  | nil => exact T.pure default
  | cons a as ih =>
    obtain ⟨first, rest⟩ := fineAll_cons.1 elements
    exact T.bind (calls c here a first) fun v value => ih value rest

theorem force (element : D.Fine e) (elements : D.FineAll as) :
    P Value IsElement fun i => Control.force (ev i) c e as := by
  cases as with
  | nil => exact T.pure element
  | cons a _ => exact calls c here a (fineAll_cons.1 elements).1

theorem release (element : D.Fine e) (elements : D.FineAll as) :
    P Value IsElement fun i => Control.release (ev i) c e as := by
  cases as with
  | nil => exact T.pure element
  | cons a _ =>
    have first := (fineAll_cons.1 elements).1
    simp only [Control.release]
    split
    · next found => exact calls c here _ fun on => (elements_cons.1 (elements_argsOf (first on) found)).1
    · exact calls c here a first

/-! ### Iteration -/

theorem evaluateAt {body x : Value} (inner : D.Fine body) (value : D.Fine x) (var : Value) :
    P Value IsElement fun i => Iteration.evaluateAt (ev i) c body var x := by
  refine T.bind (T.ofExcept fun on v run => ?_) fun v fine => calls c here v fine
  obtain ⟨_, _, run⟩ := Except.bind_ok run
  refine isElement_substitute (fun e member => ?_) (inner on) run
  obtain ⟨s, _, rfl⟩ := List.mem_map.1 member
  exact value on

omit T calls here in
theorem elements_items {v : Value} (value : v.isElement = true) : Elements ((v.argsOf? "List").getD []) := by
  cases found : v.argsOf? "List" with
  | none => exact elements_nil
  | some xs => exact elements_argsOf value found

theorem loopValues (elements : D.FineAll as) :
    P Iteration.Domain (fun d => Elements d.toList) fun i => Iteration.loopValues (ev i) c as := by
  have integers : ∀ a b s : Int,
      Elements (if proceeds : s ≠ 0 then Iteration.Domain.integers (.steps a b s proceeds) else .items []).toList := by
    intro a b s
    split
    · intro v member
      obtain ⟨n, _, rfl⟩ := List.mem_map.1 member
      rfl
    · exact elements_nil
  match as with
  | [] => exact T.pure fun _ => elements_nil
  | [l] =>
    exact T.bind (calls c here l (fineAll_cons.1 elements).1) fun v value => T.pure fun on => elements_items (value on)
  | low :: high :: more =>
    obtain ⟨first, second, others⟩ := fineAll_pair.1 elements
    refine T.bind (calls c here low first) fun a _ => T.bind (calls c here high second) fun b _ => ?_
    -- The step is evaluated if it is given; either way the three values then decide.
    rcases more with _ | ⟨step, _⟩
    · refine T.bind (Q := fun _ => True) (T.pure (a := int 1) fun _ => trivial) fun s _ => ?_
      dsimp only
      split
      · exact T.pure fun _ => integers _ _ _
      · exact T.pure fun _ => elements_nil
    · refine T.bind (calls c here step (fineAll_cons.1 others).1) fun s _ => ?_
      dsimp only
      split
      · exact T.pure fun _ => integers _ _ _
      · exact T.pure fun _ => elements_nil

omit T calls here in
theorem elements_iterator {it var : Value} {spec : List Value} (element : it.isElement = true)
    (form : Iteration.iterator? it = .some (var, spec)) : Elements spec := by
  unfold Iteration.iterator? at form
  split at form
  · cases form
    exact (elements_cons.1 (elements_args element)).2
  · cases form

theorem loop (element : D.Fine e) (elements : D.FineAll as) :
    P Value IsElement fun i => Iteration.loop (ev i) c e as := by
  match as with
  | [] | [_] => exact T.pure element
  | body :: it :: _ =>
    obtain ⟨inner, second, -⟩ := fineAll_pair.1 elements
    simp only [Iteration.loop]
    split
    · exact T.pure element
    · next var spec form =>
      refine T.bind (T.loopValues calls here fun on => elements_iterator (second on) form) fun d values => ?_
      refine T.bind (Q := fun _ => True) ?_ fun _ _ => T.pure fun _ => rfl
      simp only [Iteration.visitEach, Iteration.Domain.foldM_eq_foldlM]
      refine T.foldlM (fun _ => trivial) fun _ _ x member => ?_
      exact T.bind (T.evaluateAt calls here inner (fun on => values on x member) var) fun _ _ => T.pure fun _ => trivial

theorem table (element : D.Fine e) (elements : D.FineAll as) :
    P Value IsElement fun i => Iteration.table (ev i) c e as := by
  match as with
  | [] | [_] => exact T.pure element
  | body :: it :: _ =>
    obtain ⟨inner, second, -⟩ := fineAll_pair.1 elements
    simp only [Iteration.table]
    split
    · exact T.pure element
    · next var spec form =>
      refine T.bind (T.loopValues calls here fun on => elements_iterator (second on) form) fun d values => ?_
      refine T.bind (Q := Elements) ?_ fun rs results => T.pure fun on => isElement_call.2 (results on)
      refine T.bind (Q := Elements) ?_ fun rs results =>
        T.pure fun on r member => results on r (List.mem_reverse.1 member)
      simp only [Iteration.Domain.foldM_eq_foldlM]
      refine T.foldlM (fun _ => elements_nil) fun rs results x member => ?_
      exact T.bind (T.evaluateAt calls here inner (fun on => values on x member) var) fun v value =>
        T.pure fun on => elements_cons.2 ⟨value on, results on⟩

theorem accumulationValues (elements : D.FineAll as) :
    P (Option Iteration.Integers) (fun _ => True) fun i => Iteration.accumulationValues (ev i) c as := by
  match as with
  | [] => exact T.pure fun _ => trivial
  | [high] =>
    refine T.bind (calls c here high (fineAll_cons.1 elements).1) fun b _ => ?_
    split <;> exact T.pure fun _ => trivial
  | [low, high] =>
    obtain ⟨first, second, -⟩ := fineAll_pair.1 elements
    refine T.bind (calls c here low first) fun a _ => T.bind (calls c here high second) fun b _ => ?_
    split <;> exact T.pure fun _ => trivial
  | [low, high, step] =>
    obtain ⟨first, second, others⟩ := fineAll_pair.1 elements
    refine T.bind (calls c here low first) fun a _ => T.bind (calls c here high second) fun b _ => ?_
    refine T.bind (calls c here step (fineAll_cons.1 others).1) fun s _ => ?_
    split <;> exact T.pure fun _ => trivial
  | _ :: _ :: _ :: _ :: _ => exact T.pure fun _ => trivial

/-- What is accumulated has a property that elements have and that joining an element keeps. -/
theorem accumulate {Q : Value → Prop} {name : String} {start : Value} {join : Value → Value → Except Error Value}
    (initial : Q start) (given : ∀ v, v.isElement = true → Q v)
    (joined : ∀ acc v r, Q acc → v.isElement = true → join acc v = .ok r → Q r) (element : D.Fine e)
    (elements : D.FineAll as) : P Value Q fun i => Iteration.accumulate name start join (ev i) c e as := by
  have along : ∀ body rest its, D.Fine body → D.Fine rest → D.FineAll its →
      P Value Q fun i => Iteration.accumulateOver (ev i) c join start body e rest its := by
    intro body rest its inner whole iterators
    induction its with
    | nil => exact T.pure fun on => given rest (whole on)
    | cons it its ih =>
      obtain ⟨first, others⟩ := fineAll_cons.1 iterators
      simp only [Iteration.accumulateOver]
      split
      · exact T.pure fun on => given e (element on)
      · next var spec form =>
        have parts := fun on => elements_iterator (first on) form
        refine T.bind (T.accumulationValues calls here parts) fun range _ => ?_
        cases range with
        | none => exact ih others
        | some p =>
          simp only [Iteration.accumulateEach, p.foldM_eq_foldlM]
          refine T.foldlM (fun _ => initial) fun acc sofar n _ => ?_
          exact T.bind (T.evaluateAt calls here inner (fun _ => rfl) var) fun v value =>
            T.ofExcept fun on r run => joined acc v r (sofar on) (value on) run
  match as with
  | [] => exact T.pure fun on => given e (element on)
  | [body] => exact T.pure fun on => given body ((fineAll_cons.1 elements).1 on)
  | body :: it :: its =>
    obtain ⟨first, rest⟩ := fineAll_cons.1 elements
    exact along body _ (it :: its) first (fun on => isElement_call.2 (elements on)) rest

theorem applied {β : Type} {R : β → Prop} {f : Value} {k : ι → Value → Eval β} (function : D.Fine f)
    (elements : D.FineAll as) (next : ∀ w, D.Fine w → P β R fun i => k i w) :
    P β R fun i => Step.ofExcept (f.apply as) >>= fun v => ev i c v >>= k i :=
  T.bind (T.ofExcept fun on _ run => isElement_build (function on) (elements on) run) fun v fine =>
    T.bind (calls c here v fine) next

theorem applyTimes {f x : Value} (function : D.Fine f) (n : Nat) (value : D.Fine x) :
    P Value IsElement fun i => Iteration.applyTimes (ev i) c f n x := by
  induction n generalizing x with
  | zero => exact T.pure value
  | succ n ih =>
    exact T.applied calls here function (fineAll_cons.2 ⟨value, fun _ => elements_nil⟩) fun y result => ih result

theorem collectTimes {f x : Value} {results : List Value} (function : D.Fine f) (n : Nat) (value : D.Fine x)
    (values : D.FineAll results) : P (List Value) Elements fun i => Iteration.collectTimes (ev i) c f n x results := by
  induction n generalizing x results with
  | zero => exact T.pure values
  | succ n ih =>
    exact T.applied calls here function (fineAll_cons.2 ⟨value, fun _ => elements_nil⟩) fun y result =>
      ih result (fineAll_cons.2 ⟨result, values⟩)

theorem nest (element : D.Fine e) (elements : D.FineAll as) :
    P Value IsElement fun i => Iteration.nest (ev i) c e as := by
  match as with
  | [] | [_] | [_, _] => exact T.pure element
  | f :: x :: n :: _ =>
    obtain ⟨first, second, others⟩ := fineAll_pair.1 elements
    refine T.bind (calls c here n (fineAll_cons.1 others).1) fun count _ => ?_
    split
    · exact choose (T.pure element) (T.bind (calls c here x second) fun start value =>
        T.applyTimes calls here first _ value)
    · exact T.pure element

theorem nestList (element : D.Fine e) (elements : D.FineAll as) :
    P Value IsElement fun i => Iteration.nestList (ev i) c e as := by
  match as with
  | [] | [_] | [_, _] => exact T.pure element
  | f :: x :: n :: _ =>
    obtain ⟨first, second, others⟩ := fineAll_pair.1 elements
    refine T.bind (calls c here n (fineAll_cons.1 others).1) fun count _ => ?_
    split
    · refine choose (T.pure element) (T.bind (calls c here x second) fun start value => ?_)
      refine T.bind (T.collectTimes calls here first _ value (fineAll_cons.2 ⟨value, fun _ => elements_nil⟩))
        fun results fine => T.pure fun on => isElement_call.2 fun v member => ?_
      exact fine on v (List.mem_reverse.1 member)
    · exact T.pure element

theorem foldItems {f acc : Value} (function : D.Fine f) (elements : D.FineAll as) (sofar : D.Fine acc) :
    P Value IsElement fun i => Iteration.foldItems (ev i) c f acc as := by
  induction as generalizing acc with
  | nil => exact T.pure sofar
  | cons x xs ih =>
    obtain ⟨first, rest⟩ := fineAll_cons.1 elements
    exact T.applied calls here function (fineAll_pair.2 ⟨sofar, first, fun _ => elements_nil⟩) fun w result =>
      ih rest result

theorem fold (element : D.Fine e) (elements : D.FineAll as) :
    P Value IsElement fun i => Iteration.fold (ev i) c e as := by
  match as with
  | [] | [_] | [_, _] => exact T.pure element
  | f :: start :: l :: _ =>
    obtain ⟨first, second, others⟩ := fineAll_pair.1 elements
    refine T.bind (calls c here start second) fun acc sofar => ?_
    refine T.bind (calls c here l (fineAll_cons.1 others).1) fun v value => ?_
    exact T.foldItems calls here first (fun on => elements_items (value on)) sofar

theorem map (element : D.Fine e) (elements : D.FineAll as) :
    P Value IsElement fun i => Iteration.map (ev i) c e as := by
  match as with
  | [] | [_] => exact T.pure element
  | f :: l :: _ =>
    obtain ⟨first, second, -⟩ := fineAll_pair.1 elements
    refine T.bind (calls c here l second) fun v value => ?_
    split
    · next xs found =>
      refine T.bind (Q := Elements) ?_ fun ys results => T.pure fun on => isElement_call.2 (results on)
      refine T.bind (Q := Elements) ?_ fun ys results =>
        T.pure fun on y member => results on y (List.mem_reverse.1 member)
      refine T.foldlM (fun _ => elements_nil) fun ys results x member => ?_
      refine T.applied calls here first (fun on => ?_) fun y result =>
        T.pure fun on => elements_cons.2 ⟨result on, results on⟩
      exact elements_cons.2 ⟨elements_argsOf (value on) found x member, elements_nil⟩
    · exact T.pure element

/-! ### Scopes -/

theorem rename {known : List (Value × Value)} {ls : List Scope.Local} (sofar : D.strict → TableMade known)
    (locals : D.strict → ∀ l ∈ ls, l.IsMade) :
    P (List (Value × Value)) TableMade fun i => Scope.rename (ev i) c known ls := by
  induction ls generalizing known with
  | nil => exact T.pure sofar
  | cons l ls ih =>
    have rest := fun on => (List.forall_mem_cons.1 (locals on)).2
    cases l with
    | bare s => exact T.bind (T.freshFor s) fun g made => ih (fun on => tableMade_write (sofar on) (made on)) rest
    | initial target v =>
      have first : D.Fine v := fun on => (locals on _ (List.mem_cons_self ..)).2
      refine T.bind (T.freshFor target) fun g made => T.bind (calls c here v first) fun w value => ?_
      refine T.bind (T.define here fun on => ?_) fun _ _ => ih (fun on => tableMade_write (sofar on) (made on)) rest
      exact List.forall_mem_singleton.2 ⟨made on, value on, rfl⟩

theorem constants {known : List (Value × Value)} {ls : List Scope.Local} (sofar : D.strict → TableMade known)
    (locals : D.strict → ∀ l ∈ ls, l.IsMade) :
    P (List (Value × Value)) TableMade fun i => Scope.constants (ev i) c known ls := by
  induction ls generalizing known with
  | nil => exact T.pure sofar
  | cons l ls ih =>
    have rest := fun on => (List.forall_mem_cons.1 (locals on)).2
    cases l with
    | bare s => exact ih sofar rest
    | initial target v =>
      have first : D.Fine v := fun on => (locals on _ (List.mem_cons_self ..)).2
      refine T.bind (calls c here v first) fun w value => T.bind (T.some _) fun _ _ => ?_
      exact ih (fun on => tableMade_write (sofar on) (value on)) rest

theorem filled {body : Value} (element : D.Fine body) {m : ι → Eval (List (Value × Value))}
    (run : P (List (Value × Value)) TableMade m) :
    P Value IsElement fun i => m i >>= fun es => Step.ofExcept (body.substituteTable false es) >>= ev i c :=
  T.bind run fun _ made => T.bind (T.ofExcept fun on _ => isElement_substituteTable (made on) (element on)) fun v fine =>
    calls c here v fine

theorem moduleScope (element : D.Fine e) (elements : D.FineAll as) :
    P Value IsElement fun i => Scope.moduleScope (ev i) c e as := by
  match as with
  | [] | [_] => exact T.pure element
  | spec :: body :: _ =>
    obtain ⟨first, second, -⟩ := fineAll_pair.1 elements
    exact T.filled calls here second (T.rename calls here (fun _ => nofun) fun on => locals_made (first on))

theorem withScope (element : D.Fine e) (elements : D.FineAll as) :
    P Value IsElement fun i => Scope.withScope (ev i) c e as := by
  match as with
  | [] | [_] => exact T.pure element
  | spec :: body :: _ =>
    obtain ⟨first, second, -⟩ := fineAll_pair.1 elements
    exact T.filled calls here second (T.constants calls here (fun _ => nofun) fun on => locals_made (first on))

theorem shadow {inner : ContextId} (there : D.context inner) {saved : List (Value × ListId)} {ls : List Scope.Local}
    (sofar : D.strict → ∀ p ∈ saved, D.list p.2) (locals : D.strict → ∀ l ∈ ls, l.IsMade) :
    P (List (Value × ListId)) (fun saved => ∀ p ∈ saved, D.list p.2)
      fun i => Scope.shadow (ev i) c inner saved ls := by
  have noted : ∀ {saved : List (Value × ListId)} {target l}, (D.strict → ∀ p ∈ saved, D.list p.2) →
      (D.strict → D.list l) → D.strict → ∀ p ∈ Context.write target l saved, D.list p.2 := by
    intro saved target l sofar within on p member
    rcases (Context.mem_write member).symm with ⟨new, -⟩ | old
    · rw [new]
      exact within on
    · exact sofar on p old
  induction ls generalizing saved with
  | nil => exact T.pure sofar
  | cons l ls ih =>
    have rest := fun on => (List.forall_mem_cons.1 (locals on)).2
    cases l with
    | bare s =>
      refine T.bind (T.ownList c s) fun l within => T.bind (T.define there fun _ => nofun) fun _ _ => ?_
      exact ih (noted sofar within) rest
    | initial target v =>
      have first := fun on => locals on _ (List.mem_cons_self ..)
      refine T.bind (calls c here v fun on => (first on).2) fun w value => T.bind (T.ownList c target) fun l within => ?_
      refine T.bind (T.define there fun on => ?_) fun _ _ => ih (noted sofar within) rest
      exact List.forall_mem_singleton.2 ⟨(first on).1, value on, rfl⟩

theorem blockScope (element : D.Fine e) (elements : D.FineAll as) :
    P Value IsElement fun i => Scope.blockScope (ev i) c e as := by
  match as with
  | [] | [_] => exact T.pure element
  | spec :: body :: _ =>
    obtain ⟨first, second, -⟩ := fineAll_pair.1 elements
    have steps := T.enter here fun inner there =>
      T.bind (T.shadow calls here there (fun _ => List.forall_mem_nil _) fun on => locals_made (first on)) fun saved within =>
        T.bind (T.inside inner (calls inner there body second)) fun r result =>
          T.bind (T.restore here within) fun _ _ => T.pure result
    exact steps

/-! ### All builtins -/

variable {fuel : ι → Nat}

/-- A builtin other than a loop without a bound has the property; such a loop has it if running through
its steps again and again has it. -/
theorem operation (op : Operation) (registered : D.strict → D.operation op)
    (unbounded : op = .whileLoop ∨ op = .forLoop → ∀ c, D.context c → ∀ test steps, D.Fine test → D.FineAll steps →
      P Value IsElement fun i => Control.loopWhile (ev i) c test steps (fuel i)) (element : D.Fine e) :
    P Value D.Gives fun i => op.run (ev i) (fuel i) c e := by
  have elements : D.FineAll e.args := fun on => elements_args (element on)
  have known : ∀ {m : ι → Eval Value}, P Value IsElement m → P Value D.Gives m := fun run =>
    T.mono run fun _ _ => .inl
  cases op with
  | product =>
    refine T.mono (T.accumulate calls here (Q := fun r => r.isElement = true ∨ Arithmetic.Repetition r) (.inl rfl)
      (fun _ => .inl) (fun acc v r sofar value run => Arithmetic.accumulateProduct_closed sofar value run) element
      elements) fun on r either => either.imp_right (T.repetition (registered on))
  | request =>
    refine T.mono (T.request _) fun on r table => .inr ?_
    obtain ⟨es, rfl⟩ := table
    exact T.answer (registered on)
  | const v => exact T.pure fun on => .inl (T.constant (registered on))
  | sum =>
    refine known (T.accumulate calls here rfl (fun _ fine => fine) (fun acc v r _ _ run => ?_) element elements)
    exact Arithmetic.isElement_accumulateSum run
  | plus => exact known (T.ofExcept fun on _ => Arithmetic.isElement_plus (elements on))
  | times => exact known (T.ofExcept fun on _ => Arithmetic.isElement_times (elements on))
  | power => exact known (T.ofExcept fun on _ => Arithmetic.isElement_power (element on) (elements on))
  | minus => exact known (T.ofExcept fun on _ => Arithmetic.isElement_minus (element on) (elements on))
  | divide => exact known (T.ofExcept fun on _ => Arithmetic.isElement_divide (element on) (elements on))
  | subtract => exact known (T.ofExcept fun on _ => Arithmetic.isElement_subtract (element on) (elements on))
  | abs => exact known (T.ofExcept fun on _ => Arithmetic.isElement_abs (element on) (elements on))
  | sqrt => exact known (T.ofExcept fun on _ => Arithmetic.isElement_sqrt (element on) (elements on))
  | exp => exact known (T.ofExcept fun on _ => Arithmetic.isElement_exp (element on) (elements on))
  | log => exact known (T.ofExcept fun on _ => Arithmetic.isElement_log (element on) (elements on))
  | less | greater | lessEqual | greaterEqual => exact known (T.relation calls here _ element elements)
  | equal | unequal => exact known (T.equality calls here _ element elements)
  | and => exact known (T.conjunction calls here element elements)
  | or => exact known (T.disjunction calls here element elements)
  | not => exact known (T.negation calls here element elements)
  | evenQ | oddQ | trueQ | numericQ | atomQ | listQ | stringQ | integerQ | realQ =>
    exact known (T.predicate calls here _ elements)
  | set => exact known (T.assign calls here element elements)
  | setDelayed => exact known (T.assignDelayed here element elements)
  | ifThen => exact known (T.conditional calls here element elements)
  | which => exact known (choose (T.pure element) (T.firstTrue calls here _ elements))
  | switch => exact known (T.switch calls here element elements)
  | compound => exact known (T.sequence calls here (fun _ => rfl) elements)
  | evaluate => exact known (T.force calls here element elements)
  | releaseHold => exact known (T.release calls here element elements)
  | hold | holdForm => exact known (T.pure element)
  | doLoop => exact known (T.loop calls here element elements)
  | whileLoop =>
    have loop := unbounded (.inl rfl)
    simp only [Operation.run, Control.whileLoop]
    split
    · next test body _ form =>
      rw [form] at elements
      obtain ⟨first, second, -⟩ := fineAll_pair.1 elements
      exact known (loop c here _ _ first (fineAll_cons.2 ⟨second, fun _ => elements_nil⟩))
    · exact known (T.pure element)
  | forLoop =>
    have loop := unbounded (.inr rfl)
    simp only [Operation.run, Control.forLoop]
    split
    · next start test increment body _ form =>
      rw [form] at elements
      obtain ⟨first, second, others⟩ := fineAll_pair.1 elements
      obtain ⟨third, fourth, -⟩ := fineAll_pair.1 others
      exact known (T.bind (calls c here start first) fun _ _ =>
        loop c here _ _ second (fineAll_pair.2 ⟨fourth, third, fun _ => elements_nil⟩))
    · exact known (T.pure element)
  | table => exact known (T.table calls here element elements)
  | nest => exact known (T.nest calls here element elements)
  | nestList => exact known (T.nestList calls here element elements)
  | fold => exact known (T.fold calls here element elements)
  | map => exact known (T.map calls here element elements)
  | moduleScope => exact known (T.moduleScope calls here element elements)
  | blockScope => exact known (T.blockScope calls here element elements)
  | withScope => exact known (T.withScope calls here element elements)
  | sameQ | unsameQ => exact known (T.withTwo calls here element (fun _ _ => T.pure fun _ => rfl) elements)
  | headQ => exact known (T.withTwo calls here (fun _ => rfl) (fun _ _ => T.pure fun _ => rfl) elements)
  | count => exact known (T.pure fun _ => rfl)
  | list => exact known (T.pure fun on => isElement_call.2 (elements on))
  | first =>
    simp only [Operation.run]
    split
    · next a _ form =>
      rw [form] at elements
      exact known (T.pure (fineAll_cons.1 elements).1)
    · exact T.fail _
  | reverse =>
    simp only [Operation.run]
    split
    · next h bs t =>
      refine known (T.pure fun on => ?_)
      obtain ⟨can, head, inner⟩ := isElement_expr.1 (element on)
      exact isElement_expr.2 ⟨can, head, fun v member => inner v (List.mem_reverse.1 member)⟩
    · exact T.fail _
  | evaluateFirst =>
    simp only [Operation.run]
    split
    · next a _ form =>
      rw [form] at elements
      exact known (calls c here a (fineAll_cons.1 elements).1)
    · exact T.fail _

omit calls in
theorem runBuiltin (operations : ∀ op : Operation, (D.strict → D.operation op) → ∀ c, D.context c → ∀ e, D.Fine e →
      P Value D.Gives fun i => op.run (ev i) (fuel i) c e) (element : D.Fine e) :
    P Value D.Gives fun i => Symbolic.runBuiltin (ev i) (fuel i) c e := by
  unfold Symbolic.runBuiltin
  split
  · next x as t =>
    refine T.read (fun _ _ _ => rfl) fun s known => ?_
    cases found : s.builtin? (.symbol x) with
    | none => exact T.pure fun on => .inl (element on)
    | some b => exact operations b.operation (fun on => T.registered (known on) found) c here _ element
  · exact T.pure fun on => .inl (element on)

/-! ### Definitions -/

theorem applyDefinition {d : Definition} (made : D.strict → d.IsMade) (element : D.Fine e) :
    P (Option Value) (fun found => ∀ r ∈ found, r.isElement = true) fun i => d.apply (ev i) c e := by
  refine T.bind (T.quiet (Pattern.matchPlain_quiet _ e) fun on => Pattern.matchPlain_made (made on).pattern (element on))
    fun found bound => ?_
  cases found with
  | none => exact T.pure fun _ => nofun
  | some b =>
    refine T.bind (Q := fun _ => True) ?_ fun admitted _ => choose ?_ (T.pure fun _ => nofun)
    · unfold admits
      split
      · exact T.pure fun _ => trivial
      · next t found =>
        refine T.bind (T.ofExcept fun on v run => ?_) fun v fine =>
          T.bind (calls c here v fine) fun _ _ => T.pure fun _ => trivial
        have condition := (made on).condition
        rw [Pattern.present?_eq found] at condition
        exact Bindings.isElement_substitute (bound on b rfl) condition run
    · refine T.bind (Q := IsElement) (T.ofExcept fun on r run => ?_) fun r fine =>
        T.pure fun on q same => Option.some.inj same ▸ fine on
      exact Bindings.isElement_substitute (bound on b rfl) (made on).replacement run

variable (search : ∀ c, D.context c → ∀ l, (D.strict → D.list l) → ∀ e, D.Fine e →
  P (Option Value) (fun found => ∀ r ∈ found, r.isElement = true) fun i => applyFrom (ev i) c l e (fuel i) 0)

include search

omit calls in
theorem applyDefinitions (kind : DefinitionKind) (x : Value) (element : D.Fine e) :
    P (Option Value) (fun found => ∀ r ∈ found, r.isElement = true)
      fun i => Symbolic.applyDefinitions (ev i) (fuel i) c kind x e := by
  refine T.read (fun i s f => by simp only [definitions_withFrame]) fun s known => ?_
  cases listed : s.definitions? c x kind with
  | none => exact T.pure fun _ => nofun
  | some l => exact search c here l (fun on => T.found (known on) listed) e element

theorem evaluateSymbol (element : D.Fine e) :
    P Value IsElement fun i => Symbolic.evaluateSymbol (ev i) (fuel i) c e := by
  refine T.bind (T.applyDefinitions here search .own e element) fun found fine => ?_
  cases found with
  | none => exact T.pure element
  | some r => exact calls c here r fun on => fine on r rfl

omit calls in
theorem firstChange (places : List (DefinitionKind × Value)) (element : D.Fine e) :
    P (Option Value) (fun found => ∀ r ∈ found, r.isElement = true)
      fun i => Symbolic.firstChange (ev i) (fuel i) c e places := by
  induction places with
  | nil => exact T.pure fun _ => nofun
  | cons p places ih =>
    refine T.bind (T.applyDefinitions here search p.1 p.2 element) fun found fine => ?_
    cases found with
    | none => exact ih
    | some r => exact choose (T.pure fine) ih

/-! ### Evaluation -/

omit search in
theorem evaluateAll (elements : D.FineAll as) :
    P (List Value) Elements fun i => Symbolic.evaluateAll (ev i) c as := by
  induction as with
  | nil => exact T.pure fun _ => elements_nil
  | cons a as ih =>
    obtain ⟨first, rest⟩ := fineAll_cons.1 elements
    exact T.bind (calls c here a first) fun v value => T.bind (ih rest) fun vs values =>
      T.pure fun on => elements_cons.2 ⟨value on, values on⟩

omit search in
theorem evaluateArgs (attrs : SymbolSet) (elements : D.FineAll as) :
    P (List Value) Elements fun i => Symbolic.evaluateArgs (ev i) c attrs as := by
  have taken : D.FineAll (as.take 1) := fun on a member => elements on a (List.mem_of_mem_take member)
  have dropped : D.FineAll (as.drop 1) := fun on a member => elements on a (List.mem_of_mem_drop member)
  refine choose (T.pure elements) (choose ?_ (choose ?_ ?_))
  · exact T.bind (T.evaluateAll calls here dropped) fun vs values =>
      T.pure fun on => List.forall_mem_append.2 ⟨taken on, values on⟩
  · exact T.bind (T.evaluateAll calls here taken) fun vs values =>
      T.pure fun on => List.forall_mem_append.2 ⟨values on, dropped on⟩
  · exact T.evaluateAll calls here elements

theorem evaluateHead {h : Value} (element : D.Fine h) :
    P Value IsElement fun i => Symbolic.evaluateHead (ev i) (fuel i) c h := by
  cases h with
  | symbol x => exact T.evaluateSymbol calls here search element
  | expr => exact calls c here _ element
  | _ => exact T.pure element

theorem evaluateParts (attrs : SymbolSet) {h : Value} {t : SymbolSet} (element : D.Fine (.expr h as t)) :
    P Value IsElement fun i => Symbolic.evaluateParts (ev i) (fuel i) c attrs h as t := by
  have parts := fun on => isElement_expr.1 (element on)
  have args : ∀ k : Value, (D.strict → k.canHead = true ∧ k.isElement = true) → P Value IsElement fun i =>
      (Symbolic.evaluateArgs (ev i) c attrs as >>= fun bs =>
        Pure.pure (.expr k (if sameItems bs as then as else bs) t) : Eval Value) := by
    intro k whole
    refine T.bind (T.evaluateArgs calls here attrs fun on => (parts on).2.2) fun bs values => T.pure fun on => ?_
    refine isElement_expr.2 ⟨(whole on).1, (whole on).2, ?_⟩
    split
    · exact (parts on).2.2
    · exact values on
  have unchanged : P Value IsElement fun i => (Pure.pure h >>= fun k => Symbolic.evaluateArgs (ev i) c attrs as >>= fun bs =>
        Pure.pure (.expr k (if sameItems bs as then as else bs) t) : Eval Value) :=
    T.bind (Q := fun k => k = h) (T.pure fun _ => rfl) fun k same =>
      args k fun on => same on ▸ ⟨(parts on).1, (parts on).2.1⟩
  refine choose unchanged (T.bind (T.evaluateHead calls here search fun on => (parts on).2.1) fun k value =>
    choose ?_ unchanged)
  refine T.bind (Q := fun _ => k.canHead = true) (T.ofExcept fun _ r built => ?_) fun _ can =>
    T.bind (Q := fun l => l = k) (T.pure fun _ => rfl) fun l same => args l fun on => same on ▸ ⟨can on, value on⟩
  unfold build at built
  split at built
  · assumption
  · cases built

variable (builtins : ∀ c, D.context c → ∀ e, D.Fine e →
    P Value D.Gives fun i => Symbolic.runBuiltin (ev i) (fuel i) c e)

include builtins

omit calls in
theorem replaceOnce (element : D.Fine e) : P Value D.Gives fun i => Symbolic.replaceOnce (ev i) (fuel i) c e := by
  refine T.bind (T.firstChange here search _ element) fun found fine => ?_
  cases found with
  | none => exact builtins c here e element
  | some r => exact T.pure fun on => .inl (fine on r rfl)

variable (given : ∀ c, D.context c → ∀ v, (D.strict → D.Gives v) → P Value IsElement fun i => ev i c v)

include given

omit calls in
theorem evaluateArranged (attrs : SymbolSet) (element : D.Fine e) :
    P Value IsElement fun i => Symbolic.evaluateArranged (ev i) (fuel i) c attrs e := by
  refine choose (given c here _ fun on => .inl (isElement_threadLists (element on))) ?_
  refine T.bind (T.replaceOnce here search builtins element) fun r gives => choose ?_ (T.pure element)
  exact T.bind T.count fun _ _ => given c here r gives

omit calls in
/-- Evaluation has the property if nested evaluations, searches through definitions and builtins have it. -/
theorem evaluateWith (element : D.Fine e) :
    P Value IsElement fun i => Symbolic.evaluateWith (ev i) (fuel i) c e := by
  have calls : ∀ c, D.context c → ∀ v, D.Fine v → P Value IsElement fun i => ev i c v :=
    fun c here v fine => given c here v fun on => .inl (fine on)
  cases e with
  | symbol x => exact T.evaluateSymbol calls here search element
  | expr h as t =>
    refine T.read (fun i s f => by simp only [effectiveAttributes_withFrame]) fun s _ => ?_
    refine T.bind (T.evaluateParts calls here search _ element) fun e fine => ?_
    exact T.bind (T.ofExcept fun on a run => isElement_arrange (fine on) run) fun a value =>
      T.evaluateArranged here search builtins given _ value
  | _ => exact T.pure element

end Builtins

section Exhaustion

/-! ### Properties that running out of fuel has too -/

variable {ev : ι → Evaluator} (calls : ∀ c, D.context c → ∀ v, D.Fine v → P Value IsElement fun i => ev i c v)
  (stops : ∀ (α : Type) (Q : α → Prop), P α Q fun _ => throw .outOfFuel) {c : ContextId} (here : D.context c) {e : Value}

include T calls stops here

theorem applyFrom {l : ListId} (within : D.strict → D.list l) (element : D.Fine e) (n position : Nat) :
    P (Option Value) (fun found => ∀ r ∈ found, r.isElement = true)
      fun i => Symbolic.applyFrom (ev i) c l e n position := by
  induction n generalizing position with
  | zero => exact stops _ _
  | succ n ih =>
    refine T.read (fun _ _ _ => rfl) fun s known => ?_
    cases there : (s.definitionsOf l)[position]? with
    | none => exact T.pure fun _ => nofun
    | some d =>
      have made := fun on => T.made (known on) (within on) d (List.mem_of_getElem? there)
      refine T.bind (T.applyDefinition calls here made element) fun found fine => ?_
      cases found with
      | none => exact ih _
      | some r => exact T.pure fine

theorem loopWhile {test : Value} {steps : List Value} (tested : D.Fine test) (elements : D.FineAll steps) (n : Nat) :
    P Value IsElement fun i => Control.loopWhile (ev i) c test steps n := by
  induction n with
  | zero => exact stops _ _
  | succ n ih =>
    refine T.bind (calls c here test tested) fun v _ => choose ?_ (T.pure fun _ => rfl)
    exact T.bind (T.sequence calls here (fun _ => rfl) elements) fun _ _ => ih

theorem runBuiltin_of_stops (n : Nat) (element : D.Fine e) :
    P Value D.Gives fun i => Symbolic.runBuiltin (ev i) n c e := by
  refine T.runBuiltin here (fun op registered c here e element => ?_) element
  exact T.operation calls here op registered
    (fun _ c here _ _ tested elements => T.loopWhile calls stops here tested elements n) element

omit calls here in
theorem evaluateWith_of_stops (given : ∀ c, D.context c → ∀ v, (D.strict → D.Gives v) → P Value IsElement fun i => ev i c v)
    (here : D.context c) (n : Nat) (element : D.Fine e) :
    P Value IsElement fun i => Symbolic.evaluateWith (ev i) n c e := by
  have calls : ∀ c, D.context c → ∀ v, D.Fine v → P Value IsElement fun i => ev i c v :=
    fun c here v fine => given c here v fun on => .inl (fine on)
  exact T.evaluateWith here (fun _ here l within e element => T.applyFrom calls stops here within element n 0)
    (fun _ here e element => T.runBuiltin_of_stops calls stops here n element) given element

end Exhaustion

end Tracks
end Symbolic
