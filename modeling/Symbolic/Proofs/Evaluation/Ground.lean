import Symbolic.Proofs.Evaluation.Frame
import Symbolic.Proofs.Evaluation.Isolation
import Symbolic.Proofs.Evaluation.Termination
import Symbolic.Proofs.Pattern.Elements

/-!
Sessions that store elements only, and computations that keep them so. Evaluation is run beside a
guarded evaluation, which gives an alarm instead of evaluating a value that is no element. A
computation follows if, from a session of elements, both runs are the same and what they come to
is known, or the guarded one gives the alarm for a value of the two foreign sorts that builtins make:
the tuple of a product, and the table of a request.
-/
namespace Symbolic

open Value Session

namespace Session

/-- All that the contexts of a session store is made of elements: the definitions in the lists that they hold
and the default values. A builtin that always gives one value gives an element. -/
structure Elementary (s : Session) : Prop where
  definitions : ∀ (c : ContextId) ctx, s.contexts[c]? = some ctx → ∀ e ∈ ctx.entries, ∀ p ∈ e.2.lists,
    ∀ d ∈ s.definitionsOf p.2, d.IsMade
  defaults : ∀ (c : ContextId) ctx, s.contexts[c]? = some ctx → ∀ e ∈ ctx.entries, ∀ v, e.2.default = some v →
    v.isElement = true
  constants : ∀ e ∈ s.registry, ∀ v, e.2.operation = .const v → v.isElement = true

end Session

/-- What stays the same during evaluation: the builtins, and the lists of definitions that a context may hold.
These are made of elements; a list that no context held at the beginning need not be. -/
structure Ground where
  registry : Registry
  lists : ListId → Prop
  constants : ∀ e ∈ registry, ∀ v, e.2.operation = .const v → v.isElement = true

structure Ground.Holds (G : Ground) (s : Session) : Prop where
  registry : s.registry = G.registry
  held : ∀ (c : ContextId) ctx, s.contexts[c]? = some ctx → ∀ e ∈ ctx.entries, ∀ p ∈ e.2.lists, G.lists p.2
  made : ∀ l, G.lists l → ∀ d ∈ s.definitionsOf l, d.IsMade
  fresh : ∀ l, s.lists.size ≤ l → G.lists l
  defaults : ∀ (c : ContextId) ctx, s.contexts[c]? = some ctx → ∀ e ∈ ctx.entries, ∀ v, e.2.default = some v →
    v.isElement = true

namespace Session

variable {s : Session}

/-- The ground of a session: its lists of elements, and the lists that will be made. -/
def ground (s : Session) (elementary : s.Elementary) : Ground where
  registry := s.registry
  lists l := ∀ d ∈ s.definitionsOf l, d.IsMade
  constants := elementary.constants

theorem Elementary.holds (elementary : s.Elementary) : (s.ground elementary).Holds s where
  registry := rfl
  held c ctx there e entry p listed := elementary.definitions c ctx there e entry p listed
  made _ within := within
  fresh l beyond d member := by
    rw [definitionsOf, Array.getD_eq_getD_getElem?, Array.getElem?_eq_none beyond] at member
    cases member
  defaults := elementary.defaults

end Session

namespace Ground

variable {G : Ground} {s t : Session} {c : ContextId}

theorem Holds.elementary (holds : G.Holds s) : s.Elementary where
  definitions c ctx there e entry p listed := holds.made p.2 (holds.held c ctx there e entry p listed)
  defaults := holds.defaults
  constants := holds.registry ▸ G.constants

theorem Holds.of_contents (holds : G.Holds s) (registry : t.registry = s.registry) (contexts : t.contexts = s.contexts)
    (lists : t.lists = s.lists) : G.Holds t := by
  obtain ⟨same, held, made, fresh, defaults⟩ := holds
  refine ⟨registry.trans same, contexts ▸ held, ?_, lists ▸ fresh, contexts ▸ defaults⟩
  intro l within
  rw [definitionsOf, lists]
  exact made l within

/-! ### What is found -/

theorem nearest_mem {α : Type} {f : Context → Option α} {a : α} (found : s.nearest f c = some a) :
    ∃ (b : ContextId) (ctx : Context), s.contexts[b]? = some ctx ∧ f ctx = some a := by
  induction c using Nat.strongRecOn with
  | ind c ih =>
    cases here : s.contexts[c]? with
    | none =>
      rw [nearest, here] at found
      cases found
    | some ctx =>
      cases held : f ctx with
      | some b =>
        rw [nearest_of_found here held] at found
        exact ⟨c, ctx, here, held.trans found⟩
      | none =>
        rw [nearest_of_parent here held, Option.bind_eq_some_iff] at found
        obtain ⟨p, _, there⟩ := found
        by_cases earlier : p < c
        · rw [if_pos earlier] at there
          exact ih p earlier there
        · rw [if_neg earlier] at there
          cases there

theorem lookup_mem {k : DefinitionKind} {ls : List (DefinitionKind × ListId)} {l : ListId} (found : ls.lookup k = some l) :
    ∃ j, (j, l) ∈ ls := by
  induction ls with
  | nil => cases found
  | cons p ls ih =>
    obtain ⟨j, m⟩ := p
    rw [List.lookup_cons] at found
    split at found
    · cases found
      exact ⟨j, List.mem_cons_self ..⟩
    · obtain ⟨i, member⟩ := ih found
      exact ⟨i, List.mem_cons_of_mem _ member⟩

theorem entry_mem (ctx : Context) (v : Value) : (∃ k, (k, ctx.entry v) ∈ ctx.entries) ∨ ctx.entry v = .empty := by
  unfold Context.entry
  cases found : Context.find? v ctx.entries with
  | none => exact .inr rfl
  | some e => exact .inl (Context.find_mem found)

theorem Holds.found (holds : G.Holds s) {v : Value} {k : DefinitionKind} {l : ListId}
    (found : s.definitions? c v k = some l) : G.lists l := by
  obtain ⟨b, ctx, there, listed⟩ := nearest_mem found
  obtain ⟨j, member⟩ := lookup_mem listed
  rcases entry_mem ctx v with ⟨key, entry⟩ | none
  · exact holds.held b ctx there _ entry _ member
  · rw [none] at member
    cases member

/-! ### What is written -/

theorem Holds.newList (holds : G.Holds s) {ds : List Definition} (made : ∀ d ∈ ds, d.IsMade) :
    G.Holds (s.newList ds).2 where
  registry := holds.registry
  held := holds.held
  made l within d member := by
    rw [definitionsOf, Array.getD_eq_getD_getElem?] at member
    change d ∈ ((s.lists.push ds)[l]?.getD []) at member
    rw [Array.getElem?_push] at member
    split at member
    · exact made d member
    · refine holds.made l within d ?_
      rwa [definitionsOf, Array.getD_eq_getD_getElem?]
  fresh l beyond := holds.fresh l (by
    change (s.lists.push ds).size ≤ l at beyond
    rw [Array.size_push] at beyond
    omega)
  defaults := holds.defaults

theorem Holds.setList (holds : G.Holds s) {v : Value} {k : DefinitionKind} {l : ListId} (within : G.lists l) :
    G.Holds (s.updateContext c fun ctx => ctx.setList v k l) := by
  have entries : ∀ (b : ContextId) ctx, (s.updateContext c fun ctx => ctx.setList v k l).contexts[b]? = some ctx →
      ∃ old, s.contexts[b]? = some old ∧ ∀ e ∈ ctx.entries, e ∈ old.entries ∨ e.2 = (old.entry v).setList k l := by
    intro b ctx there
    obtain ⟨old, before, rfl⟩ := found_update there
    split
    · exact ⟨old, before, fun e member => (Context.mem_write member).imp_right And.left⟩
    · exact ⟨old, before, fun e member => .inl member⟩
  refine ⟨holds.registry, ?_, holds.made, holds.fresh, ?_⟩
  · intro b ctx there e entry p listed
    obtain ⟨old, before, either⟩ := entries b ctx there
    rcases either e entry with kept | new
    · exact holds.held b old before e kept p listed
    · rw [new] at listed
      rcases List.mem_cons.1 listed with rfl | rest
      · exact within
      · have inside := (List.mem_filter.1 rest).1
        rcases entry_mem old v with ⟨key, entry⟩ | none
        · exact holds.held b old before _ entry p inside
        · rw [none] at inside
          cases inside
  · intro b ctx there e entry w default
    obtain ⟨old, before, either⟩ := entries b ctx there
    rcases either e entry with kept | new
    · exact holds.defaults b old before e kept w default
    · rw [new] at default
      rcases entry_mem old v with ⟨key, entry⟩ | none
      · exact holds.defaults b old before _ entry w default
      · rw [Entry.setList, none] at default
        cases default

theorem Holds.define (holds : G.Holds s) {v : Value} {k : DefinitionKind} {ds : List Definition}
    (made : ∀ d ∈ ds, d.IsMade) : G.Holds (s.define c v k ds) :=
  (holds.newList made).setList (holds.fresh _ (Nat.le_refl _))

theorem Holds.addDefinition (holds : G.Holds s) {v : Value} {k : DefinitionKind} {d : Definition} (made : d.IsMade) :
    G.Holds (s.addDefinition c v k d) := by
  unfold Session.addDefinition
  split
  · next l found =>
    have within := holds.found found
    have longer : G.Holds { s with lists := s.lists.modify l (· ++ [d]) } := by
      refine ⟨holds.registry, holds.held, ?_, fun m beyond => holds.fresh m ?_, holds.defaults⟩
      · intro m inside e member
        rw [definitionsOf, Array.getD_eq_getD_getElem?] at member
        change e ∈ ((s.lists.modify l (· ++ [d]))[m]?.getD []) at member
        rw [Array.getElem?_modify] at member
        have old : e ∈ s.lists[m]?.getD [] → e.IsMade := fun before =>
          holds.made m inside e (by rwa [definitionsOf, Array.getD_eq_getD_getElem?])
        split at member
        · cases there : s.lists[m]? with
          | none =>
            rw [there] at member
            cases member
          | some ds =>
            rw [there] at member old
            rcases List.mem_append.1 member with before | new
            · exact old before
            · rw [List.mem_singleton.1 new]
              exact made
        · exact old member
      · change (s.lists.modify l (· ++ [d])).size ≤ m at beyond
        rwa [Array.size_modify] at beyond
    exact longer.setList within
  · exact holds.define fun e member => by rw [List.mem_singleton.1 member]; exact made

theorem Holds.newContext (holds : G.Holds s) (name : String) (parent : Option ContextId) :
    G.Holds (s.newContext name parent).2 := by
  have entries : ∀ (b : ContextId) ctx, (s.newContext name parent).2.contexts[b]? = some ctx →
      s.contexts[b]? = some ctx ∨ ctx.entries = [] := by
    intro b ctx there
    change (s.contexts.push (.fresh name parent))[b]? = some ctx at there
    rw [Array.getElem?_push] at there
    split at there
    · cases there
      exact .inr rfl
    · exact .inl there
  refine ⟨holds.registry, ?_, holds.made, holds.fresh, ?_⟩
  · intro b ctx there e entry
    rcases entries b ctx there with before | none
    · exact holds.held b ctx before e entry
    · rw [none] at entry
      cases entry
  · intro b ctx there e entry
    rcases entries b ctx there with before | none
    · exact holds.defaults b ctx before e entry
    · rw [none] at entry
      cases entry

end Ground

/-! ### Two runs beside each other -/

/-- A value that is no element and that a builtin makes: a product repeats what a symbol or an expression
is made of, and a request gives a table. -/
def Foreign (registry : Registry) (d : Value) : Prop :=
  (Arithmetic.Repetition d ∧ ∃ e ∈ registry, e.2.operation = .product) ∨
    ((∃ es, d = .table es) ∧ ∃ e ∈ registry, e.2.operation = .request)

/-- How an evaluation is guarded: not at all, or by an alarm for values that are no elements. -/
abbrev Guard := Option (Value → Error)

/-- From a session on the ground, either all runs are the same, and where they come to a result it has a
property and the session is still on the ground; or every guarded run gives the alarm for one and the same
foreign value. -/
def Follows (G : Ground) {α : Type} (Q : α → Prop) (m : Guard → Eval α) : Prop :=
  ∀ s, G.Holds s →
    ((∀ i, m i s = m none s) ∧ ∀ a t, m none s = .ok a t → Q a ∧ G.Holds t) ∨
      ∃ d, Foreign G.registry d ∧ ∃ u, ∀ alarm, m (some alarm) s = .error (.failure (alarm d)) u

namespace Follows

variable {G : Ground} {α β : Type} {Q : α → Prop} {R : β → Prop}

theorem plain {x : Eval α} (known : ∀ s, G.Holds s → ∀ a t, x s = .ok a t → Q a ∧ G.Holds t) : Follows G Q fun _ => x :=
  fun s holds => .inl ⟨fun _ => rfl, known s holds⟩

theorem pure {a : α} (known : Q a) : Follows G Q fun _ => Pure.pure a :=
  plain fun s holds b t run => by
    obtain ⟨rfl, rfl⟩ := Step.pure_ok.1 run
    exact ⟨known, holds⟩

theorem stop (h : Halt) : Follows G Q fun _ => throw h :=
  plain fun _ _ _ _ run => nomatch run

theorem fail (e : Error) : Follows G Q fun _ => Step.fail e := stop (.failure e)

theorem ofExcept {r : Except Error α} (known : ∀ a, r = .ok a → Q a) : Follows G Q fun _ => Step.ofExcept r :=
  plain fun s holds a t run => by
    obtain ⟨found, rfl⟩ := Step.ofExcept_ok.1 run
    exact ⟨known a found, holds⟩

theorem change {f : Session → Session} (keeps : ∀ s, G.Holds s → G.Holds (f s)) :
    Follows G (fun _ => True) fun _ => (modify f : Eval PUnit) :=
  plain fun s holds a t run => by
    cases run
    exact ⟨trivial, keeps s holds⟩

theorem bind {m : Guard → Eval α} {k : Guard → α → Eval β} (first : Follows G Q m)
    (next : ∀ a, Q a → Follows G R fun i => k i a) : Follows G R fun i => m i >>= k i := by
  intro s holds
  rcases first s holds with ⟨same, known⟩ | ⟨d, foreign, u, rings⟩
  · cases run : m none s with
    | error h t =>
      have stopped : ∀ i, (m i >>= k i) s = .error h t := fun i => Step.bind_of_error ((same i).trans run)
      exact .inl ⟨fun i => (stopped i).trans (stopped none).symm, fun a t ran => by cases (stopped none).symm.trans ran⟩
    | ok a t =>
      obtain ⟨fine, after⟩ := known a t run
      have goesOn : ∀ i, (m i >>= k i) s = k i a t := fun i => Step.bind_of_ok ((same i).trans run)
      simp only [goesOn]
      exact next a fine t after
  · exact .inr ⟨d, foreign, u, fun alarm => Step.bind_of_error (rings alarm)⟩

theorem read {k : Guard → Session → Eval β} (next : ∀ s, G.Holds s → Follows G R fun i => k i s) :
    Follows G R fun i => get >>= k i :=
  bind (Q := G.Holds) (plain fun s holds a t run => by cases run; exact ⟨holds, holds⟩) next

theorem count : Follows G (fun _ => True) fun _ => countReplacement :=
  plain fun s holds a t run => by
    rw [countReplacement_eq] at run
    split at run
    · cases run
    · cases run
      exact ⟨trivial, holds.of_contents rfl rfl rfl⟩

theorem ending {f : Session → Session} {g : Session → Session} {m k : Guard → Eval α} (run : Follows G Q m)
    (enter : ∀ s, G.Holds s → G.Holds (g s)) (leave : ∀ s, G.Holds s → G.Holds (f s))
    (same : ∀ i s, G.Holds s → k i s = Step.ending f (m i (g s))) : Follows G Q k := by
  intro s holds
  simp only [same _ s holds]
  rcases run (g s) (enter s holds) with ⟨equal, known⟩ | ⟨d, foreign, u, rings⟩
  · refine .inl ⟨fun i => by rw [equal i], fun a t ran => ?_⟩
    obtain ⟨u, inner, rfl⟩ := Step.ending_ok.1 ran
    obtain ⟨fine, after⟩ := known a u inner
    exact ⟨fine, leave u after⟩
  · exact .inr ⟨d, foreign, f u, fun alarm => by rw [rings alarm]; rfl⟩

theorem inside {m : Guard → Eval α} (c : ContextId) (run : Follows G Q m) : Follows G Q fun i => Scope.inside c (m i) :=
  run.ending (g := (pushed · c)) (f := popped) (fun _ holds => holds.of_contents rfl rfl rfl)
    (fun _ holds => holds.of_contents rfl rfl rfl) fun i s _ => inside_eq c (m i) s

theorem deeper {m : Guard → Eval α} (run : Follows G Q m) : Follows G Q fun i => Symbolic.deeper (m i) := by
  intro s holds
  by_cases exceeded : (s.depth + 1 : Int) > s.recursionLimit
  · have stopped := fun i => (deeper_eq (m i) s).trans (if_pos exceeded)
    exact .inl ⟨fun i => (stopped i).trans (stopped none).symm, fun a t ran => by cases (stopped none).symm.trans ran⟩
  · have nested := run.ending (g := entered) (f := exited) (k := fun i s => Step.ending exited (m i s.entered))
      (fun _ holds => holds.of_contents rfl rfl rfl) (fun _ holds => holds.of_contents rfl rfl rfl) (fun _ _ _ => rfl)
    have same : ∀ i, Symbolic.deeper (m i) s = Step.ending exited (m i s.entered) := fun i =>
      (deeper_eq (m i) s).trans (if_neg exceeded)
    simpa only [same] using nested s holds

end Follows
end Symbolic
