import Symbolic.Proofs.Evaluation.Calls
import Symbolic.Proofs.Evaluation.Scoping

/-!
What a block leaves behind. `Block[{x = v, …}, body]` notes for each local the list of own definitions that its
context finds, wherever it finds it, and evaluates the body in a context of its own. If that succeeds, it writes the
noted lists into its own context. Main statement: a block that fails leaves all contexts as they were; one that
succeeds leaves them as they were except that its context afterwards holds a list for every local by itself, which
is the one that it found before, or an empty one if it found none. So the context is as it was exactly if it
held the definitions of all locals by itself, and what an ancestor is given for a local is not seen from it any
more.
-/
namespace Symbolic

open Value Session

namespace Scope

def Local.target : Local → Value
  | .bare x => x
  | .initial x _ => x

def Declares (ls : List Local) (y : Symbol) : Prop := ∃ l ∈ ls, l.target = .symbol y

theorem declares_cons {l : Local} {ls : List Local} {y : Symbol} :
    Declares (l :: ls) y ↔ l.target = .symbol y ∨ Declares ls y := by
  simp [Declares]

/-- The initial values of locals, evaluated one after another as a block does it, change neither contexts nor
definitions. -/
def Effectless (ev : Evaluator) (outer inner : ContextId) : List Local → Session → Prop
  | [], _ => True
  | .bare x :: ls, s => ∀ l t, ownList outer x s = .ok l t → Effectless ev outer inner ls (t.define inner x .own [])
  | .initial x v :: ls, s =>
    ((Step.final (ev outer v s)).contexts = s.contexts ∧ (Step.final (ev outer v s)).lists = s.lists) ∧
      ∀ w t l u, ev outer v s = .ok w t → ownList outer x t = .ok l u →
        Effectless ev outer inner ls (u.define inner x .own [⟨x, w, .null⟩])

/-- Noting the definitions of a variable finds a list, makes one, or fails and changes nothing. -/
theorem ownList_cases (c : ContextId) (x : Value) (s : Session) :
    (∃ e, requireKeys [x] = .error e ∧ ownList c x s = .error (.failure e) s) ∨
      (∃ l, s.definitions? c x .own = some l ∧ ownList c x s = .ok l s) ∨
        s.definitions? c x .own = none ∧ ownList c x s = .ok s.lists.size (s.newList []).2 := by
  rw [Admissible.ownList_eq]
  cases checked : requireKeys [x] with
  | error e => exact .inl ⟨e, rfl, rfl⟩
  | ok _ =>
    cases found : s.definitions? c x .own with
    | some l => exact .inr (.inl ⟨l, rfl, by simp only [pure_bind, Step.ofExcept, perform, found]; rfl⟩)
    | none => exact .inr (.inr ⟨rfl, by simp only [pure_bind, Step.ofExcept, perform, found]; rfl⟩)

end Scope

open Scope (Declares Effectless Local)

namespace Session

/-- Everything of the first session is in the second as it was. -/
structure Persists (s t : Session) : Prop where
  contexts : ∀ (a : ContextId) (ctx : Context), s.contexts[a]? = some ctx → t.contexts[a]? = some ctx
  lists : ∀ (l : ListId) (ds : List Definition), s.lists[l]? = some ds → t.lists[l]? = some ds

/-- A list of own definitions that is noted for a symbol: the one that the context finds, or a new one without
definitions if it finds none. -/
def Notes (s : Session) (c : ContextId) (y : Symbol) (l : ListId) (t : Session) : Prop :=
  s.definitions? c (.symbol y) .own = some l ∨
    s.definitions? c (.symbol y) .own = none ∧ s.lists.size ≤ l ∧ t.lists[l]? = some []

variable {s t u : Session} {c inner a : ContextId} {y : Symbol} {l : ListId}

theorem Persists.trans (first : Persists s t) (second : Persists t u) : Persists s u :=
  ⟨fun a ctx found => second.contexts a ctx (first.contexts a ctx found),
    fun l ds found => second.lists l ds (first.lists l ds found)⟩

theorem Persists.of_contents (contexts : t.contexts = s.contexts) (lists : t.lists = s.lists) : Persists s t :=
  ⟨fun _ _ found => contexts ▸ found, fun _ _ found => lists ▸ found⟩

theorem Persists.newList (s : Session) (ds : List Definition) : Persists s (s.newList ds).2 :=
  ⟨fun _ _ found => found, fun _ _ found => lists_newList found ds⟩

theorem Persists.newContext (s : Session) (name : String) (parent : Option ContextId) :
    Persists s (s.newContext name parent).2 := by
  refine ⟨fun a ctx found => ?_, fun _ _ found => found⟩
  have old := (Array.getElem?_eq_some_iff.1 found).1
  exact (Array.getElem?_push.trans (if_neg (Nat.ne_of_lt old))).trans found

theorem contexts_define (t : Session) (a b : ContextId) (v : Value) (k : DefinitionKind) (ds : List Definition) :
    (t.define a v k ds).contexts[b]? =
      if a = b then t.contexts[b]?.map (·.setList v k t.lists.size) else t.contexts[b]? :=
  contexts_update (t.newList ds).2 a b _

theorem Persists.define (persists : Persists s t) (new : s.contexts.size ≤ a) (v : Value) (k : DefinitionKind)
    (ds : List Definition) : Persists s (t.define a v k ds) where
  contexts b ctx found := by
    have old := (Array.getElem?_eq_some_iff.1 found).1
    have apart : a ≠ b := (Nat.ne_of_lt (Nat.lt_of_lt_of_le old new)).symm
    rw [contexts_define, if_neg apart]
    exact persists.contexts b ctx found
  lists l es found := lists_newList (persists.lists l es found) ds

theorem Persists.nearest {α : Type} (persists : Persists s t) (old : a < s.contexts.size) (f : Context → Option α) :
    t.nearest f a = s.nearest f a :=
  nearest_of_unchanged (c := s.contexts.size) (fun b ctx found _ => persists.contexts b ctx found) old old

theorem Persists.definitions (persists : Persists s t) (old : a < s.contexts.size) (v : Value) (k : DefinitionKind) :
    t.definitions? a v k = s.definitions? a v k :=
  persists.nearest old _

theorem Persists.size_lists (persists : Persists s t) : s.lists.size ≤ t.lists.size := by
  by_contra fewer
  have found := Array.getElem?_eq_getElem (Nat.lt_of_not_le fewer)
  exact Nat.lt_irrefl _ (Array.getElem?_eq_some_iff.1 (persists.lists _ _ found)).1

theorem Notes.mono (notes : s.Notes c y l t) (blank : t.lists[l]? = some [] → u.lists[l]? = some []) :
    s.Notes c y l u :=
  notes.imp id fun absent => ⟨absent.1, absent.2.1, blank absent.2.2⟩

theorem Notes.of_persists (notes : t.Notes c y l u) (persists : Persists s t) (here : c < s.contexts.size) :
    s.Notes c y l u := by
  rw [Notes, persists.definitions here] at notes
  exact notes.imp id fun absent => ⟨absent.1, Nat.le_trans persists.size_lists absent.2.1, absent.2.2⟩

theorem ownList_ok {x : Value} (noting : Scope.ownList c x t = .ok l u) :
    Persists t u ∧ u.contexts = t.contexts ∧ ∀ y, x = .symbol y → t.Notes c y l u := by
  rcases Scope.ownList_cases c x t with ⟨_, _, ran⟩ | ⟨m, found, ran⟩ | ⟨absent, ran⟩
  all_goals
    rw [ran] at noting
    cases noting
  · exact ⟨.of_contents rfl rfl, rfl, fun y key => .inl (key ▸ found)⟩
  · have made : (t.newList []).2.lists[t.lists.size]? = some [] := Array.getElem?_push.trans (if_pos rfl)
    exact ⟨.newList t [], rfl, fun y key => .inr ⟨key ▸ absent, Nat.le_refl _, made⟩⟩

theorem ownList_error {x : Value} {h : Halt} (noting : Scope.ownList c x t = .error h u) : u = t := by
  rcases Scope.ownList_cases c x t with ⟨_, _, ran⟩ | ⟨_, _, ran⟩ | ⟨_, ran⟩
  all_goals
    rw [ran] at noting
    cases noting
  rfl

/-! ### The noted lists -/

/-- Where a block has come while it notes the lists of its locals: what was there before is as it was, and its own
context defines nothing but them. -/
structure Shadowed (s : Session) (c inner : ContextId) (saved : List (Value × ListId)) (t : Session) : Prop where
  persists : Persists s t
  child : ∃ ctx, t.contexts[inner]? = some ctx ∧ ctx.parent = some c ∧ ∀ x, ctx.down x = none
  noted : ∀ p ∈ saved, ∀ y, p.1 = .symbol y → s.Notes c y p.2 t

def Noted (saved : List (Value × ListId)) (y : Symbol) : Prop := ∃ p ∈ saved, p.1 = .symbol y

end Session

theorem Session.noted_write {saved : List (Value × ListId)} {x : Value} {l : ListId} {y : Symbol} :
    Noted (Context.write x l saved) y ↔ x = .symbol y ∨ Noted saved y := by
  have found : ∀ es : List (Value × ListId), Noted es y ↔ (Context.find? (.symbol y) es).isSome := by
    intro es
    induction es with
    | nil => simp [Noted, Context.find?]
    | cons e es ih =>
      obtain ⟨k, m⟩ := e
      by_cases same : k = .symbol y
      · simp [Noted, Context.find?, same, same_symbol_iff.2 rfl]
      · have other : (Value.symbol y).same k = false := Bool.eq_false_iff.2 fun hit => same (symbol_same_iff.1 hit)
        have later : Noted ((k, m) :: es) y ↔ Noted es y := by simp [Noted, same]
        rw [later, ih, Context.find?, other]
        rfl
  rw [found, found, Context.find?_write]
  by_cases same : x = .symbol y
  · rw [if_pos (same_symbol_iff.2 same)]
    exact iff_of_true rfl (.inl same)
  · rw [if_neg (mt same_symbol_iff.1 same), or_iff_right same]

section Shadowing

variable {s t : Session} {c inner : ContextId} {saved : List (Value × ListId)}

theorem Session.Shadowed.of_contents {u : Session} (shadowed : s.Shadowed c inner saved t)
    (contexts : u.contexts = t.contexts) (lists : u.lists = t.lists) : s.Shadowed c inner saved u where
  persists := shadowed.persists.trans (.of_contents contexts lists)
  child := contexts ▸ shadowed.child
  noted p member y key := (shadowed.noted p member y key).mono fun blank => lists ▸ blank

theorem Session.Shadowed.note (shadowed : s.Shadowed c inner saved t) (here : c < s.contexts.size)
    (new : s.contexts.size ≤ inner) (x : Value) (ds : List Definition) {l : ListId} {u : Session}
    (noting : Scope.ownList c x t = .ok l u) :
    s.Shadowed c inner (Context.write x l saved) (u.define inner x .own ds) := by
  obtain ⟨grown, contexts, notes⟩ := ownList_ok noting
  refine ⟨(shadowed.persists.trans grown).define new x .own ds, ?_, fun p member y key => ?_⟩
  · obtain ⟨ctx, found, parent, blank⟩ := shadowed.child
    refine ⟨ctx.setList x .own u.lists.size, ?_, parent, fun z => ?_⟩
    · rw [contexts_define, if_pos rfl, contexts, found]
      rfl
    · rw [Context.down_setList, if_neg (by simp), blank z]
  · have kept : s.Notes c y p.2 u := by
      rcases Context.mem_write member with earlier | ⟨rfl, keys⟩
      · exact (shadowed.noted p earlier y key).mono (grown.lists _ [])
      · exact (notes y (keys y key)).of_persists shadowed.persists here
    exact kept.mono fun blank => lists_newList blank ds

/-- How noting the lists of some locals ends: what was there before is as it was, also if it fails; if it succeeds,
lists are noted for these locals and for those before. -/
structure Session.EndsShadowed (s : Session) (c inner : ContextId) (saved : List (Value × ListId)) (ls : List Local)
    (run : EStateM.Result Halt Session (List (Value × ListId))) : Prop where
  persists : Persists s (Step.final run)
  noted : ∀ all u, run = .ok all u → s.Shadowed c inner all u ∧ ∀ y, Noted all y ↔ Noted saved y ∨ Declares ls y

theorem Session.EndsShadowed.of_error {ls : List Local} {h : Halt} (persists : Persists s t) :
    s.EndsShadowed c inner saved ls (.error h t) :=
  ⟨persists, fun _ _ ran => by cases ran⟩

theorem Session.Shadowed.endsShadowed {ev : Evaluator} {d : Local} {ls : List Local} {x : Value} {ds : List Definition}
    (shadowed : s.Shadowed c inner saved t) (target : d.target = x)
    (later : ∀ l u, Scope.ownList c x t = .ok l u → s.EndsShadowed c inner (Context.write x l saved) ls
      (Scope.shadow ev c inner (Context.write x l saved) ls (u.define inner x .own ds))) :
    s.EndsShadowed c inner saved (d :: ls) ((Scope.ownList c x >>= fun l =>
      modify (·.define inner x .own ds) >>= fun _ => Scope.shadow ev c inner (Context.write x l saved) ls) t) := by
  cases noting : Scope.ownList c x t with
  | error h u =>
    rw [Step.bind_of_error noting, ownList_error noting]
    exact .of_error shadowed.persists
  | ok l u =>
    rw [Step.bind_of_ok noting]
    obtain ⟨persists, noted⟩ := later l u noting
    refine ⟨persists, fun all v ran => ⟨(noted all v ran).1, fun y => ?_⟩⟩
    rw [(noted all v ran).2 y, noted_write, Scope.declares_cons, target, or_assoc, or_left_comm]

theorem shadow_endsShadowed {ev : Evaluator} {ls : List Local} (effectless : Effectless ev c inner ls t)
    (shadowed : s.Shadowed c inner saved t) (here : c < s.contexts.size) (new : s.contexts.size ≤ inner) :
    s.EndsShadowed c inner saved ls (Scope.shadow ev c inner saved ls t) := by
  induction ls generalizing saved t with
  | nil =>
    refine ⟨shadowed.persists, fun all u ran => ?_⟩
    cases ran
    exact ⟨shadowed, fun y => by simp [Declares]⟩
  | cons d ls ih =>
    cases d with
    | bare x =>
      exact shadowed.endsShadowed rfl fun l u noting =>
        ih (effectless l u noting) (shadowed.note here new x [] noting)
    | initial x v =>
      obtain ⟨⟨contexts, lists⟩, effectless⟩ := effectless
      cases value : ev c v t with
      | error h u =>
        rw [value] at contexts lists
        rw [show Scope.shadow ev c inner saved (.initial x v :: ls) t = _ from Step.bind_of_error value]
        exact .of_error (shadowed.persists.trans (.of_contents contexts lists))
      | ok w u =>
        rw [value] at contexts lists
        have still := shadowed.of_contents contexts lists
        rw [show Scope.shadow ev c inner saved (.initial x v :: ls) t = _ from Step.bind_of_ok value]
        exact still.endsShadowed rfl fun l r noting =>
          ih (effectless w u l r value noting) (still.note here new x _ noting)

end Shadowing

/-! ### Writing the lists back -/

def Context.reclaim (ctx : Context) (saved : List (Value × ListId)) : Context :=
  saved.foldl (fun ctx p => ctx.setList p.1 .own p.2) ctx

namespace Context

variable {ctx : Context} {saved : List (Value × ListId)} {y : Symbol}

theorem reclaim_eq : ctx.reclaim saved = { ctx with entries := (ctx.reclaim saved).entries } := by
  induction saved generalizing ctx with
  | nil => rfl
  | cons p saved ih => exact ih

theorem default_reclaim : ((ctx.reclaim saved).entry (.symbol y)).default = (ctx.entry (.symbol y)).default := by
  induction saved generalizing ctx with
  | nil => rfl
  | cons p saved ih =>
    refine ih.trans ?_
    rw [entry_setList]
    split <;> rfl

theorem list_reclaim {k : DefinitionKind} (other : k = .own → ¬ Noted saved y) :
    ((ctx.reclaim saved).entry (.symbol y)).list? k = (ctx.entry (.symbol y)).list? k := by
  induction saved generalizing ctx with
  | nil => rfl
  | cons p saved ih =>
    refine (ih fun own noted => other own ?_).trans ?_
    · obtain ⟨q, member, key⟩ := noted
      exact ⟨q, List.mem_cons_of_mem p member, key⟩
    · rw [entry_setList]
      split
      · next here =>
        have kind : k ≠ .own := fun own => other own ⟨p, List.mem_cons_self, same_symbol_iff.1 here⟩
        rw [Entry.list?_setList, if_neg kind]
      · rfl

/-- A symbol for which a list is noted has one of the lists that are noted for it. -/
theorem own_reclaim (ctx : Context) (noted : Noted saved y) :
    ∃ p ∈ saved, p.1 = .symbol y ∧ ((ctx.reclaim saved).entry (.symbol y)).list? .own = some p.2 := by
  induction saved generalizing ctx with
  | nil => simp [Noted] at noted
  | cons p saved ih =>
    by_cases later : Noted saved y
    · obtain ⟨q, member, key, held⟩ := ih (ctx.setList p.1 .own p.2) later
      exact ⟨q, List.mem_cons_of_mem p member, key, held⟩
    · have here : p.1 = .symbol y := by
        obtain ⟨q, member, key⟩ := noted
        rcases List.mem_cons.1 member with rfl | member
        · exact key
        · exact absurd ⟨q, member, key⟩ later
      refine ⟨p, List.mem_cons_self, here, ?_⟩
      have last : ((ctx.reclaim (p :: saved)).entry (.symbol y)).list? .own =
          ((ctx.setList p.1 .own p.2).entry (.symbol y)).list? .own := list_reclaim fun _ => later
      rw [last, entry_setList, if_pos (same_symbol_iff.2 here), Entry.list?_setList, if_pos rfl]

end Context

namespace Session

def reclaim (s : Session) (c : ContextId) (saved : List (Value × ListId)) : Session :=
  saved.foldl (fun s p => s.updateContext c fun ctx => ctx.setList p.1 .own p.2) s

variable {s t u : Session} {c a inner : ContextId} {saved : List (Value × ListId)}

theorem lists_reclaim : (s.reclaim c saved).lists = s.lists := by
  induction saved generalizing s with
  | nil => rfl
  | cons p saved ih => exact ih

theorem contexts_reclaim :
    (s.reclaim c saved).contexts[a]? = if c = a then s.contexts[a]?.map (·.reclaim saved) else s.contexts[a]? := by
  induction saved generalizing s with
  | nil =>
    split
    · exact (Option.map_id' (x := s.contexts[a]?)).symm
    · rfl
  | cons p saved ih =>
    refine ih.trans ?_
    rw [contexts_update]
    split
    · rw [Option.map_map]
      rfl
    · rfl

/-! ### The block -/

/-- Definitions may have been added to lists, as an evaluation in a context does it: bodies that were assigned to
symbols whose definitions the context finds there. -/
def Appended (s : Session) (c : ContextId) (t : Session) : Prop :=
  ∀ (l : ListId) (ds : List Definition), s.lists[l]? = some ds → ∃ more, t.lists[l]? = some (ds ++ more) ∧
    ∀ d ∈ more, ∃ x r, d = ⟨.symbol x, r, .null⟩ ∧ s.definitions? c (.symbol x) .down = some l

/-- What a block with some locals, begun in a session, has left of its context. -/
structure Resumed (s : Session) (c : ContextId) (ls : List Local) (t : Session) (ctx now : Context) : Prop where
  rest : now = { ctx with entries := now.entries }
  default : ∀ y, (now.entry (.symbol y)).default = (ctx.entry (.symbol y)).default
  kept : ∀ y k, (k = .own → ¬ Declares ls y) → (now.entry (.symbol y)).list? k = (ctx.entry (.symbol y)).list? k
  /-- The context holds a list for each local. -/
  held : ∀ y, Declares ls y → ∃ l, (now.entry (.symbol y)).list? .own = some l ∧ s.Notes c y l t

/-- What a block with some locals has left of the session in which it was begun. -/
structure AfterBlock (s : Session) (c : ContextId) (ls : List Local) (t : Session) : Prop where
  others : ∀ (a : ContextId) (ctx : Context), a ≠ c → s.contexts[a]? = some ctx → t.contexts[a]? = some ctx
  here : ∃ ctx now, s.contexts[c]? = some ctx ∧ t.contexts[c]? = some now ∧ Resumed s c ls t ctx now
  appended : s.Appended c t

variable {ls : List Local}

/-- The context is as it was exactly if it held the definitions of all locals. -/
theorem Resumed.unchanged_iff {ctx now : Context} (resumed : Resumed s c ls t ctx now)
    (found : s.contexts[c]? = some ctx) :
    (∀ y k, (now.entry (.symbol y)).list? k = (ctx.entry (.symbol y)).list? k) ↔
      ∀ y, Declares ls y → ((ctx.entry (.symbol y)).list? .own).isSome := by
  refine ⟨fun same y declared => ?_, fun own y k => ?_⟩
  · obtain ⟨l, held, -⟩ := resumed.held y declared
    rw [← same, held]
    rfl
  · by_cases other : k = .own → ¬ Declares ls y
    · exact resumed.kept y k other
    · obtain ⟨rfl, declared⟩ := Classical.not_imp.1 other
      obtain ⟨l, held, notes⟩ := resumed.held y (Classical.not_not.1 declared)
      obtain ⟨m, before⟩ := Option.isSome_iff_exists.1 (own y (Classical.not_not.1 declared))
      have finds : s.definitions? c (.symbol y) .own = some m := nearest_of_found found before
      rcases notes with same | absent
      · rw [held, before, ← finds, same]
      · rw [finds] at absent
        cases absent.1

/-- A local is looked up no further than in the context of the block. -/
theorem AfterBlock.nearest {y : Symbol} (after : AfterBlock s c ls t) (declared : Declares ls y)
    (same : u.contexts[c]? = t.contexts[c]?) :
    u.definitions? c (.symbol y) .own = t.definitions? c (.symbol y) .own := by
  obtain ⟨ctx, now, -, found, resumed⟩ := after.here
  obtain ⟨l, held, -⟩ := resumed.held y declared
  have before : t.definitions? c (.symbol y) .own = some l := nearest_of_found found held
  exact (nearest_of_found (same.trans found) held).trans before.symm

/-- The body is evaluated in the new context. What it adds to lists that were there before is what an evaluation in
the outer context could add. -/
theorem Shadowed.isolated (shadowed : s.Shadowed c inner saved t) (here : c < s.contexts.size) (below : c < inner)
    (isolated : Isolated t inner u) {l : ListId} {ds : List Definition} (found : t.lists[l]? = some ds) :
    ∃ more, u.lists[l]? = some (ds ++ more) ∧
      ∀ d ∈ more, ∃ x r, d = ⟨.symbol x, r, .null⟩ ∧ s.definitions? c (.symbol x) .down = some l := by
  obtain ⟨more, now, added⟩ := isolated.extended l ds found
  refine ⟨more, now, fun d member => ?_⟩
  obtain ⟨x, r, shape, finds⟩ := added d member
  obtain ⟨ctx, there, parent, blank⟩ := shadowed.child
  refine ⟨x, r, shape, ?_⟩
  rw [definitions_down, nearest_of_parent there (blank x), parent, Option.bind_some, if_pos below] at finds
  rw [← finds, ← definitions_down]
  exact (shadowed.persists.definitions here _ _).symm

theorem Shadowed.contexts (shadowed : s.Shadowed c inner saved t) (new : s.contexts.size ≤ inner)
    (isolated : Isolated t inner u) (a : ContextId) (ctx : Context) (found : s.contexts[a]? = some ctx) :
    u.contexts[a]? = some ctx := by
  have old := (Array.getElem?_eq_some_iff.1 found).1
  exact isolated.others a ctx (shadowed.persists.contexts a ctx found) (Nat.ne_of_lt (Nat.lt_of_lt_of_le old new))

theorem Shadowed.reclaim (shadowed : s.Shadowed c inner saved t) (here : c < s.contexts.size)
    (new : s.contexts.size ≤ inner) (noted : ∀ y, Noted saved y ↔ Declares ls y) (isolated : Isolated t inner u)
    (listed : ∀ y l, s.definitions? c (.symbol y) .down = some l → l < s.lists.size) :
    AfterBlock s c ls (u.reclaim c saved) := by
  have below : c < inner := Nat.lt_of_lt_of_le here new
  have kept := shadowed.contexts new isolated
  refine ⟨fun a ctx other found => ?_, ?_, fun l ds found => ?_⟩
  · rw [contexts_reclaim, if_neg other.symm]
    exact kept a ctx found
  · obtain ⟨ctx, found⟩ : ∃ ctx, s.contexts[c]? = some ctx := ⟨_, Array.getElem?_eq_getElem here⟩
    refine ⟨ctx, ctx.reclaim saved, found, ?_, Context.reclaim_eq, fun y => Context.default_reclaim,
      fun y k other => ?_, fun y declared => ?_⟩
    · rw [contexts_reclaim, if_pos rfl, kept c ctx found]
      rfl
    · exact Context.list_reclaim fun own held => other own ((noted y).1 held)
    · obtain ⟨p, member, key, held⟩ := Context.own_reclaim ctx ((noted y).2 declared)
      refine ⟨p.2, held, ?_⟩
      rcases shadowed.noted p member y key with finds | ⟨absent, made, blank⟩
      · exact .inl finds
      · -- A new list is not one to which the body adds.
        obtain ⟨more, now, added⟩ := shadowed.isolated here below isolated blank
        have none : more = [] := by
          refine List.eq_nil_iff_forall_not_mem.2 fun d member => ?_
          obtain ⟨x, r, -, finds⟩ := added d member
          exact Nat.not_lt.2 made (listed x p.2 finds)
        refine .inr ⟨absent, made, ?_⟩
        rw [lists_reclaim, now, none]
        rfl
  · rw [lists_reclaim]
    exact shadowed.isolated here below isolated (shadowed.persists.lists l ds found)

end Session

section Blocks

variable {fuel : Nat} {c : ContextId} {s : Session} {e spec body : Value} {rest : List Value}

/-- Evaluates the body of a block in the context that was made for it and then writes noted lists back. -/
def blockBody (ev : Evaluator) (c inner : ContextId) (saved : List (Value × ListId)) (body : Value) : Eval Value := do
  let r ← Scope.inside inner (ev inner body)
  modify (·.reclaim c saved)
  return r

/-- What a block does, from the session in which it has made its context. -/
theorem blockScope_eq (ev : Evaluator) :
    Scope.blockScope ev c e (spec :: body :: rest) s.entered =
      (Scope.shadow ev c s.contexts.size [] (Scope.locals spec) >>= fun saved =>
        blockBody ev c s.contexts.size saved body) (s.entered.newContext "Block" (some c)).2 :=
  rfl

theorem shadowed_newContext (s : Session) (c : ContextId) :
    s.Shadowed c s.contexts.size [] (s.entered.newContext "Block" (some c)).2 where
  persists := (Persists.newContext s "Block" (some c)).trans (.of_contents rfl rfl)
  child := ⟨_, Array.getElem?_push.trans (if_pos rfl), rfl, fun _ => rfl⟩
  noted _ member := nomatch member

theorem Session.Persists.appended {t : Session} (persists : Persists s t) : s.Appended c t :=
  fun l ds found => ⟨[], by rw [List.append_nil, persists.lists l ds found], by simp⟩

/-- A block that fails, in its locals or in its body, writes nothing back; one that succeeds writes back all lists. -/
theorem blockScope_after (e body : Value) (rest : List Value) (here : c < s.contexts.size)
    (listed : ∀ y l, s.definitions? c (.symbol y) .down = some l → l < s.lists.size)
    (effectless :
      Effectless (evaluate fuel) c s.contexts.size (Scope.locals spec) (s.entered.newContext "Block" (some c)).2) :
    (∀ h t, Scope.blockScope (evaluate fuel) c e (spec :: body :: rest) s.entered = .error h t →
      (∀ (a : ContextId) (ctx : Context), s.contexts[a]? = some ctx → t.contexts[a]? = some ctx) ∧ s.Appended c t) ∧
    ∀ r t, Scope.blockScope (evaluate fuel) c e (spec :: body :: rest) s.entered = .ok r t →
      s.AfterBlock c (Scope.locals spec) t := by
  rw [blockScope_eq]
  obtain ⟨persists, success⟩ := shadow_endsShadowed effectless (shadowed_newContext s c) here (Nat.le_refl _)
  cases shadowing : Scope.shadow (evaluate fuel) c s.contexts.size [] (Scope.locals spec)
      (s.entered.newContext "Block" (some c)).2 with
  | error h t =>
    rw [Step.bind_of_error shadowing]
    rw [shadowing] at persists
    refine ⟨fun _ _ failed => ?_, fun _ _ ran => by cases ran⟩
    cases failed
    exact ⟨persists.contexts, persists.appended⟩
  | ok saved t =>
    rw [Step.bind_of_ok shadowing]
    obtain ⟨shadowed, noted⟩ := success saved t shadowing
    have isolated := (evaluate_isolates fuel (.inl rfl) body).inside s.contexts.size t (.refl t s.contexts.size)
    cases ran : Scope.inside s.contexts.size (evaluate fuel s.contexts.size body) t with
    | error h u =>
      have failed : blockBody (evaluate fuel) c s.contexts.size saved body t = .error h u := Step.bind_of_error ran
      rw [ran] at isolated
      refine ⟨fun _ _ stopped => ?_, fun _ _ returned => ?_⟩
      · cases failed.symm.trans stopped
        exact ⟨shadowed.contexts (Nat.le_refl _) isolated, fun l ds found =>
          shadowed.isolated here here isolated (shadowed.persists.lists l ds found)⟩
      · cases failed.symm.trans returned
    | ok r u =>
      have done : blockBody (evaluate fuel) c s.contexts.size saved body t = .ok r (u.reclaim c saved) :=
        Step.bind_of_ok ran
      rw [ran] at isolated
      refine ⟨fun _ _ stopped => ?_, fun _ _ returned => ?_⟩
      · cases done.symm.trans stopped
      · cases done.symm.trans returned
        have exactly : ∀ y, Noted saved y ↔ Declares (Scope.locals spec) y :=
          fun y => (noted y).trans (or_iff_right (by simp [Noted]))
        exact shadowed.reclaim here (Nat.le_refl _) exactly isolated listed

/-- Whatever its body does, a block that is evaluated leaves all contexts as they were if it fails. If it succeeds, its
own context holds by itself, for each local, the list of own definitions that it found before, or an empty one, and all
else in it is as it was. So it is as it was exactly if it held the lists of all locals by itself; and afterwards it
finds the same for each local, whatever other contexts come to hold. -/
theorem block_leaves_lists (fuel : Nat) (body : Value) (rest : List Value) (here : c < s.contexts.size)
    (listed : ∀ y l, s.definitions? c (.symbol y) .down = some l → l < s.lists.size)
    (effectless : Effectless (evaluate (fuel + 1)) c s.contexts.size (Scope.locals spec)
      (s.entered.newContext "Block" (some c)).2) :
    let block := call "Block" (spec :: body :: rest)
    let run := Scope.blockScope (evaluate (fuel + 1)) c block (spec :: body :: rest)
    (s.registry = Builtin.standard → s.Undefined c "Block" → s.Unarranged c "Block" →
      (∀ a ∈ spec :: body :: rest, a.argsOf? "Sequence" = none) →
      evaluate (fuel + 2) c block s = deeper (run >>= again (evaluate (fuel + 1)) c block) s) ∧
    (∀ h t, run s.entered = .error h t →
      (∀ (a : ContextId) (ctx : Context), s.contexts[a]? = some ctx → t.contexts[a]? = some ctx) ∧ s.Appended c t) ∧
    ∀ r t, run s.entered = .ok r t →
      s.AfterBlock c (Scope.locals spec) t ∧
      (∀ ctx now, s.contexts[c]? = some ctx → t.contexts[c]? = some now →
        ((∀ y k, (now.entry (.symbol y)).list? k = (ctx.entry (.symbol y)).list? k) ↔
          ∀ y, Declares (Scope.locals spec) y → ((ctx.entry (.symbol y)).list? .own).isSome)) ∧
      ∀ y, Declares (Scope.locals spec) y → ∀ u : Session, u.contexts[c]? = t.contexts[c]? →
        u.definitions? c (.symbol y) .own = t.definitions? c (.symbol y) .own := by
  intro block run
  obtain ⟨failing, returning⟩ := blockScope_after block body rest here listed effectless
  refine ⟨fun standard undefined unarranged single => ?_, failing, fun r t ran => ?_⟩
  · have verbatim : Verbatim "Block" .blockScope := ⟨rfl, by decide, by decide⟩
    exact evaluate_held verbatim standard undefined unarranged single
  · have after := returning r t ran
    refine ⟨after, fun ctx now before later => ?_, fun y declared u same => after.nearest declared same⟩
    obtain ⟨ctx', now', found, found', resumed⟩ := after.here
    cases found.symm.trans before
    cases found'.symm.trans later
    exact resumed.unchanged_iff before

end Blocks

theorem effectless_of_atoms {fuel : Nat} {c inner : ContextId} {ls : List Local} {s : Session}
    (atoms : ∀ x v, .initial x v ∈ ls → v.isAtom = true) : Effectless (evaluate (fuel + 1)) c inner ls s := by
  induction ls generalizing s with
  | nil => trivial
  | cons d ls ih =>
    have later : ∀ x v, .initial x v ∈ ls → v.isAtom = true :=
      fun x v member => atoms x v (List.mem_cons_of_mem d member)
    cases d with
    | bare x => exact fun l t _ => ih later
    | initial x v =>
      refine ⟨?_, fun w t l u _ _ => ih later⟩
      have atom := atoms x v List.mem_cons_self
      rw [evaluate, deeper_eq, evaluateWith_atom atom]
      split <;> exact ⟨rfl, rfl⟩

/-- A session in which `x` is `1` in the global context, and a context below it. -/
def inheriting : Session :=
  ((Session.initial.define globalId (sym "x") .own [⟨sym "x", int 1, .null⟩]).newContext "Inner" (some globalId)).2

theorem inheriting_unset (y : Symbol) : inheriting.definitions? 1 (.symbol y) .down = none := by
  refine Option.eq_none_iff_forall_not_mem.2 fun l found => ?_
  obtain ⟨b, ctx, there, held⟩ := Ground.nearest_mem found
  rcases b with _ | _ | b
  · cases there
    have blank : ((Context.fresh "Global" none).setList (sym "x") .own 0).down y = none := by
      rw [Context.down_setList, if_neg (by simp)]
      rfl
    cases blank.symm.trans held
  · cases there
    cases held
  · cases there

/-- `Block[{x = 2, y}, x]` in the context below, which held neither `x` nor `y` and then holds both. -/
theorem block_leaves_lists_inherited :
    let spec := ofItems [call "Set" [sym "x", int 2], sym "y"]
    let block := call "Block" [spec, sym "x"]
    let run := Scope.blockScope (evaluate 4) 1 block [spec, sym "x"]
    evaluate 5 1 block inheriting = deeper (run >>= again (evaluate 4) 1 block) inheriting ∧
      ∃ r t, run inheriting.entered = .ok r t ∧ r.same (int 2) = true ∧ inheriting.AfterBlock 1 (Scope.locals spec) t ∧
        ∀ now, t.contexts[1]? = some now → ¬ ∀ y k, (now.entry (.symbol y)).list? k =
          ((Context.fresh "Inner" (some globalId)).entry (.symbol y)).list? k := by
  intro spec block run
  have silent : inheriting.Silent 1 "Block" := silent_of_isSilent (by decide +kernel) 1
  have listed : ∀ y l, inheriting.definitions? 1 (.symbol y) .down = some l → l < inheriting.lists.size := by
    intro y l found
    cases (inheriting_unset y).symm.trans found
  have atoms : ∀ x v, .initial x v ∈ Scope.locals spec → v.isAtom = true := by
    intro x v member
    rcases List.mem_pair.1 (show _ ∈ [Local.initial (sym "x") (int 2), .bare (sym "y")] from member) with same | same
    · cases same
      rfl
    · cases same
  obtain ⟨whole, -, returning⟩ := block_leaves_lists 3 (sym "x") [] (by decide) listed (effectless_of_atoms atoms)
  obtain ⟨r, t, ran, two⟩ : ∃ r t, run inheriting.entered = .ok r t ∧ r.same (int 2) = true :=
    Step.returns_iff.1 (by decide +kernel)
  obtain ⟨after, unchanged, -⟩ := returning r t ran
  refine ⟨whole rfl silent.toUndefined silent.unarranged (by decide), r, t, ran, two, after, fun now found same => ?_⟩
  have declared : Declares (Scope.locals spec) ⟨"x"⟩ := ⟨.initial (sym "x") (int 2), List.mem_cons_self, rfl⟩
  cases (unchanged (.fresh "Inner" (some globalId)) now rfl found).1 same ⟨"x"⟩ declared

/-- After a block about `x` in the context below, a later assignment above is not seen there any more, which it is
without the block. A block also leaves an empty list for a variable without definitions, and a body that is assigned to
a variable in it stays. -/
theorem block_hides_assignment :
    let block := call "Block" [ofItems [call "Set" [sym "x", int 2]], sym "x"]
    let later : Eval Value := do
      let _ ← evaluate 8 globalId (call "Set" [sym "x", int 5])
      evaluate 8 1 (sym "x")
    (Step.returns (same (int 5)) (later inheriting) = true ∧
      Step.returns (same (int 1)) ((evaluate 8 1 block >>= fun _ => later) inheriting) = true) ∧
    Step.checks (fun _ t => (t.definitions? globalId (sym "x") .own).isSome)
      (evaluate 8 globalId (call "Block" [ofItems [sym "x"], int 3]) initial) = true ∧
    Step.checks (fun _ t => (t.definitionsOf 0).length == 2) (evaluate 8 globalId
      (call "Block" [ofItems [sym "f"], call "SetDelayed" [sym "f", int 2]])
      (initial.define globalId (sym "f") .down [⟨sym "f", int 1, .null⟩])) = true := by
  decide +kernel

end Symbolic
