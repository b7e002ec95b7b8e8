import Symbolic.Proofs.Evaluation.Isolation
import Symbolic.Stored

/-!
What is looked up in a context after contexts have been made and written to in any order. A context has an entry
for the attributes of a symbol and for each type of values stored about it. An entry is what the last change
to it made of it; it counts even if it is empty, unless it was removed. A lookup goes up through the
parents of a context and stops at the first one with an entry. So the answer is a function of the
history of changes (`read_nearest`), which the tables of the contexts represent (`Represents.apply`), and a
change is seen only from where the lookup gets as far as the entry it changed.
-/
namespace Symbolic

open Value

/-! ### Entries and changes -/

namespace ValueType

def name : ValueType → String
  | .definitions .own => "own"
  | .definitions .down => "down"
  | .definitions .up => "up"
  | .definitions .sub => "sub"
  | .definitions .numeric => "n"
  | .definitions .format => "format"
  | .default => "default"

theorem ofName_name (t : ValueType) : ofName t.name = .ok t := by
  rcases t with ⟨_ | _ | _ | _ | _ | _⟩ | _ <;> rfl

/-- What is stored under a type if definitions and a default value are given. -/
def content (ds : List Definition) (v : Value) : ValueType → Value
  | .definitions _ => definitionsValue ds
  | .default => v

end ValueType

/-- What there can be an entry for about a symbol: its attributes, and each type of stored values. -/
inductive Slot where
  | attributes
  | stored (t : ValueType)
  deriving DecidableEq

def Slot.nothing : Slot → Value
  | .attributes => .set []
  | .stored t => t.content [] .null

/-- What is done to contexts: making one, and setting or clearing entries about a symbol. -/
inductive Edit where
  | newContext (name : String) (parent : Option ContextId)
  | store (c : ContextId) (x : Symbol) (t : ValueType) (ds : List Definition) (v : Value)
  /-- Stores nothing under one type, which leaves an entry. -/
  | empty (c : ContextId) (x : Symbol) (t : ValueType)
  /-- Removes the entries of all types. -/
  | clear (c : ContextId) (x : Symbol)
  | setAttributes (c : ContextId) (x : Symbol) (as : List Symbol)
  | clearAttributes (c : ContextId) (x : Symbol)

namespace Edit

def apply (s : Session) : Edit → Except Error Session
  | .newContext name parent => .ok (s.newContext name parent).2
  | .store c x t ds v => s.store c (.symbol x) t.name ds v
  | .empty c x t => s.clearStored c (.symbol x) (some t.name)
  | .clear c x => s.clearStored c (.symbol x) none
  | .setAttributes c x as => s.assignAttributes c (.symbol x) (as.map .symbol)
  | .clearAttributes c x => s.dropAttributes c (.symbol x)

def target : Edit → Option (ContextId × Symbol)
  | .newContext .. => none
  | .store c x .. | .empty c x _ | .clear c x | .setAttributes c x _ | .clearAttributes c x => some (c, x)

/-- What becomes of an entry of the target; nothing if the change does not concern it. -/
def writes : Edit → Slot → Option (Option Value)
  | .newContext .., _ => none
  | .store _ _ t ds v, slot => if slot = .stored t then some (some (t.content ds v)) else none
  | .empty _ _ t, slot => if slot = .stored t then some (some slot.nothing) else none
  | .clear .., slot => if slot = .attributes then none else some none
  | .setAttributes _ _ as, slot => if slot = .attributes then some (some (.set (distinct (as.map .symbol)))) else none
  | .clearAttributes .., slot => if slot = .attributes then some none else none

/-- What becomes of an entry in a context; nothing if the change does not concern it. -/
def effect (c : ContextId) (x : Symbol) (slot : Slot) (edit : Edit) : Option (Option Value) :=
  if edit.target = some (c, x) then edit.writes slot else none

theorem effect_of_target {c : ContextId} {y : Symbol} (edit : Edit) (target : edit.target = some (c, y)) (a : ContextId)
    (x : Symbol) (slot : Slot) : edit.effect a x slot = if c = a ∧ y = x then edit.writes slot else none := by
  rw [effect, target]
  simp only [Option.some.injEq, Prod.mk.injEq]

def made : Edit → Option (Option ContextId)
  | .newContext _ parent => some parent
  | _ => none

theorem made_of_target {c : ContextId} {y : Symbol} (edit : Edit) (target : edit.target = some (c, y)) :
    edit.made = none := by
  cases edit with
  | newContext => cases target
  | _ => rfl

/-- Whether the context that is changed, or the parent of a new one, is among the first contexts. -/
def isWithin (n : Nat) : Edit → Bool
  | .newContext _ parent => parent.all (· < n)
  | .store c .. | .empty c .. | .clear c _ | .setAttributes c .. | .clearAttributes c _ => c < n

end Edit

/-! ### Histories -/

namespace History

/-- The parents of the contexts after a history of changes. In the beginning there is one context, without a parent. -/
def parents (h : List Edit) : List (Option ContextId) := none :: h.filterMap Edit.made

/-- Whether each change in a row is to contexts that exist by then. -/
def isSound (n : Nat) : List Edit → Bool
  | [] => true
  | edit :: h => edit.isWithin n && isSound (n + edit.made.toList.length) h

def run (s : Session) (h : List Edit) : Except Error Session := h.foldlM Edit.apply s

/-- The entry that a context has itself: what the last change that concerned it made of it. -/
def held (h : List Edit) (c : ContextId) (x : Symbol) (slot : Slot) : Option Value :=
  (h.reverse.findSome? (Edit.effect c x slot)).getD none

/-- A context, its parent, the parent of that, and so on. A parent was made before its children. -/
def lineage (ps : List (Option ContextId)) (d : ContextId) : List ContextId :=
  d :: match ps[d]? with
    | some (some p) => if p < d then lineage ps p else []
    | _ => []
termination_by d

/-- The nearest entry, from a context up through its parents. -/
def answer (h : List Edit) (d : ContextId) (x : Symbol) (slot : Slot) : Value :=
  ((lineage (parents h) d).findSome? (held h · x slot)).getD slot.nothing

theorem held_append (h : List Edit) (edit : Edit) (c : ContextId) (x : Symbol) (slot : Slot) :
    held (h ++ [edit]) c x slot = (edit.effect c x slot).getD (held h c x slot) := by
  rw [held, List.reverse_append, List.reverse_singleton, List.singleton_append, List.findSome?_cons]
  cases edit.effect c x slot with
  | none => rfl
  | some e => rfl

theorem parents_append (h : List Edit) (edit : Edit) :
    parents (h ++ [edit]) = parents h ++ edit.made.toList := by
  rw [parents, parents, List.filterMap_append, List.cons_append]
  cases made : edit.made with
  | none => simp [made]
  | some p => simp [made]

end History

namespace Context

variable {α : Type} {x : Symbol}

theorem find?_erase (y : Symbol) (es : List (Value × α)) :
    find? (.symbol x) (erase (.symbol y) es) = if y = x then none else find? (.symbol x) es := by
  induction es with
  | nil => simp [erase, find?]
  | cons e es ih =>
    obtain ⟨l, a⟩ := e
    by_cases dropped : (Value.symbol y).same l = true
    · obtain rfl := symbol_same_iff.1 dropped
      have rest : erase (.symbol y) ((.symbol y, a) :: es) = erase (.symbol y) es := by simp [erase, dropped]
      have skipped : y ≠ x → (Value.symbol x).same (.symbol y) = false := fun other =>
        Bool.eq_false_iff.2 fun same => other (Value.symbol.inj (symbol_same_iff.1 same))
      rw [rest, ih]
      by_cases same : y = x
      · rw [if_pos same, if_pos same]
      · rw [if_neg same, if_neg same, find?, skipped same]
        rfl
    · have rest : erase (.symbol y) ((l, a) :: es) = (l, a) :: erase (.symbol y) es := by simp [erase, dropped]
      rw [rest, find?, ih, find?]
      by_cases here : (Value.symbol x).same l = true
      · have other : y ≠ x := by
          rintro rfl
          exact dropped here
        rw [if_pos here, if_pos here, if_neg other]
      · rw [if_neg here, if_neg here]

theorem find?_write_symbol (y : Symbol) (a : α) (es : List (Value × α)) :
    find? (.symbol x) (write (.symbol y) a es) = if y = x then some a else find? (.symbol x) es := by
  rw [find?_write]
  by_cases same : y = x
  · rw [if_pos same, if_pos (symbol_same_iff.2 (by rw [same]))]
  · rw [if_neg same, if_neg fun hit => same (Value.symbol.inj (symbol_same_iff.1 hit)).symm]

theorem entry_write (ctx : Context) (y : Symbol) (e : Entry) :
    ({ ctx with entries := write (.symbol y) e ctx.entries } : Context).entry (.symbol x) =
      if y = x then e else ctx.entry (.symbol x) := by
  rw [entry, find?_write_symbol]
  split <;> rfl

theorem entry_clearEntry (ctx : Context) (y : Symbol) :
    (ctx.clearEntry (.symbol y)).entry (.symbol x) = if y = x then .empty else ctx.entry (.symbol x) := by
  rw [entry, clearEntry, find?_erase]
  split <;> rfl

end Context

namespace Session

open History

variable {s t : Session} {c d : ContextId} {x y : Symbol} {h : List Edit} {slot : Slot}

/-! ### What the tables hold -/

def read (s : Session) (d : ContextId) (x : Symbol) : Slot → Except Error Value
  | .attributes => s.attributesValue d (.symbol x)
  | .stored t => s.stored d (.symbol x) t.name

def holds (s : Session) (ctx : Context) (x : Symbol) : Slot → Option Value
  | .attributes => (Context.find? (.symbol x) ctx.attributes).map .set
  | .stored .default => (ctx.entry (.symbol x)).default
  | .stored (.definitions k) => ((ctx.entry (.symbol x)).list? k).map fun l => definitionsValue (s.definitionsOf l)

theorem nearest_map {α β : Type} (g : α → β) (f : Context → Option α) (c : ContextId) :
    s.nearest (fun ctx => (f ctx).map g) c = (s.nearest f c).map g := by
  induction c using Nat.strongRecOn with
  | ind c ih =>
    cases here : s.contexts[c]? with
    | none =>
      rw [nearest, nearest, here]
      rfl
    | some ctx =>
      cases held : f ctx with
      | some a => rw [nearest_of_found here held, nearest_of_found here (by rw [held]; rfl), Option.map_some]
      | none =>
        rw [nearest_of_parent here held, nearest_of_parent here (by rw [held]; rfl)]
        cases ctx.parent with
        | none => rfl
        | some p =>
          simp only [Option.bind_some]
          split
          · next earlier => exact ih p earlier
          · rfl

theorem read_eq (s : Session) (d : ContextId) (x : Symbol) (slot : Slot) :
    s.read d x slot = .ok ((s.nearest (fun ctx => s.holds ctx x slot) d).getD slot.nothing) := by
  match slot with
  | .attributes =>
    show Except.ok (Value.set (s.attributesOf d (.symbol x))) = _
    simp only [holds, nearest_map, attributesOf]
    cases s.nearest (fun ctx => Context.find? (.symbol x) ctx.attributes) d <;> rfl
  | .stored .default => rfl
  | .stored (.definitions k) =>
    rw [read, stored, ValueType.ofName_name]
    show Except.ok (definitionsValue ((s.definitions? d (.symbol x) k).elim [] s.definitionsOf)) = _
    simp only [holds, nearest_map, definitions?]
    cases s.nearest (fun ctx => (ctx.entry (.symbol x)).list? k) d <;> rfl

/-- The lists that a context has for symbols exist. -/
def Listed (s : Session) (ctx : Context) : Prop :=
  ∀ x k l, (ctx.entry (.symbol x)).list? k = some l → l < s.lists.size

/-- A change of a context writes to the entries of one symbol. -/
structure Writes (s : Session) (y : Symbol) (w : Slot → Option (Option Value)) (f : Context → Context) : Prop where
  parent : ∀ ctx, (f ctx).parent = ctx.parent
  holds : ∀ ctx x slot, s.holds (f ctx) x slot = if y = x then (w slot).getD (s.holds ctx x slot)
    else s.holds ctx x slot
  listed : ∀ ctx, s.Listed ctx → s.Listed (f ctx)

theorem writes_setDefault (s : Session) (c : ContextId) (y : Symbol) (ds : List Definition) (v : Value) :
    s.Writes y (Edit.writes (.store c y .default ds v)) (·.setDefault (.symbol y) v) where
  parent _ := rfl
  holds ctx x slot := by
    match slot with
    | .attributes => split <;> rfl
    | .stored .default =>
      rw [holds, Context.setDefault, Context.entry_write]
      split <;> rfl
    | .stored (.definitions k) =>
      rw [holds, Context.setDefault, Context.entry_write]
      by_cases same : y = x
      · subst same
        rw [if_pos rfl, if_pos rfl]
        rfl
      · rw [if_neg same, if_neg same]
        rfl
  listed ctx listed x k l found := by
    rw [Context.setDefault, Context.entry_write] at found
    split at found
    · exact listed y k l found
    · exact listed x k l found

theorem writes_setList {l : ListId} (new : l < s.lists.size) (c : ContextId) (y : Symbol) (k : DefinitionKind)
    (v : Value) : s.Writes y (Edit.writes (.store c y (.definitions k) (s.definitionsOf l) v)) (·.setList (.symbol y) k l) where
  parent _ := rfl
  holds ctx x slot := by
    match slot with
    | .attributes => split <;> rfl
    | .stored .default =>
      rw [holds, Context.setList, Context.entry_write]
      by_cases same : y = x
      · subst same
        rw [if_pos rfl, if_pos rfl]
        rfl
      · rw [if_neg same, if_neg same]
        rfl
    | .stored (.definitions j) =>
      rw [holds, Context.setList, Context.entry_write]
      by_cases same : y = x
      · subst same
        rw [if_pos rfl, if_pos rfl, Entry.list?_setList]
        by_cases kind : j = k
        · subst kind
          simp [Edit.writes, ValueType.content]
        · simp [Edit.writes, kind, holds]
      · rw [if_neg same, if_neg same]
        rfl
  listed ctx listed x j m found := by
    rw [Context.setList, Context.entry_write] at found
    split at found
    · rw [Entry.list?_setList] at found
      split at found
      · cases found
        exact new
      · exact listed y j m found
    · exact listed x j m found

theorem writes_clearEntry (s : Session) (c : ContextId) (y : Symbol) :
    s.Writes y (Edit.writes (.clear c y)) (·.clearEntry (.symbol y)) where
  parent _ := rfl
  holds ctx x slot := by
    match slot with
    | .attributes => split <;> rfl
    | .stored .default =>
      rw [holds, Context.entry_clearEntry]
      split <;> rfl
    | .stored (.definitions k) =>
      rw [holds, Context.entry_clearEntry]
      split <;> rfl
  listed ctx listed x k l found := by
    rw [Context.entry_clearEntry] at found
    split at found
    · cases found
    · exact listed x k l found

theorem writes_setAttributes (s : Session) (c : ContextId) (y : Symbol) (as : List Symbol) :
    s.Writes y (Edit.writes (.setAttributes c y as)) (·.setAttributes (.symbol y) (distinct (as.map .symbol))) where
  parent _ := rfl
  holds ctx x slot := by
    match slot with
    | .attributes =>
      rw [holds, Context.setAttributes, Context.find?_write_symbol]
      split <;> rfl
    | .stored .default => split <;> rfl
    | .stored (.definitions k) => split <;> rfl
  listed _ listed := listed

theorem writes_clearAttributes (s : Session) (c : ContextId) (y : Symbol) :
    s.Writes y (Edit.writes (.clearAttributes c y)) (·.clearAttributes (.symbol y)) where
  parent _ := rfl
  holds ctx x slot := by
    match slot with
    | .attributes =>
      rw [holds, Context.clearAttributes, Context.find?_erase]
      split <;> rfl
    | .stored .default => split <;> rfl
    | .stored (.definitions k) => split <;> rfl
  listed _ listed := listed

/-! ### Tables and histories -/

/-- The contexts of a session are those that a history of edits makes, with the entries that it leaves. -/
structure Represents (s : Session) (h : List Edit) : Prop where
  size : s.contexts.size = (parents h).length
  parent : ∀ (c : ContextId) (ctx : Context), s.contexts[c]? = some ctx → (parents h)[c]? = some ctx.parent
  older : ∀ (c : ContextId) (ctx : Context) (p : ContextId), s.contexts[c]? = some ctx → ctx.parent = some p → p < c
  holds : ∀ (c : ContextId) (ctx : Context) x slot, s.contexts[c]? = some ctx → s.holds ctx x slot = held h c x slot
  listed : ∀ (c : ContextId) (ctx : Context), s.contexts[c]? = some ctx → s.Listed ctx
  /-- What has not been made has not been written to. -/
  blank : ∀ c x slot, s.contexts.size ≤ c → held h c x slot = none

theorem found_initial {ctx : Context} (found : initial.contexts[c]? = some ctx) :
    c = globalId ∧ ctx = .fresh "Global" none := by
  cases c with
  | zero => exact ⟨rfl, (Option.some.inj found).symm⟩
  | succ c => simp [initial] at found

theorem represents_initial : Represents initial [] where
  size := rfl
  parent c ctx found := by
    obtain ⟨rfl, rfl⟩ := found_initial found
    rfl
  older c ctx p found parent := by
    obtain ⟨rfl, rfl⟩ := found_initial found
    cases parent
  holds c ctx x slot found := by
    obtain ⟨rfl, rfl⟩ := found_initial found
    rcases slot with _ | _ | _ <;> rfl
  listed c ctx found x k l listed := by
    obtain ⟨rfl, rfl⟩ := found_initial found
    cases listed
  blank _ _ _ _ := rfl

theorem Represents.update {f : Context → Context} {edit : Edit} (represents : Represents s h)
    (target : edit.target = some (c, y)) (old : c < s.contexts.size) (writes : s.Writes y edit.writes f) :
    Represents (s.updateContext c f) (h ++ [edit]) := by
  have sameParents : parents (h ++ [edit]) = parents h := by
    rw [parents_append, edit.made_of_target target]
    exact List.append_nil _
  have sizes : (s.updateContext c f).contexts.size = s.contexts.size := Array.size_modify
  have kept : ∀ a ctx, (if c = a then f ctx else ctx).parent = ctx.parent := by
    intro a ctx
    split
    · exact writes.parent ctx
    · rfl
  constructor
  · rw [sizes, represents.size, sameParents]
  · intro a now there
    obtain ⟨ctx, was, rfl⟩ := found_update there
    rw [sameParents, kept]
    exact represents.parent a ctx was
  · intro a now p there parent
    obtain ⟨ctx, was, rfl⟩ := found_update there
    rw [kept] at parent
    exact represents.older a ctx p was parent
  · intro a now x slot there
    obtain ⟨ctx, was, rfl⟩ := found_update there
    rw [held_append, edit.effect_of_target target, ← represents.holds a ctx x slot was]
    show s.holds _ x slot = _
    by_cases here : c = a
    · rw [if_pos here, writes.holds]
      by_cases same : y = x
      · rw [if_pos same, if_pos ⟨here, same⟩]
      · rw [if_neg same, if_neg (same ·.2)]
        rfl
    · rw [if_neg here, if_neg (here ·.1)]
      rfl
  · intro a now there
    obtain ⟨ctx, was, rfl⟩ := found_update there
    have listed := represents.listed a ctx was
    split
    · exact writes.listed ctx listed
    · exact listed
  · intro a x slot beyond
    rw [sizes] at beyond
    rw [held_append, edit.effect_of_target target, if_neg fun both : c = a ∧ y = x => Nat.not_lt.2 beyond (both.1 ▸ old)]
    exact represents.blank a x slot beyond

theorem Represents.newList (represents : Represents s h) (ds : List Definition) : Represents (s.newList ds).2 h := by
  have longer : (s.newList ds).2.lists.size = s.lists.size + 1 := Array.size_push ..
  refine ⟨represents.size, represents.parent, represents.older, ?_, ?_, represents.blank⟩
  · intro c ctx x slot found
    rw [← represents.holds c ctx x slot found]
    match slot with
    | .attributes => rfl
    | .stored .default => rfl
    | .stored (.definitions k) =>
      rw [Session.holds, Session.holds]
      cases listed : (ctx.entry (.symbol x)).list? k with
      | none => rfl
      | some l =>
        have old := represents.listed c ctx found x k l listed
        have kept : (s.newList ds).2.lists[l]? = s.lists[l]? := Array.getElem?_push.trans (if_neg (Nat.ne_of_lt old))
        rw [Option.map_some, Option.map_some, definitionsOf, definitionsOf, Array.getD_eq_getD_getElem?, kept,
          Array.getD_eq_getD_getElem?]
  · intro c ctx found x k l listed
    rw [longer]
    exact Nat.lt_succ_of_lt (represents.listed c ctx found x k l listed)

theorem Represents.newContext {parent : Option ContextId} (represents : Represents s h)
    (old : ∀ p, parent = some p → p < s.contexts.size) (name : String) :
    Represents (s.newContext name parent).2 (h ++ [.newContext name parent]) := by
  have longer : parents (h ++ [.newContext name parent]) = parents h ++ [parent] := parents_append ..
  have same (a : ContextId) (x : Symbol) (slot : Slot) :
      held (h ++ [.newContext name parent]) a x slot = held h a x slot := held_append ..
  have sizes : (s.newContext name parent).2.contexts.size = s.contexts.size + 1 := Array.size_push ..
  have found : ∀ a now, (s.newContext name parent).2.contexts[a]? = some now →
      s.contexts[a]? = some now ∧ a < s.contexts.size ∨ a = s.contexts.size ∧ now = .fresh name parent := by
    intro a now there
    rw [show (s.newContext name parent).2.contexts[a]? = _ from Array.getElem?_push] at there
    split at there
    · next last => exact .inr ⟨last, (Option.some.inj there).symm⟩
    · exact .inl ⟨there, (Array.getElem?_eq_some_iff.1 there).1⟩
  constructor
  · rw [sizes, represents.size, longer, List.length_append]
    rfl
  · intro a now there
    rw [longer]
    rcases found a now there with ⟨was, before⟩ | ⟨rfl, rfl⟩
    · rw [List.getElem?_append_left (represents.size ▸ before)]
      exact represents.parent a now was
    · rw [represents.size, List.getElem?_concat_length]
      rfl
  · intro a now p there up
    rcases found a now there with ⟨was, _⟩ | ⟨rfl, rfl⟩
    · exact represents.older a now p was up
    · exact old p up
  · intro a now x slot there
    rw [same]
    rcases found a now there with ⟨was, _⟩ | ⟨rfl, rfl⟩
    · exact represents.holds a now x slot was
    · rw [represents.blank _ x slot (Nat.le_refl _)]
      rcases slot with _ | _ | _ <;> rfl
  · intro a now there
    rcases found a now there with ⟨was, _⟩ | ⟨rfl, rfl⟩
    · exact represents.listed a now was
    · intro x k l listed
      cases listed
  · intro a x slot beyond
    rw [same]
    refine represents.blank a x slot ?_
    omega

theorem Represents.apply {edit : Edit} (represents : Represents s h) (within : edit.isWithin s.contexts.size = true) :
    ∃ t, edit.apply s = .ok t ∧ Represents t (h ++ [edit]) := by
  have stores {edit : Edit} {c : ContextId} {x : Symbol} (u : ValueType) (ds : List Definition) (v : Value)
      (target : edit.target = some (c, x)) (old : c < s.contexts.size)
      (same : edit.writes = Edit.writes (.store c x u ds v)) :
      ∃ t, s.store c (.symbol x) u.name ds v = .ok t ∧ Represents t (h ++ [edit]) := by
    rw [store, ValueType.ofName_name]
    match u with
    | .default => exact ⟨_, rfl, represents.update target old (same ▸ writes_setDefault s c x ds v)⟩
    | .definitions k =>
      refine ⟨_, rfl, ?_⟩
      have new : s.lists.size < (s.newList ds).2.lists.size := by
        rw [show (s.newList ds).2.lists.size = _ from Array.size_push ..]
        exact Nat.lt_succ_self _
      have placed : (s.newList ds).2.definitionsOf s.lists.size = ds := by
        rw [definitionsOf, Array.getD_eq_getD_getElem?,
          show (s.newList ds).2.lists[s.lists.size]? = some ds from Array.getElem?_push.trans (if_pos rfl)]
        rfl
      have writes := writes_setList (s := (s.newList ds).2) new c x k v
      rw [placed, ← same] at writes
      exact (represents.newList ds).update target old writes
  cases edit with
  | newContext name parent =>
    refine ⟨_, rfl, represents.newContext (fun p up => ?_) name⟩
    subst up
    simpa [Edit.isWithin] using within
  | store c x u ds v => exact stores u ds v rfl (of_decide_eq_true within) rfl
  | empty c x u =>
    refine stores u [] .null rfl (of_decide_eq_true within) (funext fun slot => ?_)
    by_cases here : slot = .stored u
    · simp [Edit.writes, here, Slot.nothing]
    · simp [Edit.writes, here]
  | clear c x => exact ⟨_, rfl, represents.update rfl (of_decide_eq_true within) (writes_clearEntry s c x)⟩
  | setAttributes c x as =>
    have keys : requireKeys (.symbol x :: as.map .symbol) = .ok () := by
      refine if_pos (areKeys_of_isElement fun v member => ?_)
      rcases List.mem_cons.1 member with rfl | later
      · rfl
      · obtain ⟨a, _, rfl⟩ := List.mem_map.1 later
        rfl
    rw [Edit.apply, assignAttributes, keys]
    exact ⟨_, rfl, represents.update rfl (of_decide_eq_true within) (writes_setAttributes s c x as)⟩
  | clearAttributes c x =>
    exact ⟨_, rfl, represents.update rfl (of_decide_eq_true within) (writes_clearAttributes s c x)⟩

theorem Represents.run {edits : List Edit} (represents : Represents s h)
    (sound : isSound (parents h).length edits = true) :
    ∃ t, History.run s edits = .ok t ∧ Represents t (h ++ edits) := by
  induction edits generalizing s h with
  | nil => exact ⟨s, rfl, (List.append_nil h).symm ▸ represents⟩
  | cons edit edits ih =>
    obtain ⟨within, soundLater⟩ := Bool.and_eq_true_iff.1 sound
    obtain ⟨t, here, now⟩ := represents.apply (represents.size ▸ within)
    rw [← List.length_append, ← parents_append] at soundLater
    obtain ⟨u, later, finally_⟩ := ih now soundLater
    refine ⟨u, ?_, ?_⟩
    · rw [History.run, List.foldlM_cons, here]
      exact later
    · rwa [List.append_assoc] at finally_

/-! ### Lookups -/

theorem Represents.lineage_eq {ctx : Context} (represents : Represents s h) (found : s.contexts[d]? = some ctx) :
    lineage (parents h) d = d :: ctx.parent.elim [] (lineage (parents h)) := by
  rw [lineage, represents.parent d ctx found]
  cases up : ctx.parent with
  | none => rfl
  | some p => simp [represents.older d ctx p found up]

theorem Represents.nearest (represents : Represents s h) (made : d < s.contexts.size) (x : Symbol) (slot : Slot) :
    s.nearest (fun ctx => s.holds ctx x slot) d = (lineage (parents h) d).findSome? (held h · x slot) := by
  induction d using Nat.strongRecOn with
  | ind d ih =>
    have found : s.contexts[d]? = some s.contexts[d] := Array.getElem?_eq_getElem made
    have here := represents.holds d _ x slot found
    rw [represents.lineage_eq found, List.findSome?_cons]
    cases holds : held h d x slot with
    | some v => rw [nearest_of_found found (here.trans holds)]
    | none =>
      rw [nearest_of_parent found (here.trans holds)]
      cases up : s.contexts[d].parent with
      | none => rfl
      | some p =>
        have earlier : p < d := represents.older d _ p found up
        simp only [Option.bind_some, if_pos earlier]
        exact ih p earlier (Nat.lt_trans earlier made)

theorem Represents.read (represents : Represents s h) (made : d < (parents h).length) (x : Symbol) (slot : Slot) :
    s.read d x slot = .ok (answer h d x slot) := by
  rw [read_eq, represents.nearest (represents.size ▸ made), answer]

end Session

namespace History

open Session

variable {h : List Edit} {edit : Edit} {d : ContextId} {x : Symbol} {slot : Slot}

theorem lineage_append {ps qs : List (Option ContextId)} (old : d < ps.length) :
    lineage (ps ++ qs) d = lineage ps d := by
  induction d using Nat.strongRecOn with
  | ind d ih =>
    rw [lineage, lineage, List.getElem?_append_left old]
    cases ps[d]? with
    | none => rfl
    | some up =>
      cases up with
      | none => rfl
      | some p =>
        simp only
        split
        · next earlier => rw [ih p earlier (Nat.lt_trans earlier old)]
        · rfl

/-- Two searches of a list have different results only if they come to an item where they differ. -/
theorem findSome?_ne {α β : Type} {f g : α → Option β} {as : List α} (differ : as.findSome? f ≠ as.findSome? g) :
    ∃ before a after, as = before ++ a :: after ∧ (∀ b ∈ before, f b = none) ∧ f a ≠ g a := by
  induction as with
  | nil => exact absurd rfl differ
  | cons a as ih =>
    by_cases same : f a = g a
    · rw [List.findSome?_cons, List.findSome?_cons, ← same] at differ
      cases here : f a with
      | some r =>
        rw [here] at differ
        exact absurd rfl differ
      | none =>
        rw [here] at differ
        obtain ⟨before, b, after, rfl, passed, apart⟩ := ih differ
        exact ⟨a :: before, b, after, rfl, List.forall_mem_cons.2 ⟨here, passed⟩, apart⟩
    · exact ⟨[], a, as, rfl, by simp, same⟩

/-- An edit changes the answer in a context only if it concerns an entry that the lookup gets to. -/
theorem answer_append_ne (old : d < (parents h).length) (differ : answer (h ++ [edit]) d x slot ≠ answer h d x slot) :
    ∃ c before after, edit.target = some (c, x) ∧ (edit.writes slot).isSome = true ∧
      lineage (parents h) d = before ++ c :: after ∧ ∀ a ∈ before, held h a x slot = none := by
  have searched : (lineage (parents h) d).findSome? (held h · x slot) ≠
      (lineage (parents h) d).findSome? (held (h ++ [edit]) · x slot) := by
    intro same
    rw [answer, answer, parents_append, lineage_append old, same] at differ
    exact differ rfl
  obtain ⟨before, c, after, split, passed, apart⟩ := findSome?_ne searched
  rw [held_append, Edit.effect] at apart
  by_cases target : edit.target = some (c, x)
  · refine ⟨c, before, after, target, ?_, split, passed⟩
    rw [if_pos target] at apart
    cases written : edit.writes slot with
    | some _ => rfl
    | none =>
      rw [written] at apart
      exact absurd rfl apart
  · rw [if_neg target] at apart
    exact absurd rfl apart

/-- After any history of edits, whatever tree of contexts it makes, every lookup answers with the nearest entry: what the
last edit of that symbol and that type of value made of it, in the first context of the lineage where this is not
nothing. And one more edit changes the answers only for its own symbol, only for what it writes to, and only
from contexts whose lineage gets to the edited one before another that has such an entry. -/
theorem read_nearest (sound : isSound 1 h = true) (within : edit.isWithin (parents h).length = true) :
    ∃ s t, run initial h = .ok s ∧ edit.apply s = .ok t ∧ s.contexts.size = (parents h).length ∧
      ∀ d < s.contexts.size, ∀ x slot, s.read d x slot = .ok (answer h d x slot) ∧
        t.read d x slot = .ok (answer (h ++ [edit]) d x slot) ∧
        (t.read d x slot ≠ s.read d x slot → ∃ c before after, edit.target = some (c, x) ∧
          (edit.writes slot).isSome = true ∧ lineage (parents h) d = before ++ c :: after ∧
          ∀ a ∈ before, held h a x slot = none) := by
  obtain ⟨s, ran, represents⟩ := represents_initial.run sound
  rw [List.nil_append] at represents
  obtain ⟨t, applied, representsToo⟩ := represents.apply (represents.size ▸ within)
  refine ⟨s, t, ran, applied, represents.size, fun d made x slot => ?_⟩
  rw [represents.size] at made
  have madeToo : d < (parents (h ++ [edit])).length := by
    rw [parents_append, List.length_append]
    omega
  have first := represents.read made x slot
  have second := representsToo.read madeToo x slot
  refine ⟨first, second, fun differ => answer_append_ne made fun same => differ ?_⟩
  rw [first, second, same]

/-- A definition in the outermost of three contexts, and in the middle one an entry without any. -/
def shadowing : List Edit :=
  [.newContext "middle" (some 0), .store 0 ⟨"x"⟩ (.definitions .own) [⟨sym "x", int 1, .null⟩] .null,
    .newContext "inner" (some 1), .empty 1 ⟨"x"⟩ (.definitions .own)]

/-- The innermost context finds the empty entry, and once this has been removed the definition. -/
theorem read_nearest_shadowing :
    ∃ s t, run initial shadowing = .ok s ∧ (Edit.clear 1 ⟨"x"⟩).apply s = .ok t ∧
      s.read 2 ⟨"x"⟩ (.stored (.definitions .own)) = .ok (.list []) ∧
      t.read 2 ⟨"x"⟩ (.stored (.definitions .own)) = .ok (definitionsValue [⟨sym "x", int 1, .null⟩]) := by
  have sound : isSound 1 shadowing = true := by decide
  have within : (Edit.clear 1 ⟨"x"⟩).isWithin (parents shadowing).length = true := by decide
  obtain ⟨s, t, ran, applied, size, reads⟩ := read_nearest sound within
  have made : 2 < s.contexts.size := by
    rw [size]
    decide
  obtain ⟨before, after, _⟩ := reads 2 made ⟨"x"⟩ (.stored (.definitions .own))
  have chain : lineage (parents shadowing) 2 = [2, 1, 0] := by decide +kernel
  have found : answer shadowing 2 ⟨"x"⟩ (.stored (.definitions .own)) = .list [] := by
    rw [answer, chain]
    rfl
  have foundLater : answer (shadowing ++ [.clear 1 ⟨"x"⟩]) 2 ⟨"x"⟩ (.stored (.definitions .own)) =
      definitionsValue [⟨sym "x", int 1, .null⟩] := by
    rw [answer, parents_append, lineage_append (by decide), chain]
    rfl
  exact ⟨s, t, ran, applied, found ▸ before, foundLater ▸ after⟩

end History
end Symbolic
