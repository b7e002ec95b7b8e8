import Symbolic.Proofs.Evaluation.Lookup
import Symbolic.Proofs.Evaluation.Scoping

/-!
Two ways to clear what is stored about a symbol. Clearing one type of values leaves an empty entry in the context, which
hides what its ancestors store; clearing everything removes the entries, and what the ancestors store is seen again.
Main statement: after all types are cleared one by one the context finds nothing, after everything is cleared it
finds what its parent does, and so the two come to the same exactly if the parent finds nothing.
-/
namespace Symbolic

open Value

namespace Session

variable {s t : Session} {c : ContextId} {x : Symbol} {ctx : Context}

def clearEach (s : Session) (c : ContextId) (x : Symbol) (us : List ValueType) : Except Error Session :=
  us.foldlM (fun s u => s.clearStored c (.symbol x) (some u.name)) s

/-- What the parent of a context finds under a type of values; nothing if there is no parent. -/
def readAbove (s : Session) (ctx : Context) (x : Symbol) (u : ValueType) : Except Error Value :=
  ctx.parent.elim (.ok (Slot.stored u).nothing) fun p => s.read p x (.stored u)

/-! ### Types one by one -/

theorem definitionsOf_newList_nil (s : Session) (l : ListId) :
    (s.newList []).2.definitionsOf l = s.definitionsOf l := by
  have pushed : (s.newList []).2.lists[l]? = if l = s.lists.size then some [] else s.lists[l]? := Array.getElem?_push
  rw [definitionsOf, definitionsOf, Array.getD_eq_getD_getElem?, Array.getD_eq_getD_getElem?, pushed]
  split
  · next last => rw [last, Array.getElem?_eq_none (Nat.le_refl _)]; rfl
  · rfl

theorem holds_newList_nil (s : Session) (ctx : Context) (x : Symbol) (slot : Slot) :
    (s.newList []).2.holds ctx x slot = s.holds ctx x slot := by
  match slot with
  | .attributes => rfl
  | .stored .default => rfl
  | .stored (.definitions k) => simp only [holds, definitionsOf_newList_nil]

theorem clearStored_type (found : s.contexts[c]? = some ctx) (x : Symbol) (u : ValueType) :
    ∃ t now, s.clearStored c (.symbol x) (some u.name) = .ok t ∧ t.contexts[c]? = some now ∧
      ∀ slot, t.holds now x slot = if slot = .stored u then some slot.nothing else s.holds ctx x slot := by
  have here {t : Session} {f : Context → Context} (there : t.contexts[c]? = some ctx) :
      (t.updateContext c f).contexts[c]? = some (f ctx) := by
    rw [contexts_update, if_pos rfl, there]
    rfl
  have written {w : Slot → Option (Option Value)} {r : Session} {f : Context → Context} (writes : r.Writes x w f)
      (same : ∀ slot, w slot = if slot = .stored u then some (some slot.nothing) else none)
      (old : ∀ slot, r.holds ctx x slot = s.holds ctx x slot) (slot : Slot) :
      r.holds (f ctx) x slot = if slot = .stored u then some slot.nothing else s.holds ctx x slot := by
    rw [writes.holds, if_pos rfl, same, old]
    split <;> rfl
  have emptied (slot : Slot) : Edit.writes (.store c x u [] .null) slot =
      if slot = .stored u then some (some slot.nothing) else none := by
    simp only [Edit.writes]
    split
    · next same => rw [same]; rfl
    · rfl
  rw [clearStored, store, ValueType.ofName_name]
  cases u with
  | default =>
    exact ⟨_, _, rfl, here found, written (writes_setDefault s c x [] .null) emptied fun _ => rfl⟩
  | definitions k =>
    have new : s.lists.size < (s.newList []).2.lists.size := by
      rw [show (s.newList []).2.lists.size = _ from Array.size_push ..]
      exact Nat.lt_succ_self _
    have placed : (s.newList []).2.definitionsOf s.lists.size = [] := by
      rw [definitionsOf_newList_nil, definitionsOf, Array.getD_eq_getD_getElem?, Array.getElem?_eq_none (Nat.le_refl _)]
      rfl
    have writes := writes_setList (s := (s.newList []).2) new c x k .null
    rw [placed] at writes
    refine ⟨_, _, rfl, here (t := (s.newList []).2) found, ?_⟩
    exact written writes emptied (holds_newList_nil s ctx x)

theorem clearEach_entries (found : s.contexts[c]? = some ctx) (x : Symbol) (us : List ValueType) :
    ∃ t now, s.clearEach c x us = .ok t ∧ t.contexts[c]? = some now ∧
      ∀ u, u ∈ us ∨ s.holds ctx x (.stored u) = some (Slot.stored u).nothing →
        t.holds now x (.stored u) = some (Slot.stored u).nothing := by
  induction us generalizing s ctx with
  | nil => exact ⟨s, ctx, rfl, found, fun u empty => empty.resolve_left (by simp)⟩
  | cons v us ih =>
    obtain ⟨r, mid, cleared, there, entries⟩ := clearStored_type found x v
    obtain ⟨t, now, rest, finally_, empty⟩ := ih there
    refine ⟨t, now, ?_, finally_, fun u before => empty u ?_⟩
    · rw [clearEach, List.foldlM_cons, cleared]
      exact rest
    · rw [entries]
      by_cases same : Slot.stored u = .stored v
      · exact .inr (if_pos same)
      · rw [if_neg same]
        refine before.imp_left fun member => (List.mem_cons.1 member).resolve_left ?_
        rintro rfl
        exact same rfl

/-! ### Everything at once -/

/-- After everything is cleared, a context finds what its parent finds. -/
theorem read_cleared (found : s.contexts[c]? = some ctx) (older : ∀ p, ctx.parent = some p → p < c) (u : ValueType) :
    (s.updateContext c fun ctx => ctx.clearEntry (.symbol x)).read c x (.stored u) = s.readAbove ctx x u := by
  have removed : s.holds (ctx.clearEntry (.symbol x)) x (.stored u) = none := by
    rw [(writes_clearEntry s c x).holds, if_pos rfl]
    rfl
  have lookup : (s.updateContext c fun ctx => ctx.clearEntry (.symbol x)).nearest
      (fun ctx => s.holds ctx x (.stored u)) c = _ := nearest_updated rfl found
  rw [read_eq]
  show Except.ok (((s.updateContext c fun ctx => ctx.clearEntry (.symbol x)).nearest
    (fun ctx => s.holds ctx x (.stored u)) c).getD _) = _
  rw [lookup, removed, readAbove]
  cases up : ctx.parent with
  | none => rfl
  | some p =>
    simp only [Option.isSome_none, Bool.false_eq_true, if_false, Option.bind_some, if_pos (older p up),
      Option.elim_some]
    rw [read_eq]

/-- Clearing everything about a symbol uncovers what the parent of the context finds, under every type of values, while
clearing the types one by one, in any order, leaves nothing to be found. So the two come to the same exactly if the
parent, looking up through its own ancestors, finds nothing under any type. -/
theorem clearing_uncovers_parent (found : s.contexts[c]? = some ctx) (older : ∀ p, ctx.parent = some p → p < c)
    (x : Symbol) {us : List ValueType} (all : ∀ u, u ∈ us) :
    ∃ t w, s.clearStored c (.symbol x) none = .ok t ∧ s.clearEach c x us = .ok w ∧
      (∀ u, t.read c x (.stored u) = s.readAbove ctx x u) ∧
      (∀ u, w.read c x (.stored u) = .ok (Slot.stored u).nothing) ∧
      ((∀ u, t.read c x (.stored u) = w.read c x (.stored u)) ↔
        ∀ u, s.readAbove ctx x u = .ok (Slot.stored u).nothing) := by
  obtain ⟨w, now, cleared, there, entries⟩ := clearEach_entries found x us
  have uncovered := read_cleared (x := x) found older
  have emptied (u : ValueType) : w.read c x (.stored u) = .ok (Slot.stored u).nothing := by
    rw [read_eq, nearest_of_found there (entries u (.inl (all u)))]
    rfl
  refine ⟨_, w, rfl, cleared, uncovered, emptied, ?_⟩
  simp only [uncovered, emptied]

/-- A definition of a symbol in the global context, and a context below it that holds nothing. -/
def inheriting : Session :=
  (Session.initial.define globalId (sym "x") .own [⟨sym "x", int 1, .null⟩]).newContext "inner" (some globalId) |>.2

def valueTypes : List ValueType := ValueType.named.map Prod.snd

theorem mem_valueTypes (u : ValueType) : u ∈ valueTypes := by
  rcases u with ⟨_ | _ | _ | _ | _ | _⟩ | _ <;> decide

theorem inheriting_inner : inheriting.contexts[1]? = some (.fresh "inner" (some globalId)) := rfl

theorem inner_older : ∀ p, (Context.fresh "inner" (some globalId)).parent = some p → p < 1 := by
  rintro p ⟨⟩
  decide

theorem readAbove_inheriting : inheriting.readAbove (.fresh "inner" (some globalId)) ⟨"x"⟩ (.definitions .own) =
    .ok (definitionsValue [⟨sym "x", int 1, .null⟩]) := by
  show inheriting.read globalId ⟨"x"⟩ (.stored (.definitions .own)) = _
  have found : inheriting.contexts[globalId]? =
      some ((Context.fresh "Global" none).setList (sym "x") .own 0) := rfl
  have held : inheriting.holds ((Context.fresh "Global" none).setList (sym "x") .own 0) ⟨"x"⟩
      (.stored (.definitions .own)) = some (definitionsValue [⟨sym "x", int 1, .null⟩]) := by
    rw [holds, Context.entry_setList, if_pos (same_symbol_iff.2 rfl), Entry.list?_setList, if_pos rfl]
    rfl
  rw [read_eq, nearest_of_found found held]
  rfl

/-- The context below finds the definition after everything is cleared, and nothing after each type is. -/
theorem clearing_uncovers_inherited :
    ∃ t w, inheriting.clearStored 1 (sym "x") none = .ok t ∧ inheriting.clearEach 1 ⟨"x"⟩ valueTypes = .ok w ∧
      t.read 1 ⟨"x"⟩ (.stored (.definitions .own)) = .ok (definitionsValue [⟨sym "x", int 1, .null⟩]) ∧
      w.read 1 ⟨"x"⟩ (.stored (.definitions .own)) = .ok (.list []) := by
  obtain ⟨t, w, all, each, uncovered, emptied, -⟩ :=
    clearing_uncovers_parent inheriting_inner inner_older ⟨"x"⟩ mem_valueTypes
  exact ⟨t, w, all, each, (uncovered _).trans readAbove_inheriting, emptied _⟩

/-- Clearing everything is not clearing each type: the definition above is still found. -/
theorem inherited_survives_clearing :
    ∃ t, inheriting.clearStored 1 (sym "x") none = .ok t ∧
      t.read 1 ⟨"x"⟩ (.stored (.definitions .own)) ≠ .ok (Slot.stored (.definitions .own)).nothing := by
  refine ⟨_, rfl, ?_⟩
  rw [read_cleared inheriting_inner inner_older, readAbove_inheriting]
  simp [Slot.nothing, ValueType.content, definitionsValue]

end Session
end Symbolic
