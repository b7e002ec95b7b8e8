import Symbolic.Proofs.Evaluation.Isolation

/-!
What evaluation does to the attributes that symbols have in contexts: nothing. It writes definitions, and makes
contexts of its own, but no builtin gives attributes to a symbol or takes them away.
-/
namespace Symbolic

open Value Session

namespace Session

/-- In the second session every context of the first is still there, with the same parent and attributes. -/
def SameMarks (s t : Session) : Prop :=
  ∀ (a : ContextId) (ctx : Context), s.contexts[a]? = some ctx →
    ∃ now, t.contexts[a]? = some now ∧ now.parent = ctx.parent ∧ now.attributes = ctx.attributes

variable {s t u : Session} {c : ContextId}

theorem SameMarks.of_contexts (contexts : t.contexts = s.contexts) : SameMarks s t :=
  fun _ ctx found => ⟨ctx, contexts ▸ found, rfl, rfl⟩

theorem SameMarks.trans (first : SameMarks s t) (second : SameMarks t u) : SameMarks s u := by
  intro a ctx found
  obtain ⟨now, there, parent, marks⟩ := first a ctx found
  obtain ⟨later, after, sameParent, sameMarks⟩ := second a now there
  exact ⟨later, after, sameParent.trans parent, sameMarks.trans marks⟩

theorem SameMarks.setList (s : Session) (c : ContextId) (v : Value) (k : DefinitionKind) (l : ListId) :
    SameMarks s (s.updateContext c fun ctx => ctx.setList v k l) := by
  intro a ctx found
  rw [contexts_update, found]
  split
  · exact ⟨ctx.setList v k l, rfl, rfl, rfl⟩
  · exact ⟨ctx, rfl, rfl, rfl⟩

theorem SameMarks.newContext (s : Session) (name : String) (parent : Option ContextId) :
    SameMarks s (s.newContext name parent).2 := by
  intro a ctx found
  have old := (Array.getElem?_eq_some_iff.1 found).1
  exact ⟨ctx, (Array.getElem?_push.trans (if_neg (Nat.ne_of_lt old))).trans found, rfl, rfl⟩

theorem Change.sameMarks {A : ContextId → Prop} (change : Change A s t) : SameMarks s t := by
  induction change with
  | none contexts _ => exact .of_contexts contexts
  | newList s ds => exact .of_contexts rfl
  | own _ s v l => exact .setList s _ v .own l
  | body _ s x r =>
    rw [addDefinition]
    split
    · exact SameMarks.trans (.of_contexts rfl) (.setList _ _ _ _ _)
    · exact SameMarks.trans (.of_contexts rfl) (.setList _ _ _ _ _)
  | trans _ _ first second => exact first.trans second

theorem SameMarks.attributesOf (same : SameMarks s t) (here : c < s.contexts.size) (v : Value) :
    t.attributesOf c v = s.attributesOf c v := by
  rw [Session.attributesOf, Session.attributesOf]
  congr 1
  induction c using Nat.strongRecOn with
  | ind c ih =>
    obtain ⟨ctx, found⟩ : ∃ ctx, s.contexts[c]? = some ctx := ⟨_, Array.getElem?_eq_getElem here⟩
    obtain ⟨now, there, parent, marks⟩ := same c ctx found
    cases held : Context.find? v ctx.attributes with
    | some as => rw [nearest_of_found found held, nearest_of_found there (marks ▸ held)]
    | none =>
      rw [nearest_of_parent found held, nearest_of_parent there (marks ▸ held), parent]
      cases ctx.parent with
      | none => rfl
      | some p =>
        simp only [Option.bind_some]
        split
        · next earlier => exact ih p earlier (Nat.lt_trans earlier here)
        · rfl

end Session

/-- A computation that leaves the attributes in contexts alone, also if it stops. -/
def KeepsMarks {α : Type} (m : Eval α) : Prop := ∀ s, SameMarks s (Step.final (m s))

section Keeping

variable {α β : Type}

theorem KeepsMarks.bind {m : Eval α} {k : α → Eval β} (first : KeepsMarks m) (next : ∀ a, KeepsMarks (k a)) :
    KeepsMarks (m >>= k) := by
  intro s
  have before := first s
  cases run : m s with
  | ok a t =>
    rw [run] at before
    rw [Step.bind_of_ok run]
    exact before.trans (next a t)
  | error h t =>
    rw [run] at before
    rw [Step.bind_of_error run]
    exact before

theorem KeepsMarks.inside {m : Eval α} (c : ContextId) (run : KeepsMarks m) : KeepsMarks (Scope.inside c m) := by
  intro s
  rw [inside_eq, Step.final_ending]
  exact run (s.pushed c)

theorem KeepsMarks.deeper {m : Eval α} (run : KeepsMarks m) : KeepsMarks (deeper m) := by
  intro s
  rw [deeper_eq]
  split
  · exact .of_contexts rfl
  · rw [Step.final_ending]
    exact run s.entered

theorem countReplacement_keepsMarks : KeepsMarks countReplacement := by
  intro s
  rw [countReplacement_eq]
  split
  · exact .of_contexts rfl
  · exact .of_contexts rfl

theorem admissible_keepsMarks : Admissible (fun _ => True) fun α (m : Unit → Eval α) => KeepsMarks (m ()) where
  perform confined s := (confined.change s).sameMarks
  fail _ _ := .of_contexts rfl
  bind first next := first.bind next
  count := countReplacement_keepsMarks
  inside c run := run.inside c
  enter _ next := .bind (fun s => .newContext s "Block" _) fun inner => next inner trivial

end Keeping

theorem evaluate_keepsMarks (fuel : Nat) (c : ContextId) (v : Value) : KeepsMarks (evaluate fuel c v) := by
  induction fuel generalizing c v with
  | zero => exact fun _ => .of_contexts rfl
  | succ fuel ih =>
    refine KeepsMarks.deeper ?_
    exact admissible_keepsMarks.evaluateWith_of_stops (fun _ => evaluate fuel) (fun c _ v => ih c v)
      (fun _ _ => .of_contexts rfl) fuel trivial v

end Symbolic
