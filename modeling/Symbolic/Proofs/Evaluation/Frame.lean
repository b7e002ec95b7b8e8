import Symbolic.Evaluate

/-!
A session has a frame, which says how far evaluation has come and how far it may go, and
contents, which are what evaluation works on. Steps of the builtins are plain: what they
read and what they change are contents, whatever the frame is, and to a list of
definitions they only add definitions without a condition.
-/
namespace Symbolic

open Value

namespace Step

variable {σ α : Type}

/-- The state that a run ended in, with a result or without. -/
def final : EStateM.Result Halt σ α → σ
  | .ok _ s => s
  | .error _ s => s

/-- A run with a last change to its state, made with a result or without. -/
def ending (f : σ → σ) : EStateM.Result Halt σ α → EStateM.Result Halt σ α
  | .ok a s => .ok a (f s)
  | .error h s => .error h (f s)

@[simp] theorem final_ending (f : σ → σ) (r : EStateM.Result Halt σ α) : final (ending f r) = f (final r) := by
  cases r <;> rfl

theorem ending_ok {f : σ → σ} {r : EStateM.Result Halt σ α} {a : α} {t : σ} :
    ending f r = .ok a t ↔ ∃ u, r = .ok a u ∧ f u = t := by
  cases r with
  | ok b u =>
    constructor
    · intro same
      cases same
      exact ⟨u, rfl, rfl⟩
    · rintro ⟨_, same, rfl⟩
      cases same
      rfl
  | error h u => simp [ending]

end Step

namespace Session

/-- The counters, the limits and the active contexts. -/
structure Frame where
  depth : Nat
  iterations : Nat
  recursionLimit : Int
  iterationLimit : Int
  stack : List ContextId

def frame (s : Session) : Frame := ⟨s.depth, s.iterations, s.recursionLimit, s.iterationLimit, s.stack⟩

/-- The same contents in another frame. -/
def withFrame (s : Session) (k : Frame) : Session :=
  { s with
    depth := k.depth
    iterations := k.iterations
    recursionLimit := k.recursionLimit
    iterationLimit := k.iterationLimit
    stack := k.stack }

variable {s t u : Session} {k : Frame} {c : ContextId}

@[simp] theorem withFrame_frame : s.withFrame s.frame = s := rfl

theorem nearest_congr {α : Type} (same : s.contexts = t.contexts) (f : Context → Option α) (c : ContextId) :
    s.nearest f c = t.nearest f c := by
  induction c using Nat.strongRecOn with
  | ind c ih =>
    rw [nearest, nearest, same]
    cases t.contexts[c]? with
    | none => rfl
    | some ctx =>
      simp only
      cases f ctx with
      | some a => rfl
      | none =>
        cases ctx.parent with
        | none => rfl
        | some p =>
          simp only
          by_cases earlier : p < c
          · rw [if_pos earlier, if_pos earlier, ih p earlier]
          · rw [if_neg earlier, if_neg earlier]

@[simp] theorem definitions_withFrame {v : Value} {kind : DefinitionKind} :
    (s.withFrame k).definitions? c v kind = s.definitions? c v kind :=
  nearest_congr (s := s.withFrame k) (t := s) rfl _ c

@[simp] theorem effectiveAttributes_withFrame {h : Value} {own : SymbolSet} :
    (s.withFrame k).effectiveAttributes c h own = s.effectiveAttributes c h own := by
  have marked : ∀ v, (s.withFrame k).attributesOf c v = s.attributesOf c v := by
    intro v
    rw [attributesOf, nearest_congr (s := s.withFrame k) (t := s) rfl, attributesOf]
  cases h with
  | symbol x => simp only [effectiveAttributes, marked]; rfl
  | _ => rfl

/-- Nothing is taken from the first session on the way to the second: it has the same builtins, symbols
have at most been generated after those before, and a list of definitions has become longer at most
by definitions without a condition. -/
structure Grows (s t : Session) : Prop where
  registry : t.registry = s.registry
  stems : s.stems <:+ t.stems
  lists : ∀ (l : ListId) (ds : List Definition), s.lists[l]? = some ds →
    ∃ more, t.lists[l]? = some (ds ++ more) ∧ ∀ d ∈ more, d.condition = .null

theorem Grows.of_lists (registry : t.registry = s.registry) (stems : s.stems <:+ t.stems) (lists : t.lists = s.lists) :
    Grows s t where
  registry := registry
  stems := stems
  lists l ds found := ⟨[], by simpa [lists] using found, by simp⟩

theorem Grows.refl (s : Session) : Grows s s := .of_lists rfl (List.suffix_refl _) rfl

theorem Grows.trans (first : Grows s t) (second : Grows t u) : Grows s u where
  registry := second.registry.trans first.registry
  stems := first.stems.trans second.stems
  lists l ds found := by
    obtain ⟨more, there, free⟩ := first.lists l ds found
    obtain ⟨others, after, freeToo⟩ := second.lists l _ there
    refine ⟨more ++ others, by rw [after, List.append_assoc], ?_⟩
    intro d member
    rcases List.mem_append.1 member with old | new
    · exact free d old
    · exact freeToo d new

/-- A step whose result and effect depend on the contents alone. -/
structure Plain {α : Type} (f : Session → α × Session) : Prop where
  framed : ∀ s k, f (s.withFrame k) = ((f s).1, (f s).2.withFrame k)
  grows : ∀ s, Grows s (f s).2

section Steps

variable {α : Type} {f : Session → α × Session}

theorem Plain.frame (plain : Plain f) (s : Session) : (f s).2.frame = s.frame := by
  have same := plain.framed s s.frame
  rw [withFrame_frame] at same
  rw [same]
  rfl

theorem Plain.read {g : Session → α} (same : ∀ s k, g (s.withFrame k) = g s) : Plain fun s => (g s, s) where
  framed s k := by rw [same]
  grows s := .refl s

theorem Plain.change {g : Session → Session} (framed : ∀ s k, g (s.withFrame k) = (g s).withFrame k)
    (registry : ∀ s, (g s).registry = s.registry) (stems : ∀ s, (g s).stems = s.stems)
    (lists : ∀ s, (g s).lists = s.lists) : Plain fun s => ((), g s) where
  framed s k := by rw [framed]
  grows s := .of_lists (registry s) (stems s ▸ List.suffix_refl _) (lists s)

theorem grows_push (s : Session) (ds : List Definition) : Grows s (s.newList ds).2 where
  registry := rfl
  stems := List.suffix_refl _
  lists l es found := by
    have bound : l < s.lists.size := (Array.getElem?_eq_some_iff.1 found).1
    refine ⟨[], ?_, by simp⟩
    show (s.lists.push ds)[l]? = some (es ++ [])
    rw [List.append_nil, Array.getElem?_push, if_neg (Nat.ne_of_lt bound), found]

theorem Plain.define (c : ContextId) (v : Value) (kind : DefinitionKind) (ds : List Definition) :
    Plain fun s => ((), s.define c v kind ds) where
  framed _ _ := rfl
  grows s := (grows_push s ds).trans (.of_lists rfl (List.suffix_refl _) rfl)

theorem Plain.addDefinition (c : ContextId) (v : Value) (kind : DefinitionKind) {d : Definition}
    (free : d.condition = .null) : Plain fun s => ((), s.addDefinition c v kind d) where
  framed s k := by
    simp only [Session.addDefinition, definitions_withFrame]
    cases s.definitions? c v kind <;> rfl
  grows s := by
    simp only [Session.addDefinition]
    cases s.definitions? c v kind with
    | none => exact (Plain.define c v kind [d]).grows s
    | some l =>
      refine ⟨rfl, List.suffix_refl _, fun m ds found => ?_⟩
      by_cases same : l = m
      · subst same
        exact ⟨[d], by simp [updateContext, Array.getElem?_modify, found], by simp [free]⟩
      · exact ⟨[], by simp [updateContext, Array.getElem?_modify, same, found], by simp⟩

end Steps

/-- What steps do to the contexts and to the lists of definitions if they write to some contexts only.
A list of definitions is extended by assigning a body to a symbol, and is not written to otherwise. -/
inductive Change (A : ContextId → Prop) : Session → Session → Prop
  | none {s t : Session} (contexts : t.contexts = s.contexts) (lists : t.lists = s.lists) : Change A s t
  | newList (s : Session) (ds : List Definition) : Change A s (s.newList ds).2
  | own {c : ContextId} (here : A c) (s : Session) (v : Value) (l : ListId) :
    Change A s (s.updateContext c fun ctx => ctx.setList v .own l)
  | body {c : ContextId} (here : A c) (s : Session) (x : Symbol) (r : Value) :
    Change A s (s.addDefinition c (.symbol x) .down ⟨.symbol x, r, .null⟩)
  | trans {s t u : Session} (first : Change A s t) (second : Change A t u) : Change A s u

/-- A plain step that writes to some contexts only. -/
structure Confined {α : Type} (A : ContextId → Prop) (f : Session → α × Session) : Prop extends Plain f where
  change : ∀ s, Change A s (f s).2

section Confinement

variable {α : Type} {A : ContextId → Prop} {c : ContextId}

theorem Confined.read {g : Session → α} (same : ∀ s k, g (s.withFrame k) = g s) : Confined A fun s => (g s, s) :=
  ⟨.read same, fun _ => .none rfl rfl⟩

theorem Confined.elsewhere {g : Session → Session} (framed : ∀ s k, g (s.withFrame k) = (g s).withFrame k)
    (registry : ∀ s, (g s).registry = s.registry) (stems : ∀ s, (g s).stems = s.stems)
    (contexts : ∀ s, (g s).contexts = s.contexts) (lists : ∀ s, (g s).lists = s.lists) :
    Confined A fun s => ((), g s) :=
  ⟨.change framed registry stems lists, fun s => .none (contexts s) (lists s)⟩

theorem Confined.define (here : A c) (v : Value) (ds : List Definition) :
    Confined A fun s => ((), s.define c v .own ds) :=
  ⟨.define c v .own ds, fun s => (Change.newList s ds).trans (.own here _ v _)⟩

theorem Confined.addBody (here : A c) (x : Symbol) (r : Value) :
    Confined A fun s => ((), s.addDefinition c (.symbol x) .down ⟨.symbol x, r, .null⟩) :=
  ⟨.addDefinition c _ .down rfl, fun s => .body here s x r⟩

end Confinement

/-- The session one level deeper; from outside of all evaluation replacements are counted anew. -/
def entered (s : Session) : Session :=
  { s with depth := s.depth + 1, iterations := if s.depth = 0 then 0 else s.iterations }

def exited (s : Session) : Session := { s with depth := s.depth - 1 }

def pushed (s : Session) (c : ContextId) : Session := { s with stack := c :: s.stack }

def popped (s : Session) : Session := { s with stack := s.stack.tail }

def counted (s : Session) : Session := { s with iterations := s.iterations + 1 }

end Session

section Entering

open Session

variable {α : Type}

theorem deeper_eq (m : Eval α) (s : Session) :
    deeper m s = if (s.depth + 1 : Int) > s.recursionLimit
      then .error (.failure (.recursionLimit s.recursionLimit)) { s.entered with depth := s.depth }
      else Step.ending exited (m s.entered) := by
  by_cases exceeded : (s.depth + 1 : Int) > s.recursionLimit
  · rw [if_pos exceeded]
    exact if_pos exceeded
  · rw [if_neg exceeded]
    simp only [deeper, if_neg exceeded, entered]
    cases m { s with depth := s.depth + 1, iterations := if s.depth = 0 then 0 else s.iterations } <;> rfl

theorem deeper_congr {m n : Eval α} {s : Session} (same : m s.entered = n s.entered) : deeper m s = deeper n s := by
  rw [deeper_eq, deeper_eq, same]

theorem countReplacement_eq (s : Session) :
    countReplacement s = if (s.iterations + 1 : Int) > s.iterationLimit
      then .error (.failure (.iterationLimit s.iterationLimit)) s.counted else .ok () s.counted := by
  have steps : countReplacement s =
      (if (s.counted.iterations : Int) > s.counted.iterationLimit
        then Step.fail (.iterationLimit s.counted.iterationLimit) else pure () : Eval Unit) s.counted := rfl
  rw [steps]
  by_cases exceeded : (s.iterations + 1 : Int) > s.iterationLimit
  · rw [if_pos exceeded]
    exact congrFun (if_pos exceeded) s.counted
  · rw [if_neg exceeded]
    exact congrFun (if_neg exceeded) s.counted

theorem inside_eq (c : ContextId) (m : Eval α) (s : Session) :
    Scope.inside c m s = Step.ending popped (m (s.pushed c)) := by
  unfold Scope.inside pushed
  cases m { s with stack := c :: s.stack } <;> rfl

end Entering

end Symbolic
