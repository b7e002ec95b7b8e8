import Symbolic.Proofs.Elements
import Symbolic.Proofs.Evaluation.Compositional

/-!
What evaluation in a context leaves alone. It writes to that context, and to contexts that it
makes on its way, and to no other: its ancestors keep their tables. The lists of definitions
are another matter, since contexts share them. A list grows when a body is assigned to a symbol whose
definitions the context finds in it, even if it finds them in an ancestor.
-/
namespace Symbolic

open Value Session

/-- What is put in the place of all that was there under a kind is found under it, and nothing else changes. -/
theorem lookup_replaced {α : Type} (es : List (DefinitionKind × α)) (j k : DefinitionKind) (a : α) :
    ((j, a) :: es.filter fun p => p.1 != j).lookup k = if k = j then some a else es.lookup k := by
  by_cases same : k = j
  · simp [same]
  · have other : (k == j) = false := by simpa using same
    have kept : (es.filter fun p => p.1 != j).lookup k = es.lookup k := by
      induction es with
      | nil => rfl
      | cons p es ih =>
        obtain ⟨i, l⟩ := p
        by_cases dropped : i = j
        · simp [dropped, List.lookup_cons, ih, other]
        · simp [dropped, List.lookup_cons, ih]
    simp [List.lookup_cons, same, other, kept]

theorem Entry.list?_setList (e : Entry) (j k : DefinitionKind) (l : ListId) :
    (e.setList j l).list? k = if k = j then some l else e.list? k :=
  lookup_replaced e.lists j k l

namespace Context

variable {α : Type} {x y : Symbol}

/-- What is written under a key is found under it; a symbol other than the key finds what it found. -/
theorem find?_write (k : Value) (a : α) (es : List (Value × α)) :
    find? (.symbol x) (write k a es) = if k.same (.symbol x) then some a else find? (.symbol x) es := by
  have switch : ∀ v : Value, (Value.symbol x).same v = v.same (.symbol x) := fun v =>
    Bool.eq_iff_iff.2 (symbol_same_iff.trans same_symbol_iff.symm)
  induction es with
  | nil => simp only [write, find?, switch]
  | cons e es ih =>
    obtain ⟨l, b⟩ := e
    by_cases here : l = .symbol x
    · subst here
      have found : (Value.symbol x).same (.symbol x) = true := symbol_same_iff.2 rfl
      by_cases same : k.same (.symbol x) = true <;> simp [write, find?, same, found]
    · have absent : l.same (.symbol x) = false := Bool.eq_false_iff.2 (mt same_symbol_iff.1 here)
      by_cases same : k.same l = true
      · have other : k.same (.symbol x) = false := by
          refine Bool.eq_false_iff.2 fun hit => here ?_
          rw [same_symbol_iff.1 hit] at same
          exact symbol_same_iff.1 same
        simp [write, find?, switch, same, absent, other]
      · simp [write, find?, switch, same, absent, ih]

theorem entry_setList (ctx : Context) (v : Value) (k : DefinitionKind) (l : ListId) :
    (ctx.setList v k l).entry (.symbol x) =
      if v.same (.symbol x) then (ctx.entry (.symbol x)).setList k l else ctx.entry (.symbol x) := by
  rw [entry, setList, find?_write]
  split
  · next same =>
    rw [same_symbol_iff.1 same]
    rfl
  · rfl

/-- The list of definitions of expressions headed by a symbol that a context itself holds. -/
def down (ctx : Context) (x : Symbol) : Option ListId := (ctx.entry (.symbol x)).list? .down

theorem down_setList (ctx : Context) (v : Value) (k : DefinitionKind) (l : ListId) :
    (ctx.setList v k l).down x = if v.same (.symbol x) ∧ k = .down then some l else ctx.down x := by
  rw [down, entry_setList]
  by_cases same : v.same (.symbol x) = true
  · simp only [same, if_true, Entry.list?_setList, true_and, eq_comm]
    rfl
  · simp only [same, Bool.false_eq_true, if_false, false_and]
    rfl

end Context

namespace Session

/-- Evaluation in a context, begun in a session, writes to that context and to those made since. -/
def Writable (s : Session) (c a : ContextId) : Prop := a = c ∨ s.contexts.size ≤ a

/-- The lists to which evaluation in a context may add a definition for a symbol: those made since, and the
one in which the context found such definitions at the beginning. -/
def Open (s : Session) (c : ContextId) (x : Symbol) (l : ListId) : Prop :=
  s.lists.size ≤ l ∨ s.definitions? c (.symbol x) .down = some l

/-- What has come of a session while something was evaluated in a context. -/
structure Isolated (s : Session) (c : ContextId) (t : Session) : Prop where
  contexts : s.contexts.size ≤ t.contexts.size
  lists : s.lists.size ≤ t.lists.size
  others : ∀ a ctx, s.contexts[a]? = some ctx → a ≠ c → t.contexts[a]? = some ctx
  /-- The context has its parent, and nothing that it held is gone. -/
  here : ∀ ctx, s.contexts[c]? = some ctx → ∃ now, t.contexts[c]? = some now ∧ now.parent = ctx.parent ∧
    ∀ x, now.down x = none → ctx.down x = none
  made : ∀ a now, s.contexts.size ≤ a → t.contexts[a]? = some now → ∃ p, now.parent = some p ∧ Writable s c p
  downs : ∀ a now x l, Writable s c a → t.contexts[a]? = some now → now.down x = some l → Open s c x l
  extended : ∀ (l : ListId) ds, s.lists[l]? = some ds → ∃ more, t.lists[l]? = some (ds ++ more) ∧
    ∀ d ∈ more, ∃ x r, d = ⟨.symbol x, r, .null⟩ ∧ s.definitions? c (.symbol x) .down = some l

variable {s t u : Session} {c a : ContextId} {x : Symbol} {l : ListId}

theorem definitions_down : s.definitions? c (.symbol x) .down = s.nearest (·.down x) c := rfl

theorem nearest_of_found {α : Type} {f : Context → Option α} {ctx : Context} (found : s.contexts[c]? = some ctx)
    {r : α} (held : f ctx = some r) : s.nearest f c = some r := by
  rw [nearest, found]
  simp only [held]

theorem nearest_of_parent {α : Type} {f : Context → Option α} {ctx : Context} (found : s.contexts[c]? = some ctx)
    (absent : f ctx = none) : s.nearest f c = ctx.parent.bind fun p => if p < c then s.nearest f p else none := by
  rw [nearest, found]
  simp only [absent]
  cases ctx.parent <;> rfl

theorem nearest_of_unchanged {α : Type} {f : Context → Option α}
    (unchanged : ∀ b ctx, s.contexts[b]? = some ctx → b ≠ c → t.contexts[b]? = some ctx) (old : a < s.contexts.size)
    (below : a < c) : t.nearest f a = s.nearest f a := by
  induction a using Nat.strongRecOn with
  | ind a ih =>
    obtain ⟨ctx, found⟩ : ∃ ctx, s.contexts[a]? = some ctx := ⟨_, Array.getElem?_eq_getElem old⟩
    have kept := unchanged a ctx found (Nat.ne_of_lt below)
    cases held : f ctx with
    | some r => rw [nearest_of_found found held, nearest_of_found kept held]
    | none =>
      rw [nearest_of_parent found held, nearest_of_parent kept held]
      cases ctx.parent with
      | none => rfl
      | some p =>
        simp only [Option.bind_some]
        by_cases earlier : p < a
        · rw [if_pos earlier, if_pos earlier, ih p earlier (Nat.lt_trans earlier old) (Nat.lt_trans earlier below)]
        · rw [if_neg earlier, if_neg earlier]

/-- Wherever evaluation is, definitions for a symbol are found in an open list. -/
theorem Isolated.open_of_found (isolated : Isolated s c t) (writable : Writable s c a)
    (found : t.definitions? a (.symbol x) .down = some l) : Open s c x l := by
  rw [definitions_down] at found
  induction a using Nat.strongRecOn with
  | ind a ih =>
    cases now : t.contexts[a]? with
    | none =>
      rw [nearest, now] at found
      cases found
    | some ctx =>
      cases held : ctx.down x with
      | some m =>
        rw [nearest_of_found now held] at found
        cases found
        exact isolated.downs a ctx x l writable now held
      | none =>
        rw [nearest_of_parent now held, Option.bind_eq_some_iff] at found
        obtain ⟨p, parent, there⟩ := found
        obtain ⟨earlier, there⟩ : p < a ∧ t.nearest (·.down x) p = some l := by
          simpa using there
        by_cases new : s.contexts.size ≤ a
        · obtain ⟨q, same, writableToo⟩ := isolated.made a ctx new now
          cases parent.symm.trans same
          exact ih p earlier writableToo there
        · -- The context itself, and beyond it all is as it was.
          obtain rfl : a = c := writable.resolve_right new
          have old : a < s.contexts.size := Nat.lt_of_not_le new
          obtain ⟨before, was⟩ : ∃ before, s.contexts[a]? = some before := ⟨_, Array.getElem?_eq_getElem old⟩
          obtain ⟨after, is, sameParent, kept⟩ := isolated.here before was
          cases is.symm.trans now
          have same : t.nearest (·.down x) p = s.nearest (·.down x) p :=
            nearest_of_unchanged isolated.others (Nat.lt_trans earlier old) earlier
          refine .inr ?_
          rw [definitions_down, nearest_of_parent was (kept x held), ← sameParent, parent, Option.bind_some,
            if_pos earlier, ← same, there]

theorem Isolated.refl (s : Session) (c : ContextId) : Isolated s c s where
  contexts := Nat.le_refl _
  lists := Nat.le_refl _
  others a ctx found _ := found
  here ctx found := ⟨ctx, found, rfl, fun _ absent => absent⟩
  made a now new found := by
    rw [Array.getElem?_eq_none new] at found
    cases found
  downs a now x l writable found held := by
    rcases writable with rfl | new
    · exact .inr (nearest_of_found found held)
    · rw [Array.getElem?_eq_none new] at found
      cases found
  extended l ds found := ⟨[], by simpa using found, by simp⟩

theorem Isolated.congr (isolated : Isolated s c t) (contexts : u.contexts = t.contexts) (lists : u.lists = t.lists) :
    Isolated s c u := by
  obtain ⟨more, longer, others, here, made, downs, extended⟩ := isolated
  rw [← contexts, ← lists] at *
  exact ⟨more, longer, others, here, made, downs, extended⟩

theorem Isolated.newList (isolated : Isolated s c t) (ds : List Definition) : Isolated s c (t.newList ds).2 :=
  { isolated with
    lists := by
      show s.lists.size ≤ (t.lists.push ds).size
      rw [Array.size_push]
      exact Nat.le_succ_of_le isolated.lists
    extended := fun l es found => by
      obtain ⟨more, there, added⟩ := isolated.extended l es found
      have bound : l < t.lists.size := (Array.getElem?_eq_some_iff.1 there).1
      refine ⟨more, ?_, added⟩
      show (t.lists.push ds)[l]? = _
      rw [Array.getElem?_push, if_neg (Nat.ne_of_lt bound), there] }

theorem contexts_update (t : Session) (a b : ContextId) (f : Context → Context) :
    (t.updateContext a f).contexts[b]? = if a = b then t.contexts[b]?.map f else t.contexts[b]? :=
  Array.getElem?_modify

theorem found_update {t : Session} {a b : ContextId} {f : Context → Context} {now : Context}
    (found : (t.updateContext a f).contexts[b]? = some now) :
    ∃ ctx, t.contexts[b]? = some ctx ∧ now = if a = b then f ctx else ctx := by
  rw [contexts_update] at found
  by_cases here : a = b
  · rw [if_pos here, Option.map_eq_some_iff] at found
    obtain ⟨ctx, there, rfl⟩ := found
    exact ⟨ctx, there, (if_pos here).symm⟩
  · rw [if_neg here] at found
    exact ⟨now, found, (if_neg here).symm⟩

/-- Changing what a writable context holds, but neither its parent nor, other than to an open list, what it
holds for expressions. -/
theorem Isolated.update (isolated : Isolated s c t) (writable : Writable s c a) {f : Context → Context}
    (parent : ∀ ctx, (f ctx).parent = ctx.parent)
    (down : ∀ ctx x, (f ctx).down x = ctx.down x ∨ ∃ l, (f ctx).down x = some l ∧ Open s c x l) :
    Isolated s c (t.updateContext a f) where
  contexts := by
    show s.contexts.size ≤ (t.contexts.modify a f).size
    rw [Array.size_modify]
    exact isolated.contexts
  lists := isolated.lists
  others b ctx found other := by
    have old : b < s.contexts.size := (Array.getElem?_eq_some_iff.1 found).1
    have apart : a ≠ b := by
      rintro rfl
      rcases writable with same | new
      · exact other same
      · exact Nat.not_le_of_lt old new
    rw [contexts_update, if_neg apart]
    exact isolated.others b ctx found other
  here ctx found := by
    obtain ⟨now, there, sameParent, kept⟩ := isolated.here ctx found
    rw [contexts_update]
    by_cases same : a = c
    · refine ⟨f now, by rw [if_pos same, there, Option.map_some], (parent now).trans sameParent, fun x absent => ?_⟩
      rcases down now x with unchanged | ⟨l, new, _⟩
      · exact kept x (unchanged.symm.trans absent)
      · rw [absent] at new
        cases new
    · exact ⟨now, by rw [if_neg same, there], sameParent, kept⟩
  made b now new found := by
    obtain ⟨ctx, there, rfl⟩ := found_update found
    split
    · rw [parent]
      exact isolated.made b ctx new there
    · exact isolated.made b ctx new there
  downs b now x l writableToo found held := by
    obtain ⟨ctx, there, rfl⟩ := found_update found
    split at held
    · rcases down ctx x with unchanged | ⟨m, new, fits⟩
      · exact isolated.downs b ctx x l writableToo there (unchanged.symm.trans held)
      · cases new.symm.trans held
        exact fits
    · exact isolated.downs b ctx x l writableToo there held
  extended := isolated.extended

theorem Isolated.setList (isolated : Isolated s c t) (writable : Writable s c a) (v : Value) {k : DefinitionKind}
    (fits : ∀ x, v.same (.symbol x) = true → k = .down → Open s c x l) :
    Isolated s c (t.updateContext a fun ctx => ctx.setList v k l) := by
  refine isolated.update writable (fun _ => rfl) fun ctx x => ?_
  rw [Context.down_setList]
  by_cases hit : v.same (.symbol x) ∧ k = .down
  · rw [if_pos hit]
    exact .inr ⟨l, rfl, fits x hit.1 hit.2⟩
  · rw [if_neg hit]
    exact .inl rfl

theorem Isolated.append (isolated : Isolated s c t) (x : Symbol) (r : Value) (fits : Open s c x l) :
    Isolated s c { t with lists := t.lists.modify l (· ++ [⟨.symbol x, r, .null⟩]) } :=
  { isolated with
    lists := by
      show s.lists.size ≤ (t.lists.modify l _).size
      rw [Array.size_modify]
      exact isolated.lists
    extended := fun m ds found => by
      obtain ⟨more, there, added⟩ := isolated.extended m ds found
      show ∃ more, (t.lists.modify l _)[m]? = some (ds ++ more) ∧ _
      rw [Array.getElem?_modify, there]
      by_cases same : l = m
      · -- The list was there at the beginning, so it is the one that the context had found.
        subst same
        have old : l < s.lists.size := (Array.getElem?_eq_some_iff.1 found).1
        have seen := fits.resolve_left (Nat.not_le_of_lt old)
        refine ⟨more ++ [⟨.symbol x, r, .null⟩], by simp, fun d member => ?_⟩
        rcases List.mem_append.1 member with before | last
        · exact added d before
        · exact ⟨x, r, List.mem_singleton.1 last, seen⟩
      · exact ⟨more, by rw [if_neg same], added⟩ }

theorem Isolated.addBody (isolated : Isolated s c t) (writable : Writable s c a) (x : Symbol) (r : Value) :
    Isolated s c (t.addDefinition a (.symbol x) .down ⟨.symbol x, r, .null⟩) := by
  rw [addDefinition]
  cases found : t.definitions? a (.symbol x) .down with
  | some l =>
    have fits : Open s c x l := isolated.open_of_found writable found
    refine (isolated.append x r fits).setList writable _ fun y same _ => ?_
    cases same_symbol_iff.1 same
    exact fits
  | none => exact (isolated.newList _).setList writable _ fun _ _ _ => .inl isolated.lists

theorem Isolated.newContext (isolated : Isolated s c t) (writable : Writable s c a) :
    Isolated s c (t.newContext "Block" (some a)).2 := by
  have fresh : (t.newContext "Block" (some a)).2.contexts = t.contexts.push (.fresh "Block" (some a)) := rfl
  have pushed : ∀ b : ContextId, (t.newContext "Block" (some a)).2.contexts[b]? =
      if b = t.contexts.size then some (.fresh "Block" (some a)) else t.contexts[b]? := by
    intro b
    rw [fresh, Array.getElem?_push]
  have kept : ∀ (b : ContextId) ctx, t.contexts[b]? = some ctx →
      (t.newContext "Block" (some a)).2.contexts[b]? = some ctx := by
    intro b ctx found
    have old : b < t.contexts.size := (Array.getElem?_eq_some_iff.1 found).1
    rw [pushed, if_neg (Nat.ne_of_lt old), found]
  refine { isolated with contexts := ?_, others := ?_, here := ?_, made := ?_, downs := ?_ }
  · rw [fresh, Array.size_push]
    exact Nat.le_succ_of_le isolated.contexts
  · exact fun b ctx found other => kept b ctx (isolated.others b ctx found other)
  · intro ctx found
    obtain ⟨now, there, rest⟩ := isolated.here ctx found
    exact ⟨now, kept c now there, rest⟩
  · intro b now new found
    rw [pushed] at found
    by_cases last : b = t.contexts.size
    · rw [if_pos last] at found
      cases found
      exact ⟨a, rfl, writable⟩
    · rw [if_neg last] at found
      exact isolated.made b now new found
  · intro b now x l writableToo found held
    rw [pushed] at found
    by_cases last : b = t.contexts.size
    · rw [if_pos last] at found
      cases found
      cases held
    · rw [if_neg last] at found
      exact isolated.downs b now x l writableToo found held

theorem Isolated.change (change : Change (Writable s c) t u) (isolated : Isolated s c t) : Isolated s c u := by
  induction change with
  | none contexts lists => exact isolated.congr contexts lists
  | newList t ds => exact isolated.newList ds
  | own here t v l => exact isolated.setList here v fun _ _ down => by cases down
  | body here t x r => exact isolated.addBody here x r
  | trans _ _ ihFirst ihSecond => exact ihSecond (ihFirst isolated)

end Session

/-- A computation that keeps what is evaluated in a context isolated, also if it stops. -/
def Isolates {α : Type} (s : Session) (c : ContextId) (m : Eval α) : Prop :=
  ∀ t, Isolated s c t → Isolated s c (Step.final (m t))

section Isolating

variable {α β : Type} {s : Session} {c : ContextId}

theorem Isolates.bind {m : Eval α} {k : α → Eval β} (first : Isolates s c m) (next : ∀ a, Isolates s c (k a)) :
    Isolates s c (m >>= k) := by
  intro t isolated
  have before := first t isolated
  show Isolated s c (Step.final (EStateM.bind m k t))
  unfold EStateM.bind
  split
  · next a u run =>
    rw [run] at before
    exact next a u before
  · next h u run =>
    rw [run] at before
    exact before

theorem countReplacement_isolates : Isolates s c countReplacement := by
  intro t isolated
  rw [countReplacement_eq]
  split
  · exact isolated.congr rfl rfl
  · exact isolated.congr rfl rfl

theorem Isolates.inside {m : Eval α} (a : ContextId) (run : Isolates s c m) : Isolates s c (Scope.inside a m) := by
  intro t isolated
  rw [inside_eq, Step.final_ending]
  exact (run (t.pushed a) (isolated.congr rfl rfl)).congr rfl rfl

theorem Isolates.deeper {m : Eval α} (run : Isolates s c m) : Isolates s c (deeper m) := by
  intro t isolated
  rw [deeper_eq]
  split
  · exact isolated.congr rfl rfl
  · rw [Step.final_ending]
    exact (run t.entered (isolated.congr rfl rfl)).congr rfl rfl

theorem admissible_isolates (s : Session) (c : ContextId) :
    Admissible (Writable s c) fun α (m : Unit → Eval α) => Isolates s c (m ()) where
  perform confined t isolated := isolated.change (confined.change t)
  fail _ _ isolated := isolated
  bind first next := first.bind next
  count := countReplacement_isolates
  inside a run := run.inside a
  enter {α k a} writable next t isolated := by
    have new : Writable s c t.contexts.size := .inr isolated.contexts
    exact next t.contexts.size new _ (isolated.newContext writable)

theorem evaluate_isolates (fuel : Nat) {a : ContextId} (writable : Writable s c a) (v : Value) :
    Isolates s c (evaluate fuel a v) := by
  induction fuel generalizing a v with
  | zero => exact fun _ isolated => isolated
  | succ fuel ih =>
    refine Isolates.deeper ?_
    exact (admissible_isolates s c).evaluateWith_of_stops (fun _ => evaluate fuel) (fun _ writable v => ih writable v)
      (fun _ _ isolated => isolated) fuel writable v

end Isolating

/-- Evaluation in a context changes no other context. A list of definitions that was there before is
changed only by adding to it definitions of symbols whose definitions the context finds in that list. -/
theorem evaluate_isolated (fuel : Nat) (c : ContextId) (v : Value) (s : Session) :
    (∀ a ctx, a ≠ c → s.contexts[a]? = some ctx →
      (Step.final (evaluate fuel c v s)).contexts[a]? = some ctx) ∧
    ∀ (l : ListId) ds, s.lists[l]? = some ds →
      ∃ more, (Step.final (evaluate fuel c v s)).lists[l]? = some (ds ++ more) ∧
        ∀ d ∈ more, ∃ x r, d = ⟨.symbol x, r, .null⟩ ∧ s.definitions? c (.symbol x) .down = some l := by
  have isolated : Isolated s c (Step.final (evaluate fuel c v s)) :=
    evaluate_isolates fuel (.inl rfl) v s (.refl s c)
  exact ⟨fun a ctx other found => isolated.others a ctx found other, isolated.extended⟩

/-- A session in which `f[1]` is defined in the global context, and a context below it. -/
def inherited : Session :=
  ((Session.initial.define globalId (sym "f") .down [⟨call "f" [int 1], sym "a", .null⟩]).newContext "Inner"
    (some globalId)).2

/-- `f := b; x = 2; Block[{y = 3}, g := y]` in the context below. -/
theorem evaluate_isolated_inherited :
    let e := call "CompoundExpression" [call "SetDelayed" [sym "f", sym "b"], call "Set" [sym "x", int 2],
      call "Block" [ofItems [call "Set" [sym "y", int 3]], call "SetDelayed" [sym "g", sym "y"]]]
    let t := Step.final (evaluate 12 1 e inherited)
    t.contexts.size = 3 ∧ t.contexts[globalId]? = inherited.contexts[globalId]? ∧
      ∃ more, t.lists[0]? = some (⟨call "f" [int 1], sym "a", .null⟩ :: more) ∧
        ∀ d ∈ more, ∃ x r, d = ⟨.symbol x, r, .null⟩ ∧ inherited.definitions? 1 (.symbol x) .down = some 0 := by
  intro e t
  obtain ⟨kept, extended⟩ := evaluate_isolated 12 1 e inherited
  exact ⟨by decide +kernel, kept globalId _ (by decide) rfl, extended 0 _ rfl⟩

/-- Assigning a body to `f` below adds it to the list of the global context, which held one definition
and then holds two. -/
theorem inherited_list_extended :
    let t := Step.final (evaluate 12 1 (call "SetDelayed" [sym "f", sym "b"]) inherited)
    inherited.definitions? globalId (sym "f") .down = some 0 ∧ (inherited.definitionsOf 0).length = 1 ∧
      t.definitions? globalId (sym "f") .down = some 0 ∧ (t.definitionsOf 0).length = 2 := by
  decide +kernel

end Symbolic
