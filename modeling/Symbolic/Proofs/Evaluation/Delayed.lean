import Symbolic.Proofs.Evaluation.Firing
import Symbolic.Proofs.Evaluation.Scoping
import Symbolic.Proofs.Evaluation.Termination
import Symbolic.Proofs.Evaluation.Transparency

/-!
Delayed assignment. `SetDelayed[x, body]` stores the body among the definitions of expressions that `x` heads, with
`x` itself for the pattern. Such a definition applies to no expression, and the value of `x` is not looked for among
them. Main statement: any number of delayed assignments to `x` are carried out one after another and stored in
order, and none of them is ever read: `x` goes on evaluating to itself until it is given a value otherwise.
-/
namespace Symbolic

open Value Session

def Definition.OfSymbol (d : Definition) : Prop := ∃ y r, d = ⟨.symbol y, r, .null⟩

def delayed (x : String) (body : Value) : Definition := ⟨sym x, body, .null⟩

namespace Session

def downs (s : Session) (c : ContextId) (x : String) : List Definition :=
  (s.definitions? c (sym x) .down).elim [] s.definitionsOf

def delay (s : Session) (c : ContextId) (x : String) : List Value → Session
  | [] => s
  | b :: bs => (s.addDefinition c (sym x) .down (delayed x b)).delay c x bs

/-- Delayed assignments in a context are carried out as the language has them: what else is said about them is said
by definitions of symbols by themselves. -/
structure Unhindered (s : Session) (c : ContextId) : Prop where
  standard : s.registry = Builtin.standard
  here : c < s.contexts.size
  listed : ∀ y l, s.definitions? c (sym y) .down = some l → l < s.lists.size
  unmarked : s.attributesOf c (sym "SetDelayed") = []
  unowned : ∀ f ∈ ["SetDelayed", "Null"], s.definitions? c (sym f) .own = none
  down : ∀ l, s.definitions? c (sym "SetDelayed") .down = some l → ∀ d ∈ s.definitionsOf l, d.OfSymbol
  up : ∀ y l, s.definitions? c (sym y) .up = some l → ∀ d ∈ s.definitionsOf l, d.OfSymbol

/-! ### What is stored -/

/-- A definition has been added to the list that was found for a symbol, or it begins a new one. -/
structure Extended (s u : Session) (c : ContextId) (x : String) (d : Definition) (l : ListId) : Prop where
  found : ∀ y k, u.definitions? c (sym y) k = if y = x ∧ k = .down then some l else s.definitions? c (sym y) k
  source : s.definitions? c (sym x) .down = some l ∨ s.definitions? c (sym x) .down = none ∧ s.definitionsOf l = []
  added : u.definitionsOf l = s.definitionsOf l ++ [d]
  others : ∀ m, m ≠ l → u.definitionsOf m = s.definitionsOf m
  lists : l < u.lists.size ∧ s.lists.size ≤ u.lists.size
  attributes : ∀ v, u.attributesOf c v = s.attributesOf c v
  contexts : u.contexts.size = s.contexts.size
  registry : u.registry = s.registry

section Storing

variable {s u : Session} {c : ContextId} {x : String} {d : Definition} {l : ListId}

theorem extended_setList (ls : Array (List Definition)) (here : c < s.contexts.size)
    (source : s.definitions? c (sym x) .down = some l ∨ s.definitions? c (sym x) .down = none ∧ s.definitionsOf l = [])
    (added : ls[l]? = some (s.definitionsOf l ++ [d])) (others : ∀ m, m ≠ l → ls[m]? = s.lists[m]?)
    (grown : s.lists.size ≤ ls.size) :
    Extended s ({ s with lists := ls }.updateContext c fun ctx => ctx.setList (sym x) .down l) c x d l where
  found y k := by
    rw [definitions_setList (s := { s with lists := ls }) here, definitions?,
      nearest_congr (s := { s with lists := ls }) (t := s) rfl]
    rfl
  source := source
  added := definitionsOf_of_found added
  others m other := by
    show ls.getD m [] = s.lists.getD m []
    rw [Array.getD_eq_getD_getElem?, others m other, Array.getD_eq_getD_getElem?]
  lists := ⟨(Array.getElem?_eq_some_iff.1 added).1, grown⟩
  attributes v := by
    rw [attributesOf_setList (s := { s with lists := ls }) here, attributesOf,
      nearest_congr (s := { s with lists := ls }) (t := s) rfl]
    rfl
  contexts := Array.size_modify
  registry := rfl

theorem extended_addDefinition (here : c < s.contexts.size)
    (listed : ∀ l, s.definitions? c (sym x) .down = some l → l < s.lists.size) :
    ∃ l, Extended s (s.addDefinition c (sym x) .down d) c x d l := by
  unfold addDefinition
  split
  · next l found =>
    refine ⟨l, extended_setList _ here (.inl found) ?_ (fun m other => ?_) (Nat.le_of_eq Array.size_modify.symm)⟩
    · have bound := listed l found
      rw [Array.getElem?_modify, if_pos rfl, definitionsOf, Array.getD_eq_getD_getElem?,
        Array.getElem?_eq_getElem bound]
      rfl
    · rw [Array.getElem?_modify, if_neg (Ne.symm other)]
  · next absent =>
    have fresh : s.definitionsOf s.lists.size = [] := by
      rw [definitionsOf, Array.getD_eq_getD_getElem?, Array.getElem?_eq_none (Nat.le_refl _)]
      rfl
    refine ⟨s.lists.size, extended_setList (s.lists.push [d]) here (.inr ⟨absent, fresh⟩) ?_ (fun m other => ?_) ?_⟩
    · rw [Array.getElem?_push, if_pos rfl, fresh]
      rfl
    · rw [Array.getElem?_push, if_neg other]
    · rw [Array.size_push]
      exact Nat.le_succ _

theorem Extended.downs (extended : Extended s u c x d l) : u.downs c x = s.downs c x ++ [d] := by
  rw [Session.downs, Session.downs, extended.found, if_pos ⟨rfl, rfl⟩, Option.elim_some, extended.added]
  rcases extended.source with found | ⟨absent, empty⟩
  · rw [found, Option.elim_some]
  · rw [absent, Option.elim_none, empty]

theorem Extended.own (extended : Extended s u c x d l) (y : String) :
    u.definitions? c (sym y) .own = s.definitions? c (sym y) .own := by
  rw [extended.found, if_neg (fun same => by cases same.2)]

theorem Extended.ofSymbol (extended : Extended s u c x d l) (made : d.OfSymbol) {m : ListId}
    (each : ∀ e ∈ s.definitionsOf m, e.OfSymbol) : ∀ e ∈ u.definitionsOf m, e.OfSymbol := by
  by_cases same : m = l
  · subst same
    rw [extended.added]
    exact List.forall_mem_append.2 ⟨each, List.forall_mem_singleton.2 made⟩
  · rwa [extended.others m same]

theorem Unhindered.extended (unhindered : s.Unhindered c) (extended : Extended s u c x d l) (made : d.OfSymbol) :
    u.Unhindered c where
  standard := extended.registry.trans unhindered.standard
  here := extended.contexts ▸ unhindered.here
  listed y m found := by
    rw [extended.found] at found
    split at found
    · cases found
      exact extended.lists.1
    · exact Nat.lt_of_lt_of_le (unhindered.listed y m found) extended.lists.2
  unmarked := (extended.attributes _).trans unhindered.unmarked
  unowned f member := (extended.own f).trans (unhindered.unowned f member)
  down m found := by
    refine extended.ofSymbol made ?_
    rw [extended.found] at found
    split at found
    · next same =>
      cases found
      rcases extended.source with before | ⟨-, empty⟩
      · exact unhindered.down l (same.1 ▸ before)
      · rw [empty]
        simp
    · exact unhindered.down m found
  up y m found := by
    refine extended.ofSymbol made ?_
    rw [extended.found, if_neg (fun same => by cases same.2)] at found
    exact unhindered.up y m found

/-- A delayed assignment extends the definitions of its symbol and hinders none that follow, even if the symbol is
`SetDelayed` itself. -/
theorem Unhindered.addDefinition (unhindered : s.Unhindered c) (x : String) (b : Value) :
    (∃ l, Extended s (s.addDefinition c (sym x) .down (delayed x b)) c x (delayed x b) l) ∧
      (s.addDefinition c (sym x) .down (delayed x b)).Unhindered c := by
  obtain ⟨l, extended⟩ := extended_addDefinition (d := delayed x b) unhindered.here (unhindered.listed x)
  exact ⟨⟨l, extended⟩, unhindered.extended extended ⟨_, _, rfl⟩⟩

theorem Unhindered.of_contents {t : Session} (unhindered : s.Unhindered c) (contexts : t.contexts = s.contexts)
    (lists : t.lists = s.lists) (registry : t.registry = s.registry) : t.Unhindered c := by
  have found : ∀ v k, t.definitions? c v k = s.definitions? c v k := fun v k => nearest_congr contexts _ c
  have stored : ∀ m, t.definitionsOf m = s.definitionsOf m := fun m => by rw [definitionsOf, lists, definitionsOf]
  refine ⟨registry.trans unhindered.standard, contexts ▸ unhindered.here, ?_, ?_, ?_, ?_, ?_⟩
  · intro y m there
    rw [found] at there
    exact lists ▸ unhindered.listed y m there
  · rw [attributesOf, nearest_congr contexts]
    exact unhindered.unmarked
  · intro f member
    rw [found]
    exact unhindered.unowned f member
  · intro m there
    rw [found] at there
    rw [stored]
    exact unhindered.down m there
  · intro y m there
    rw [found] at there
    rw [stored]
    exact unhindered.up y m there

theorem Unhindered.unset (unhindered : s.Unhindered c) (f : String) (member : f ∈ ["SetDelayed", "Null"]) (l : ListId)
    (found : s.definitions? c (sym f) .own = some l) : s.definitionsOf l = [] := by
  rw [unhindered.unowned f member] at found
  cases found

/-- Any number of delayed assignments add their definitions in order and leave what own definitions are looked
for in. -/
theorem Unhindered.delay (unhindered : s.Unhindered c) (bodies : List Value) :
    (s.delay c x bodies).downs c x = s.downs c x ++ bodies.map (delayed x) ∧
      ∀ y, (s.delay c x bodies).definitions? c (sym y) .own = s.definitions? c (sym y) .own := by
  induction bodies generalizing s with
  | nil => exact ⟨(List.append_nil _).symm, fun _ => rfl⟩
  | cons b bodies ih =>
    obtain ⟨⟨l, extended⟩, after⟩ := unhindered.addDefinition x b
    obtain ⟨stored, own⟩ := ih after
    refine ⟨stored.trans ?_, fun y => (own y).trans (extended.own y)⟩
    rw [extended.downs, List.append_assoc]
    rfl

end Storing

end Session

/-! ### Carrying out an assignment -/

section Evaluating

variable {ev : Evaluator} {c : ContextId} {s : Session} {x : String}

theorem apply_ofSymbol {d : Definition} (made : d.OfSymbol) (h : Value) (as : List Value) (t : SymbolSet) :
    d.apply ev c (.expr h as t) = pure none := by
  obtain ⟨y, r, rfl⟩ := made
  have other : (Value.symbol y).same (.expr h as t) = false :=
    Bool.eq_false_iff.2 fun same => by cases symbol_same_iff.1 same
  rw [apply_symbol, other]
  rfl

theorem applyFrom_ofSymbol {l : ListId} (each : ∀ d ∈ s.definitionsOf l, d.OfSymbol) {fuel position : Nat}
    (enough : (s.definitionsOf l).length - position < fuel) (h : Value) (as : List Value) (t : SymbolSet) :
    applyFrom ev c l (.expr h as t) fuel position s = .ok none s := by
  induction fuel generalizing position with
  | zero => cases enough
  | succ fuel ih =>
    cases here : (s.definitionsOf l)[position]? with
    | none => exact applyFrom_past here
    | some d =>
      have bound := (List.getElem?_eq_some_iff.1 here).1
      rw [applyFrom_at here, apply_ofSymbol (each d (List.mem_of_getElem? here)) h as t]
      exact ih (by omega)

/-- Where only such definitions are found, an expression is not replaced, if there is fuel for going through them. -/
theorem firstChange_ofSymbol {places : List (DefinitionKind × Value)}
    (each : ∀ p ∈ places, ∀ l, s.definitions? c p.2 p.1 = some l → ∀ d ∈ s.definitionsOf l, d.OfSymbol)
    (h : Value) (as : List Value) (t : SymbolSet) :
    ∃ n, ∀ fuel ev, n ≤ fuel → firstChange ev fuel c (.expr h as t) places s = .ok none s := by
  induction places with
  | nil => exact ⟨0, fun _ _ _ => rfl⟩
  | cons p places ih =>
    obtain ⟨here, others⟩ := List.forall_mem_cons.1 each
    obtain ⟨n, rest⟩ := ih others
    cases found : s.definitions? c p.2 p.1 with
    | none =>
      refine ⟨n, fun fuel ev enough => ?_⟩
      have searched : applyDefinitions ev fuel c p.1 p.2 (.expr h as t) s = .ok none s := by
        rw [applyDefinitions, Step.bind_get, found]
        rfl
      exact (Step.bind_of_ok searched).trans (rest fuel ev enough)
    | some l =>
      refine ⟨max n ((s.definitionsOf l).length + 1), fun fuel ev enough => ?_⟩
      have searched : applyDefinitions ev fuel c p.1 p.2 (.expr h as t) s = .ok none s := by
        rw [applyDefinitions, Step.bind_get, found]
        exact applyFrom_ofSymbol (here l found) (by omega) h as t
      exact (Step.bind_of_ok searched).trans (rest fuel ev (by omega))

theorem Session.Unhindered.sources (unhindered : s.Unhindered c) (as : List Value) :
    ∀ p ∈ sources (call "SetDelayed" as), ∀ l, s.definitions? c p.2 p.1 = some l →
      ∀ d ∈ s.definitionsOf l, d.OfSymbol := by
  intro p member
  rcases mem_sources member with ⟨y, rfl⟩ | rfl
  · exact unhindered.up y
  · exact unhindered.down

section Assigning

variable {b : Value} (unhindered : s.Unhindered c)

include unhindered

theorem runBuiltin_setDelayed (fuel : Nat) :
    runBuiltin ev fuel c (call "SetDelayed" [sym x, b]) s =
      .ok nothing (s.addDefinition c (sym x) .down (delayed x b)) :=
  runBuiltin_named .setDelayed unhindered.standard rfl

/-- A delayed assignment adds its definition, and what it is replaced by is evaluated. -/
theorem evaluateWith_setDelayed (single : b.argsOf? "Sequence" = none) : ∃ n, ∀ fuel ev, n ≤ fuel →
    evaluateWith ev fuel c (call "SetDelayed" [sym x, b]) s =
      (do countReplacement; ev c nothing : Eval Value) (s.addDefinition c (sym x) .down (delayed x b)) := by
  obtain ⟨n, unchanged⟩ := firstChange_ofSymbol (unhindered.sources [sym x, b]) (sym "SetDelayed") [sym x, b]
    ⟨[], List.Pairwise.nil⟩
  refine ⟨n + 1, fun fuel ev enough => ?_⟩
  obtain ⟨m, rfl⟩ : ∃ m, fuel = m + 1 := ⟨fuel - 1, by omega⟩
  have spliced : Arithmetic.inline "Sequence" [sym x, b] = [sym x, b] := by
    rw [inline_cons, inline_cons, single]
    rfl
  have unthreaded : (markings "SetDelayed").contains Attribute.listable = false := by decide
  have replaced : replaceOnce ev (m + 1) c (call "SetDelayed" [sym x, b]) s = _ :=
    (Step.bind_of_ok (unchanged (m + 1) ev (by omega))).trans (runBuiltin_setDelayed unhindered (m + 1))
  have new : nothing.differs (call "SetDelayed" [sym x, b]) = true := by simp [differs, equal, number?, same]
  have unset := unhindered.unset "SetDelayed" (by simp)
  rw [evaluateWith_unmarked unhindered.standard unhindered.unmarked,
    Step.bind_of_ok (evaluateParts_held (by decide) (by decide) unset), arrange_spliced (by decide), spliced]
  simp only [evaluateArranged, unthreaded, Bool.false_and, Bool.false_eq_true, if_false]
  refine (Step.bind_of_ok (Step.ofExcept_ok.2 ⟨rfl, rfl⟩)).trans ((Step.bind_of_ok replaced).trans ?_)
  rw [if_pos new]

omit unhindered in
theorem addDefinition_recount (depth iterations : Nat) :
    (s.recount depth iterations).addDefinition c (sym x) .down (delayed x b) =
      (s.addDefinition c (sym x) .down (delayed x b)).recount depth iterations :=
  congrArg Prod.snd ((Plain.addDefinition c (sym x) .down rfl).recount s depth iterations)

omit unhindered in
theorem addDefinition_limits :
    (s.addDefinition c (sym x) .down (delayed x b)).recursionLimit = s.recursionLimit ∧
      (s.addDefinition c (sym x) .down (delayed x b)).iterationLimit = s.iterationLimit := by
  have frame := (Plain.addDefinition c (sym x) .down (d := delayed x b) rfl).frame s
  simp only [Session.frame, Frame.mk.injEq] at frame
  exact ⟨frame.2.2.1, frame.2.2.2.1⟩

theorem evaluate_setDelayed (single : b.argsOf? "Sequence" = none) (deep : (s.depth + 2 : Int) ≤ s.recursionLimit)
    (more : (s.entered.iterations + 1 : Int) ≤ s.iterationLimit) : ∃ n, ∀ fuel, n ≤ fuel →
    evaluate fuel c (call "SetDelayed" [sym x, b]) s =
      .ok nothing ((s.addDefinition c (sym x) .down (delayed x b)).recount s.depth (s.entered.iterations + 1)) := by
  obtain ⟨n, step⟩ := evaluateWith_setDelayed (x := x) (s := s.entered) (unhindered.of_contents rfl rfl rfl) single
  have stored : s.entered.addDefinition c (sym x) .down (delayed x b) =
      (s.addDefinition c (sym x) .down (delayed x b)).recount (s.depth + 1) s.entered.iterations :=
    addDefinition_recount _ _
  obtain ⟨-, after⟩ := unhindered.addDefinition x b
  obtain ⟨recursion, iteration⟩ := addDefinition_limits (s := s) (c := c) (x := x) (b := b)
  generalize s.addDefinition c (sym x) .down (delayed x b) = u at *
  have counted : countReplacement (u.recount (s.depth + 1) s.entered.iterations) =
      .ok () (u.recount (s.depth + 1) (s.entered.iterations + 1)) :=
    (countReplacement_eq _).trans (if_neg (by simp only [Session.recount, iteration]; omega))
  have unset := Unhindered.unset (s := u.recount (s.depth + 1) (s.entered.iterations + 1))
    (after.of_contents rfl rfl rfl) "Null" (by simp)
  refine ⟨n + 3, fun fuel enough => ?_⟩
  obtain ⟨m, rfl⟩ : ∃ m, fuel = m + 3 := ⟨fuel - 3, by omega⟩
  -- What the assignment is replaced by is evaluated one level further down.
  have room : ((s.depth + 1 : Nat) + 1 : Int) ≤ u.recursionLimit := by omega
  rw [evaluate, deeper_eq, if_neg (by omega), step (m + 2) _ (by omega), stored, Step.bind_of_ok counted,
    evaluate_unset unset room]
  rfl

end Assigning

theorem delay_recount (bodies : List Value) (depth iterations : Nat) :
    (s.recount depth iterations).delay c x bodies = (s.delay c x bodies).recount depth iterations := by
  induction bodies generalizing s with
  | nil => rfl
  | cons b bodies ih => rw [delay, addDefinition_recount, ih, delay]

theorem evaluateAll_setDelayed (unhindered : s.Unhindered c) {bodies : List Value}
    (single : ∀ b ∈ bodies, b.argsOf? "Sequence" = none) (deep : (s.depth + 2 : Int) ≤ s.recursionLimit)
    (more : (s.entered.iterations + bodies.length : Int) ≤ s.iterationLimit) : ∃ i n, ∀ fuel, n ≤ fuel →
    evaluateAll (evaluate fuel) c (bodies.map fun b => call "SetDelayed" [sym x, b]) s =
      .ok (bodies.map fun _ => nothing) ((s.delay c x bodies).recount s.depth i) := by
  induction bodies generalizing s with
  | nil => exact ⟨s.iterations, 0, fun _ _ => rfl⟩
  | cons b bodies ih =>
    obtain ⟨first, others⟩ := List.forall_mem_cons.1 single
    rw [List.length_cons] at more
    obtain ⟨n, step⟩ := evaluate_setDelayed (x := x) unhindered first deep (by omega)
    obtain ⟨-, after⟩ := unhindered.addDefinition x b
    obtain ⟨recursion, iteration⟩ := addDefinition_limits (s := s) (c := c) (x := x) (b := b)
    rw [delay]
    generalize s.addDefinition c (sym x) .down (delayed x b) = u at *
    -- From outside of all evaluation replacements are counted anew each time, and otherwise they add up.
    have fewer : ((u.recount s.depth (s.entered.iterations + 1)).entered.iterations + bodies.length : Int) ≤
        (u.recount s.depth (s.entered.iterations + 1)).iterationLimit := by
      show ((if s.depth = 0 then 0 else s.entered.iterations + 1 : Nat) + bodies.length : Int) ≤ u.iterationLimit
      rw [iteration]
      split <;> omega
    obtain ⟨i, k, rest⟩ := ih (s := u.recount s.depth (s.entered.iterations + 1)) (after.of_contents rfl rfl rfl) others
      (recursion ▸ deep) fewer
    refine ⟨i, max n k, fun fuel enough => ?_⟩
    rw [List.map_cons, evaluateAll, Step.bind_of_ok (step fuel (by omega)), Step.bind_of_ok (rest fuel (by omega)),
      delay_recount]
    rfl

end Evaluating

/-- Delayed assignments to a symbol without own definitions are carried out one after another, each coming to nothing;
their definitions come after those that there were of expressions that the symbol heads, in order, and the symbol
has no own definitions still. They are never read: none applies to an expression, and in every session in which the
symbol has no own definitions it comes to itself and nothing changes. So there it comes to what a body comes to, and
leaves what that leaves, exactly if the body comes to the symbol and changes nothing. -/
theorem delayed_assignments_unread {s : Session} {c : ContextId} {x : String} {bodies : List Value}
    (unhindered : s.Unhindered c) (unowned : s.definitions? c (sym x) .own = none)
    (single : ∀ b ∈ bodies, b.argsOf? "Sequence" = none) (deep : (s.depth + 2 : Int) ≤ s.recursionLimit)
    (more : (s.entered.iterations + bodies.length : Int) ≤ s.iterationLimit) :
    (∃ i n, ∀ fuel, n ≤ fuel → evaluateAll (evaluate fuel) c (bodies.map fun b => call "SetDelayed" [sym x, b]) s =
      .ok (bodies.map fun _ => nothing) ((s.delay c x bodies).recount s.depth i)) ∧
    (s.delay c x bodies).downs c x = s.downs c x ++ bodies.map (delayed x) ∧
    (s.delay c x bodies).definitions? c (sym x) .own = none ∧
    (∀ b ev a h as t, (delayed x b).apply ev a (.expr h as t) = pure none) ∧
    ∀ w : Session, (∀ l, w.definitions? c (sym x) .own = some l → w.definitionsOf l = []) →
      (w.depth + 1 : Int) ≤ w.recursionLimit →
      (∀ fuel, evaluate (fuel + 2) c (sym x) w = .ok (sym x) (w.recount w.depth w.entered.iterations)) ∧
      ∀ b n r v, evaluate n c b w = .ok r v →
        ((∃ k i, evaluate k c (sym x) w = .ok r (v.recount v.depth i)) ↔ r = sym x ∧ ∃ i, v = w.recount w.depth i) := by
  obtain ⟨stored, own⟩ := unhindered.delay (x := x) bodies
  refine ⟨evaluateAll_setDelayed unhindered single deep more, stored, (own x).trans unowned,
    fun b ev a => apply_ofSymbol ⟨_, _, rfl⟩, fun w unset room => ⟨evaluate_unset unset room, fun b n r v ran => ?_⟩⟩
  have itself := evaluate_unset unset room 0
  constructor
  · rintro ⟨k, i, run⟩
    have agree : evaluate k c (sym x) w = evaluate 2 c (sym x) w :=
      Prolongs.agree (m := fun n => evaluate n c _) (fun n => evaluate_prolongs n c _) (by rw [run]; rfl)
        (by rw [itself]; rfl)
    rw [run, itself] at agree
    injection agree with value left
    have counted := congrArg (fun t : Session => t.recount t.depth v.iterations) left
    exact ⟨value, v.iterations, counted⟩
  · rintro ⟨rfl, i, rfl⟩
    exact ⟨2, w.entered.iterations, itself⟩

theorem initial_unhindered : Session.initial.Unhindered globalId := by
  have absent : ∀ v k, Session.initial.definitions? globalId v k = none := fun v k => by
    rw [definitions?, nearest]
    rfl
  exact ⟨rfl, by decide, fun y l found => (by cases (absent _ _).symm.trans found), initial_bare.unmarked _,
    fun f _ => absent _ _, fun l found => (by cases (absent _ _).symm.trans found),
    fun y l found => (by cases (absent _ _).symm.trans found)⟩

/-- `x` is assigned a sum and then a list, and comes to itself. -/
theorem delayed_assignments_unread_twice :
    let bodies := [call "Plus" [int 1, int 2], call "List" [sym "y"]]
    let t := Session.initial.delay globalId "x" bodies
    (∃ i n, evaluateAll (evaluate n) globalId (bodies.map fun b => call "SetDelayed" [sym "x", b]) Session.initial =
      .ok [nothing, nothing] (t.recount 0 i)) ∧
    t.downs globalId "x" = bodies.map (delayed "x") ∧
    evaluate 2 globalId (sym "x") t = .ok (sym "x") (t.recount t.depth t.entered.iterations) := by
  intro bodies t
  have single : ∀ b ∈ bodies, b.argsOf? "Sequence" = none := by decide +kernel
  have unowned : Session.initial.definitions? globalId (sym "x") .own = none := by
    rw [definitions?, nearest]
    rfl
  obtain ⟨⟨i, n, ran⟩, stored, own, -, later⟩ :=
    delayed_assignments_unread initial_unhindered unowned single (by decide) (by decide)
  have unset : ∀ l, t.definitions? globalId (sym "x") .own = some l → t.definitionsOf l = [] := fun l found => by
    cases own.symm.trans found
  refine ⟨⟨i, n, ran n (Nat.le_refl n)⟩, stored.trans ?_, (later t unset (by decide +kernel)).1 0⟩
  rw [Session.downs, definitions?, nearest]
  rfl

/-- After `SetDelayed[x, Plus[1, 2]]` the sum comes to 3 and `x` to itself; and so does `x[]`. -/
theorem delayed_assignment_disregarded :
    let t := Step.final (evaluate 9 0 (call "SetDelayed" [sym "x", call "Plus" [int 1, int 2]]) Session.initial)
    (t.downs 0 "x").length = 1 ∧
    Step.returns (same (int 3)) (evaluate 9 0 (call "Plus" [int 1, int 2]) t) = true ∧
    Step.returns (same (sym "x")) (evaluate 9 0 (sym "x") t) = true ∧
    Step.returns (same (call "x" [])) (evaluate 9 0 (call "x" []) t) = true := by
  decide +kernel

end Symbolic
