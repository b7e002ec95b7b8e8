import Symbolic.Proofs.Evaluation.Tracking

/-!
Properties of evaluation that ask nothing of values. A property of computations, or of families of
computations that are compared with each other, is compositional if plain steps have it and if sequencing,
counting and entering a context keep it; it is admissible for some contexts if this holds of plain steps that write
to no other context. Such a property tracks the regime that asks for nothing but these contexts, so that evaluation
has it if every nested evaluation has it (`evaluateWith_of_stops`).
-/
namespace Symbolic

open Value Session

variable {ι : Type}

structure Compositional (P : ∀ α : Type, (ι → Eval α) → Prop) : Prop where
  perform {α : Type} {f : Session → α × Session} (plain : Plain f) : P α fun _ => perform f
  fail {α : Type} (e : Error) : P α fun _ => Step.fail e
  bind {α β : Type} {m : ι → Eval α} {k : ι → α → Eval β} (first : P α m) (next : ∀ a, P β fun i => k i a) :
    P β fun i => m i >>= k i
  count : P Unit fun _ => countReplacement
  inside {α : Type} {m : ι → Eval α} (c : ContextId) (run : P α m) : P α fun i => Scope.inside c (m i)

/-- Only steps that write to some contexts have to have the property, and evaluation in those contexts. A
context made inside of one of them is one of them. -/
structure Admissible (A : ContextId → Prop) (P : ∀ α : Type, (ι → Eval α) → Prop) : Prop where
  perform {α : Type} {f : Session → α × Session} (confined : Confined A f) : P α fun _ => perform f
  fail {α : Type} (e : Error) : P α fun _ => Step.fail e
  bind {α β : Type} {m : ι → Eval α} {k : ι → α → Eval β} (first : P α m) (next : ∀ a, P β fun i => k i a) :
    P β fun i => m i >>= k i
  count : P Unit fun _ => countReplacement
  inside {α : Type} {m : ι → Eval α} (c : ContextId) (run : P α m) : P α fun i => Scope.inside c (m i)
  enter {α : Type} {k : ι → ContextId → Eval α} {c : ContextId} (here : A c)
    (next : ∀ inner, A inner → P α fun i => k i inner) :
    P α fun i => Symbolic.perform (fun s => s.newContext "Block" (some c)) >>= k i

/-- Nothing is asked but that contexts of some sort are written to. -/
def Regime.writing (A : ContextId → Prop) : Regime :=
  ⟨False, A, fun _ => False, fun _ => False, fun _ => False, fun _ => False⟩

namespace Admissible

variable {A : ContextId → Prop} {P : ∀ α : Type, (ι → Eval α) → Prop} (admissible : Admissible A P)

include admissible

variable {α : Type}

theorem pure (a : α) : P α fun _ => Pure.pure a :=
  admissible.perform (f := fun s => (a, s)) (.read fun _ _ => rfl)

theorem ofExcept (r : Except Error α) : P α fun _ => Step.ofExcept r := by
  cases r with
  | ok a => exact admissible.pure a
  | error e => exact admissible.fail e

theorem read {k : ι → Session → Eval α} (same : ∀ i s f, k i (s.withFrame f) = k i s)
    (next : ∀ s, P α fun i => k i s) : P α fun i => get >>= k i := by
  -- The session in a frame that is always the same has the contents and nothing else.
  let bare : Session → Session := fun s => s.withFrame ⟨0, 0, 0, 0, []⟩
  have step := admissible.perform (f := fun s => (bare s, s)) (.read fun _ _ => rfl)
  have both := admissible.bind step next
  have equal : (fun i => Symbolic.perform (fun s => (bare s, s)) >>= k i) = fun i => get >>= k i := by
    funext i s
    exact congrFun (same i s _) s
  rwa [equal] at both

theorem change {g : Session → Session} (confined : Confined A fun s => ((), g s)) :
    P PUnit fun _ => (modify g : Eval PUnit) :=
  admissible.perform confined

theorem freshFor (target : Value) : P Value fun _ => Scope.freshFor target := by
  cases target with
  | symbol x =>
    refine admissible.perform (f := fun s => s.generate x.name) ⟨⟨fun _ _ => rfl, fun s => ?_⟩, fun s => ?_⟩
    · exact .of_lists rfl (List.suffix_cons ..) rfl
    · exact .none rfl rfl
  | _ => exact admissible.fail _

omit admissible in
theorem ownList_eq (c : ContextId) (target : Value) :
    Scope.ownList c target = (Step.ofExcept (requireKeys [target]) >>= fun _ =>
      Symbolic.perform fun s => (s.definitions? c target .own).elim (s.newList []) (·, s)) := by
  rw [Scope.ownList]
  congr 1
  funext _ s
  rw [Step.bind_get, Symbolic.perform]
  cases s.definitions? c target .own <;> rfl

theorem ownList (c : ContextId) (target : Value) : P ListId fun _ => Scope.ownList c target := by
  rw [ownList_eq]
  refine admissible.bind (admissible.ofExcept _) fun _ =>
    admissible.perform ⟨⟨fun s k => ?_, fun s => ?_⟩, fun s => ?_⟩
  · rw [definitions_withFrame]
    cases s.definitions? c target .own <;> rfl
  · cases s.definitions? c target .own with
    | some l => exact .refl s
    | none => exact grows_push s []
  · cases s.definitions? c target .own with
    | some l => exact .none rfl rfl
    | none => exact .newList s []

omit admissible in
theorem confined_restore {c : ContextId} (here : A c) (saved : List (Value × ListId)) :
    Confined A fun s => ((), saved.foldl (fun s p => s.updateContext c fun ctx => ctx.setList p.1 .own p.2) s) := by
  refine ⟨.change (fun s k => ?_) (fun s => ?_) (fun s => ?_) fun s => ?_, fun s => ?_⟩
  all_goals induction saved generalizing s with
    | nil => first | rfl | exact .none rfl rfl
    | cons p saved ih =>
      have rest := ih (s.updateContext c fun ctx => ctx.setList p.1 .own p.2)
      first | exact rest | exact (Change.own here s p.1 p.2).trans rest

theorem request (as : List Value) : P Value fun _ => Web.request as := by
  have noted : ∀ bs es, P PUnit fun _ => Web.noteHeaders bs es := fun bs es =>
    admissible.change (.elsewhere (fun _ _ => rfl) (fun _ => rfl) (fun _ => rfl) (fun _ => rfl) fun _ => rfl)
  have sent : ∀ message : Web.Sent, P Value fun _ => ((modify fun s => { s with sent := s.sent ++ [message] }) >>=
      fun _ => get >>= fun s => Step.ofExcept s.reply.result : Eval Value) := by
    intro message
    refine admissible.bind ?_ fun _ => ?_
    · exact admissible.change (.elsewhere (fun _ _ => rfl) (fun _ => rfl) (fun _ => rfl) (fun _ => rfl) fun _ => rfl)
    exact admissible.read (fun _ _ _ => rfl) fun s => admissible.ofExcept _
  match as with
  | [] | [_] => exact admissible.pure _
  | method :: url :: more =>
    refine admissible.bind (admissible.ofExcept _) fun verb => ?_
    refine admissible.bind (admissible.ofExcept _) fun target => ?_
    refine admissible.bind (admissible.ofExcept _) fun body => ?_
    refine Tracks.choose (admissible.bind (noted _ _) fun _ => ?_) ?_
    all_goals exact admissible.bind (admissible.ofExcept _) fun headers => sent _

theorem tracks : Tracks (.writing A) fun α _ m => P α m where
  pure _ := admissible.pure _
  fail := admissible.fail
  bind first next := admissible.bind first fun a => next a False.elim
  read same next := admissible.read same fun s => next s False.elim
  count := admissible.count
  inside := admissible.inside
  enter := admissible.enter
  define here _ := admissible.change (.define here _ _)
  addBody here _ := admissible.change (.addBody here _ _)
  freshFor := admissible.freshFor
  ownList := admissible.ownList
  restore here _ := admissible.change (confined_restore here _)
  request := admissible.request
  found := False.elim
  made := False.elim
  registered := False.elim
  constant := False.elim
  repetition := False.elim
  answer := False.elim

variable (ev : ι → Evaluator) in
theorem evaluateWith_of_stops (calls : ∀ c, A c → ∀ v, P Value fun i => ev i c v)
    (stops : ∀ α, P α fun _ => throw .outOfFuel) (n : Nat) {c : ContextId} (here : A c) (v : Value) :
    P Value fun i => evaluateWith (ev i) n c v :=
  admissible.tracks.evaluateWith_of_stops (fun α _ => stops α) (fun c here v _ => calls c here v) here n False.elim

end Admissible

/-! ### Properties of all plain steps, whatever they write to -/

namespace Compositional

variable {P : ∀ α : Type, (ι → Eval α) → Prop} (compositional : Compositional P)

include compositional

theorem admissible : Admissible (fun _ => True) P where
  perform confined := compositional.perform confined.toPlain
  fail := compositional.fail
  bind := compositional.bind
  count := compositional.count
  inside := compositional.inside
  enter _ next := compositional.bind
    (compositional.perform ⟨fun _ _ => rfl, fun _ => .of_lists rfl (List.suffix_refl _) rfl⟩) fun inner => next inner trivial

theorem tracks : Tracks (.writing fun _ => True) fun α _ m => P α m := compositional.admissible.tracks

variable {ev : ι → Evaluator} (calls : ∀ c v, P Value fun i => ev i c v)

include calls

theorem applyDefinition (c : ContextId) (d : Definition) (e : Value) : P (Option Value) fun i => d.apply (ev i) c e :=
  compositional.tracks.applyDefinition (fun c _ v _ => calls c v) trivial False.elim False.elim

theorem operation {fuel : ι → Nat} (op : Operation)
    (unbounded : op = .whileLoop ∨ op = .forLoop →
      ∀ c test steps, P Value fun i => Control.loopWhile (ev i) c test steps (fuel i))
    (c : ContextId) (e : Value) : P Value fun i => op.run (ev i) (fuel i) c e :=
  compositional.tracks.operation (fun c _ v _ => calls c v) trivial op False.elim
    (fun loop c _ test steps _ _ => unbounded loop c test steps) False.elim

/-- Evaluation has a compositional property if nested evaluations, searches through definitions and
builtins have it. -/
theorem evaluateWith {fuel : ι → Nat}
    (search : ∀ c l e, P (Option Value) fun i => applyFrom (ev i) c l e (fuel i) 0)
    (builtins : ∀ c e, P Value fun i => runBuiltin (ev i) (fuel i) c e) (c : ContextId) (v : Value) :
    P Value fun i => Symbolic.evaluateWith (ev i) (fuel i) c v :=
  compositional.tracks.evaluateWith trivial (fun c _ l _ e _ => search c l e) (fun c _ e _ => builtins c e)
    (fun c _ v _ => calls c v) False.elim

variable (ev)

theorem evaluateAll (c : ContextId) (as : List Value) : P (List Value) fun i => Symbolic.evaluateAll (ev i) c as :=
  compositional.tracks.evaluateAll (fun c _ v _ => calls c v) trivial False.elim

variable (stops : ∀ α, P α fun _ => throw .outOfFuel)

include stops

theorem evaluateArranged_of_stops (n : Nat) (c : ContextId) (attrs : SymbolSet) (e : Value) :
    P Value fun i => Symbolic.evaluateArranged (ev i) n c attrs e := by
  have T := compositional.tracks
  exact T.evaluateArranged trivial
    (fun _ here l _ e _ => T.applyFrom (fun c _ v _ => calls c v) (fun α _ => stops α) here False.elim False.elim n 0)
    (fun _ here e _ => T.runBuiltin_of_stops (fun c _ v _ => calls c v) (fun α _ => stops α) here n False.elim)
    (fun c _ v _ => calls c v) attrs False.elim

theorem evaluateWith_of_stops (n : Nat) (c : ContextId) (v : Value) :
    P Value fun i => Symbolic.evaluateWith (ev i) n c v :=
  compositional.admissible.evaluateWith_of_stops ev (fun c _ => calls c) stops n trivial v

end Compositional
end Symbolic
