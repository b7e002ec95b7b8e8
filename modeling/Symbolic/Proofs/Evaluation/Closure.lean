import Symbolic.Proofs.Evaluation.Ground

/-!
Evaluation is closed on elements, up to two builtins. An element is evaluated to an element, and
all that is stored on the way is made of elements, unless a product of symbols or expressions, or a
request, comes to a foreign value on the way. Every builtin hands elements to evaluation only, and gives an
element or such a foreign value; and that value is met when the result of the builtin is evaluated again.
-/
namespace Symbolic

open Value Session

section Steps

variable {G : Ground}

theorem freshFor_follows (target : Value) : Follows G IsElement fun _ => Scope.freshFor target := by
  cases target with
  | symbol x =>
    refine .plain fun s holds a t run => ?_
    cases run
    exact ⟨rfl, holds.of_contents rfl rfl rfl⟩
  | _ => exact .fail _

theorem ownList_follows (c : ContextId) (target : Value) : Follows G G.lists fun _ => Scope.ownList c target := by
  rw [Admissible.ownList_eq]
  refine .bind (Q := fun _ => True) (.ofExcept fun _ _ => trivial) fun _ _ => .plain fun s holds l t run => ?_
  cases found : s.definitions? c target .own with
  | some m =>
    simp only [perform, found, Option.elim_some] at run
    cases run
    exact ⟨holds.found found, holds⟩
  | none =>
    simp only [perform, found, Option.elim_none] at run
    cases run
    exact ⟨holds.fresh _ (Nat.le_refl _), holds.newList fun _ member => by cases member⟩

theorem Ground.Holds.restore {c : ContextId} {s : Session} (holds : G.Holds s) {saved : List (Value × ListId)}
    (within : ∀ p ∈ saved, G.lists p.2) :
    G.Holds (saved.foldl (fun s p => s.updateContext c fun ctx => ctx.setList p.1 .own p.2) s) := by
  induction saved generalizing s with
  | nil => exact holds
  | cons p saved ih =>
    obtain ⟨here, later⟩ := List.forall_mem_cons.1 within
    exact ih (holds.setList here) later

theorem request_follows (as : List Value) : Follows G (fun r => ∃ es, r = .table es) fun _ => Web.request as := by
  have anything : ∀ {α : Type} (r : Except Error α), Follows G (fun _ => True) fun _ => (Step.ofExcept r : Eval α) :=
    fun r => .ofExcept fun _ _ => trivial
  have answered : ∀ reply : Web.Reply, ∀ v, reply.result = .ok v → ∃ es, v = .table es := by
    intro reply v run
    cases reply with
    | answer status body =>
      obtain ⟨w, _, run⟩ := Except.bind_ok run
      cases run
      exact ⟨_, rfl⟩
    | refusal | unreachable =>
      cases run
      exact ⟨_, rfl⟩
  have sent : ∀ message : Web.Sent, Follows G (fun r => ∃ es, r = .table es) fun _ =>
      ((modify fun s => { s with sent := s.sent ++ [message] }) >>= fun _ => get >>= fun s =>
        Step.ofExcept s.reply.result : Eval Value) := fun message =>
    .bind (.change fun s holds => holds.of_contents rfl rfl rfl) fun _ _ =>
      .read fun s _ => .ofExcept fun v run => answered s.reply v run
  match as with
  | [] | [_] => exact .pure ⟨_, rfl⟩
  | method :: url :: more =>
    refine .bind (anything _) fun verb _ => .bind (anything _) fun target _ => .bind (anything _) fun body _ => ?_
    refine Tracks.choose (.bind (.change fun s holds => holds.of_contents rfl rfl rfl) fun _ _ => ?_) ?_
    all_goals exact .bind (anything _) fun headers _ => sent _

/-- Values are elements, and what the ground says is known. -/
def Ground.regime (G : Ground) : Regime where
  strict := True
  context _ := True
  session := G.Holds
  list := G.lists
  operation op := ∃ e ∈ G.registry, e.2.operation = op
  foreign := Foreign G.registry

theorem tracks_follows : Tracks G.regime fun _ Q m => Follows G Q m where
  pure known := .pure (known trivial)
  fail := .fail
  bind first next := first.bind fun a known => next a fun _ => known
  read _ next := .read fun s holds => next s fun _ => holds
  count := .count
  inside := .inside
  enter {_ _ _ c} _ next := by
    refine .bind (Q := fun _ => True) (.plain fun s holds a t run => ?_) fun inner _ => next inner trivial
    cases run
    exact ⟨trivial, holds.newContext "Block" (some c)⟩
  define _ made := .change fun s holds => holds.define (made trivial)
  addBody _ element := .change fun s holds => holds.addDefinition ⟨rfl, element trivial, rfl⟩
  freshFor := freshFor_follows
  ownList := ownList_follows
  restore _ within := .change fun s holds => holds.restore (within trivial)
  request := request_follows
  found known listed := known.found listed
  made known within := known.made _ within
  registered known found := by
    obtain ⟨key, registered⟩ := Context.find_mem found
    exact ⟨_, known.registry ▸ registered, rfl⟩
  constant := by
    rintro v ⟨e, member, same⟩
    exact G.constants e member v same
  repetition there repeated := .inl ⟨repeated, there⟩
  answer there := .inr ⟨⟨_, rfl⟩, there⟩

end Steps

/-- Evaluation that gives an alarm instead of evaluating a value that is no element. -/
def evaluateGuarded (alarm : Value → Error) : Nat → Evaluator
  | 0, _, _ => throw .outOfFuel
  | fuel + 1, c, v =>
    if v.isElement then deeper (evaluateWith (evaluateGuarded alarm fuel) fuel c v) else Step.fail (alarm v)

def evaluateUnder : Guard → Nat → Evaluator
  | none => evaluate
  | some alarm => evaluateGuarded alarm

theorem evaluateUnder_element (fuel : Nat) {c : ContextId} {v : Value} (element : v.isElement = true) (i : Guard) :
    evaluateUnder i (fuel + 1) c v = deeper (evaluateWith (evaluateUnder i fuel) fuel c v) := by
  cases i with
  | none => rfl
  | some alarm => exact if_pos element

theorem Foreign.not_element {registry : Registry} {d : Value} (foreign : Foreign registry d) : d.isElement = false := by
  rcases foreign with ⟨⟨w, xs, n, _, _, rfl⟩, _⟩ | ⟨⟨es, rfl⟩, _⟩ <;> rfl

theorem evaluateUnder_follows {G : Ground} (fuel : Nat) {c : ContextId} {v : Value} (element : v.isElement = true) :
    Follows G IsElement fun i => evaluateUnder i fuel c v := by
  induction fuel generalizing c v with
  | zero =>
    have stopped : ∀ i, evaluateUnder i 0 c v = throw .outOfFuel := fun i => by cases i <;> rfl
    simp only [stopped]
    exact .stop _
  | succ fuel ih =>
    simp only [evaluateUnder_element fuel element]
    refine .deeper (tracks_follows.evaluateWith_of_stops (fun _ _ => .stop _) (fun c _ d gives => ?_) trivial fuel
      fun _ => element)
    rcases gives trivial with element | foreign
    · exact ih element
    -- The alarm is given before anything else is done with the value.
    cases fuel with
    | zero =>
      have stopped : ∀ i, evaluateUnder i 0 c d = throw .outOfFuel := fun i => by cases i <;> rfl
      simp only [stopped]
      exact .stop _
    | succ fuel =>
      refine fun s holds => .inr ⟨d, foreign, s, fun alarm => ?_⟩
      have rings : evaluateGuarded alarm (fuel + 1) c d = Step.fail (alarm d) := if_neg (by simp [foreign.not_element])
      exact congrFun rings s

/-- Evaluation of an element in a session that stores elements only comes to an element and stores elements
only, unless a value that a product of symbols or expressions, or a request, has made is evaluated on the
way: then the guarded evaluation gives the alarm for it. -/
theorem evaluate_closed (fuel : Nat) (c : ContextId) {e : Value} {s : Session} (element : e.isElement = true)
    (elementary : s.Elementary) :
    ((∀ alarm, evaluateGuarded alarm fuel c e s = evaluate fuel c e s) ∧
      ∀ r t, evaluate fuel c e s = .ok r t → r.isElement = true ∧ t.Elementary) ∨
    ∃ d, Foreign s.registry d ∧ ∃ u, ∀ alarm, evaluateGuarded alarm fuel c e s = .error (.failure (alarm d)) u := by
  rcases evaluateUnder_follows (c := c) fuel element s elementary.holds with ⟨same, known⟩ | rings
  · refine .inl ⟨fun alarm => same (some alarm), fun r t run => ?_⟩
    obtain ⟨fine, holds⟩ := known r t run
    exact ⟨fine, holds.elementary⟩
  · exact .inr rings

theorem initial_elementary : Session.initial.Elementary := by
  have empty : ∀ (c : ContextId) ctx, Session.initial.contexts[c]? = some ctx → ctx.entries = [] := by
    intro c ctx there
    obtain ⟨bound, rfl⟩ := Array.getElem?_eq_some_iff.1 there
    obtain rfl : c = 0 := Nat.lt_one_iff.1 bound
    rfl
  have computed : ∀ e ∈ Builtin.standard, (match e.2.operation with | .const _ => false | _ => true) = true := by
    decide +kernel
  refine ⟨fun c ctx there e member => ?_, fun c ctx there e member => ?_, fun e member v constant => ?_⟩
  · rw [empty c ctx there] at member
    cases member
  · rw [empty c ctx there] at member
    cases member
  · have impossible := computed e member
    rw [constant] at impossible
    cases impossible

/-- With `f[x_] -> x * x` for positive `x`, the product of `f[1]` and `f[2]` is assigned to `y`. -/
theorem evaluate_closed_assignment :
    let s := Session.initial.define 0 (sym "f") .down [⟨call "f" [call "Pattern" [sym "x", call "Blank" []]],
      call "Times" [sym "x", sym "x"], call "Greater" [sym "x", int 0]⟩]
    let e := call "Set" [sym "y", call "Product" [call "f" [sym "i"], ofItems [sym "i", int 2]]]
    s.Elementary ∧ ∃ r t, evaluate 12 0 e s = .ok r t ∧ (int 4).same r = true ∧ r.isElement = true ∧ t.Elementary := by
  intro s e
  have elementary : s.Elementary := by
    refine (initial_elementary.holds.define fun d member => ?_).elementary
    rw [List.mem_singleton.1 member]
    exact ⟨by decide, by decide, by decide⟩
  have runs : Step.returns (same (int 4)) (evaluateGuarded (fun _ => .malformed) 12 0 e s) = true := by decide +kernel
  obtain ⟨r, t, guarded, four⟩ := Step.returns_iff.1 runs
  refine ⟨elementary, r, t, ?_⟩
  rcases evaluate_closed 12 0 (by decide : e.isElement = true) elementary with ⟨same, closed⟩ | ⟨d, _, u, rings⟩
  · have run := (same _).symm.trans guarded
    exact ⟨run, four, closed r t run⟩
  · cases (rings _).symm.trans guarded

/-- The product of `x` for `i` up to 1 is the plain tuple of what `x` is made of. -/
theorem product_leaves_elements :
    let e := call "Product" [sym "x", ofItems [sym "i", int 1]]
    e.isElement = true ∧ Step.returns (fun r => !r.isElement && r.same (.tuple [.text "x"]))
      (evaluate 9 0 e Session.initial) = true := by
  decide +kernel

end Symbolic
