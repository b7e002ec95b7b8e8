import Symbolic.Proofs.Evaluation.Transparency

/-!
Which arguments are held. The attributes of an expression come from three places, so any of them can stand
together. The rule says of each position by itself whether the argument there is held (`Attribute.holds`);
evaluation looks for one attribute after the other and goes by the first that it finds (`Attribute.holdsBack`).
Main statement: evaluation passes on the arguments that it holds and evaluates the others, each of them once and
from left to right; and it follows the rule exactly if `Hold` does not stand without `HoldAll`, nor `HoldFirst`
with `HoldRest`.
-/
namespace Symbolic

open Value Session

/-! ### The rule and what evaluation goes by -/

namespace Attribute

/-- The rule: whether attributes hold the argument at a position. -/
def holds (attrs : SymbolSet) (i : Nat) : Bool :=
  attrs.meets (.ofList holdingAll) || attrs.contains holdFirst && i == 0 || attrs.contains holdRest && i != 0

/-- Whether evaluation holds the argument at a position. -/
def holdsBack (attrs : SymbolSet) (i : Nat) : Bool :=
  attrs.contains holdAllComplete || attrs.contains holdAll ||
    if attrs.contains holdFirst then i == 0 else attrs.contains holdRest && i != 0

theorem meets_holdingAll (attrs : SymbolSet) :
    attrs.meets (.ofList holdingAll) =
      (attrs.contains hold || attrs.contains holdAll || attrs.contains holdAllComplete) := by
  have members : (SymbolSet.ofList holdingAll).members = [hold, holdAll, holdAllComplete] := by decide
  rw [Bool.eq_iff_iff]
  simp only [SymbolSet.meets, SymbolSet.contains, members, List.any_eq_true, List.contains_iff_mem, Bool.or_eq_true,
    List.mem_cons, List.not_mem_nil, or_false]
  constructor
  · rintro ⟨a, member, rfl | rfl | rfl⟩
    · exact .inl (.inl member)
    · exact .inl (.inr member)
    · exact .inr member
  · rintro ((member | member) | member)
    · exact ⟨_, member, .inl rfl⟩
    · exact ⟨_, member, .inr (.inl rfl)⟩
    · exact ⟨_, member, .inr (.inr rfl)⟩

/-- The rule is followed at every position exactly if all arguments are held anyway, or if neither `Hold` is
among the attributes nor both `HoldFirst` and `HoldRest`. -/
theorem holdsBack_eq_holds {attrs : SymbolSet} :
    (∀ i, holdsBack attrs i = holds attrs i) ↔
      attrs.contains holdAllComplete = true ∨ attrs.contains holdAll = true ∨
        attrs.contains hold = false ∧ (attrs.contains holdFirst && attrs.contains holdRest) = false := by
  simp only [holds, meets_holdingAll, holdsBack]
  constructor
  · intro same
    have first := same 0
    have second := same 1
    revert first second
    cases attrs.contains hold <;> cases attrs.contains holdAll <;> cases attrs.contains holdAllComplete <;>
      cases attrs.contains holdFirst <;> cases attrs.contains holdRest <;> decide
  · rintro (complete | all | ⟨free, apart⟩) i
    · simp [complete]
    · simp [all]
    · revert apart
      rw [free, Bool.false_or, Bool.or_comm (attrs.contains holdAll)]
      cases attrs.contains holdFirst <;> cases attrs.contains holdRest <;> simp

end Attribute

/-! ### Arguments in order -/

/-- An argument that is held stays as it is, any other is evaluated. -/
def handOne (ev : Evaluator) (c : ContextId) (held : Bool) (a : Value) : Eval Value :=
  if held then pure a else ev c a

/-- Takes arguments in order; whether one is held is said for each position. -/
def handOver (ev : Evaluator) (c : ContextId) : (Nat → Bool) → List Value → Eval (List Value)
  | _, [] => return []
  | held, a :: as => do
    let b ← handOne ev c (held 0) a
    return b :: (← handOver ev c (fun i => held (i + 1)) as)

/-- What comes of arguments that are taken in order, with the session before each of them and after the last:
one that is held stays as it is, in the session as it is; any other is evaluated, in the session that those
before it left. -/
structure Handed (ev : Evaluator) (c : ContextId) (held : Nat → Bool) (as bs : List Value) (σ : Nat → Session) :
    Prop where
  length : bs.length = as.length
  kept : ∀ i a, as[i]? = some a → held i = true → bs[i]? = some a ∧ σ (i + 1) = σ i
  evaluated : ∀ i a, as[i]? = some a → held i = false → ∃ b, bs[i]? = some b ∧ ev c a (σ i) = .ok b (σ (i + 1))

/-- A session, and then others. -/
def followedBy (s : Session) (σ : Nat → Session) : Nat → Session
  | 0 => s
  | i + 1 => σ i

section Order

variable {ev : Evaluator} {c : ContextId} {held : Nat → Bool} {a b : Value} {as bs : List Value} {s t u : Session}
  {σ : Nat → Session}

theorem handOver_held (all : ∀ i, held i = true) : handOver ev c held as = pure as := by
  induction as generalizing held with
  | nil => rfl
  | cons a as ih =>
    rw [handOver, all 0, ih fun i => all (i + 1)]
    rfl

theorem handOver_open (free : ∀ i, held i = false) : handOver ev c held as = evaluateAll ev c as := by
  induction as generalizing held with
  | nil => rfl
  | cons a as ih =>
    rw [handOver, free 0, ih fun i => free (i + 1)]
    rfl

/-- The attributes are looked for one after the other, but each position is decided by itself. -/
theorem evaluateArgs_eq (attrs : SymbolSet) :
    evaluateArgs ev c attrs as = handOver ev c (Attribute.holdsBack attrs) as := by
  unfold evaluateArgs
  split
  · next all =>
    rw [handOver_held]
    intro i
    rw [Attribute.holdsBack, all, Bool.true_or]
  · next none =>
    rw [Bool.not_eq_true] at none
    split
    · next first =>
      cases as with
      | nil => rfl
      | cons a as =>
        have here : Attribute.holdsBack attrs 0 = true := by simp [Attribute.holdsBack, none, first]
        have later : ∀ i, Attribute.holdsBack attrs (i + 1) = false := by simp [Attribute.holdsBack, none, first]
        rw [handOver, here, handOver_open later]
        rfl
    · next first =>
      split
      · next rest =>
        cases as with
        | nil => rfl
        | cons a as =>
          have here : Attribute.holdsBack attrs 0 = false := by simp [Attribute.holdsBack, none, first]
          have later : ∀ i, Attribute.holdsBack attrs (i + 1) = true := by simp [Attribute.holdsBack, none, first, rest]
          simp [handOver, handOne, evaluateAll, here, handOver_held later]
      · next rest =>
        rw [handOver_open]
        simp [Attribute.holdsBack, none, first, rest]

theorem Handed.nil : Handed ev c held [] [] σ := ⟨rfl, by simp, by simp⟩

theorem handed_cons :
    Handed ev c held (a :: as) (b :: bs) σ ↔
      (if held 0 then b = a ∧ σ 1 = σ 0 else ev c a (σ 0) = .ok b (σ 1)) ∧
        Handed ev c (fun i => held (i + 1)) as bs fun i => σ (i + 1) := by
  constructor
  · rintro ⟨length, kept, evaluated⟩
    refine ⟨?_, Nat.succ.inj length, fun i x => kept (i + 1) x, fun i x => evaluated (i + 1) x⟩
    split
    · next yes =>
      obtain ⟨same, still⟩ := kept 0 a rfl yes
      exact ⟨Option.some.inj same, still⟩
    · next no =>
      obtain ⟨_, same, run⟩ := evaluated 0 a rfl (Bool.eq_false_iff.2 no)
      cases same
      exact run
  · rintro ⟨first, length, kept, evaluated⟩
    refine ⟨congrArg Nat.succ length, fun i x there yes => ?_, fun i x there no => ?_⟩
    · cases i with
      | zero =>
        cases there
        rw [if_pos yes] at first
        exact ⟨congrArg some first.1, first.2⟩
      | succ i => exact kept i x there yes
    · cases i with
      | zero =>
        cases there
        rw [if_neg (Bool.eq_false_iff.1 no)] at first
        exact ⟨b, rfl, first⟩
      | succ i => exact evaluated i x there no

theorem handOne_ok {yes : Bool} :
    handOne ev c yes a s = .ok b t ↔ if yes then b = a ∧ t = s else ev c a s = .ok b t := by
  unfold handOne
  split
  · rw [Step.pure_ok, eq_comm, @eq_comm _ s]
  · rfl

theorem handOne_error {yes : Bool} {e : Halt} :
    handOne ev c yes a s = .error e t ↔ yes = false ∧ ev c a s = .error e t := by
  cases yes with
  | false => simp [handOne]
  | true => exact iff_of_false (by intro run; cases run) (by simp)

theorem handOver_ok :
    handOver ev c held as s = .ok bs t ↔ ∃ σ, σ 0 = s ∧ σ as.length = t ∧ Handed ev c held as bs σ := by
  induction as generalizing held bs s with
  | nil =>
    constructor
    · intro run
      obtain ⟨rfl, rfl⟩ := Step.pure_ok.1 run
      exact ⟨fun _ => s, rfl, rfl, .nil⟩
    · rintro ⟨σ, rfl, rfl, handed⟩
      obtain rfl := List.eq_nil_of_length_eq_zero handed.length
      rfl
  | cons a as ih =>
    constructor
    · intro run
      obtain ⟨b, u, here, rest⟩ := Step.bind_ok run
      obtain ⟨ds, w, there, joined⟩ := Step.bind_ok rest
      obtain ⟨rfl, rfl⟩ := Step.pure_ok.1 joined
      obtain ⟨σ, rfl, rfl, handed⟩ := ih.1 there
      exact ⟨followedBy s σ, rfl, rfl, handed_cons.2 ⟨handOne_ok.1 here, handed⟩⟩
    · rintro ⟨σ, rfl, rfl, handed⟩
      cases bs with
      | nil => cases handed.length
      | cons b ds =>
        obtain ⟨here, rest⟩ := handed_cons.1 handed
        rw [handOver, Step.bind_of_ok (handOne_ok.2 here), Step.bind_of_ok (ih.2 ⟨_, rfl, rfl, rest⟩)]
        rfl

/-- What stops arguments from being handed over is the evaluation of one of them, and none after it is
evaluated. -/
theorem handOver_error {e : Halt} :
    handOver ev c held as s = .error e t ↔
      ∃ i a bs σ, as[i]? = some a ∧ held i = false ∧ Handed ev c held (as.take i) bs σ ∧ σ 0 = s ∧
        ev c a (σ i) = .error e t := by
  induction as generalizing held s with
  | nil => exact iff_of_false (by intro run; cases run) (by simp)
  | cons a as ih =>
    constructor
    · intro run
      cases first : handOne ev c (held 0) a s with
      | error h u =>
        rw [handOver, Step.bind_of_error first] at run
        cases run
        obtain ⟨free, stops⟩ := handOne_error.1 first
        exact ⟨0, a, [], fun _ => s, rfl, free, .nil, rfl, stops⟩
      | ok b u =>
        rw [handOver, Step.bind_of_ok first] at run
        cases rest : handOver ev c (fun i => held (i + 1)) as u with
        | ok ds w =>
          rw [Step.bind_of_ok rest] at run
          cases run
        | error h w =>
          rw [Step.bind_of_error rest] at run
          cases run
          obtain ⟨i, x, ds, σ, there, free, handed, rfl, stops⟩ := ih.1 rest
          exact ⟨i + 1, x, b :: ds, followedBy s σ, there, free, handed_cons.2 ⟨handOne_ok.1 first, handed⟩, rfl, stops⟩
    · rintro ⟨i, x, ds, σ, there, free, handed, rfl, stops⟩
      cases i with
      | zero =>
        cases there
        rw [handOver, Step.bind_of_error (handOne_error.2 ⟨free, stops⟩)]
      | succ i =>
        cases ds with
        | nil => cases handed.length
        | cons b ds =>
          obtain ⟨here, later⟩ := handed_cons.1 handed
          have rest := ih.2 ⟨i, x, ds, _, there, free, later, rfl, stops⟩
          rw [handOver, Step.bind_of_ok (handOne_ok.2 here), Step.bind_of_error rest]

end Order

/-- The evaluation of an expression under the attributes that apply to it: its head comes first, unless it is held
too; then its arguments are handed over, and what comes of them is brought in order and goes on. The arguments
that are held are passed on as they are; any other is evaluated once, from left to right, and none after one that
fails. Which are held is as the rule says at every position exactly if all are held by `HoldAll` or
`HoldAllComplete`, or neither `Hold` is among the attributes nor both `HoldFirst` and `HoldRest`. -/
theorem arguments_handed (ev : Evaluator) (fuel : Nat) (c : ContextId) (s : Session) (h : Value) (as : List Value)
    (t : SymbolSet) :
    evaluateWith ev fuel c (.expr h as t) s = evaluateBy ev fuel c (s.effectiveAttributes c h t) h as t s ∧
    ∀ (attrs : SymbolSet) (u : Session),
      (∀ bs w, evaluateArgs ev c attrs as u = .ok bs w ↔
        ∃ σ, σ 0 = u ∧ σ as.length = w ∧ Handed ev c (Attribute.holdsBack attrs) as bs σ) ∧
      (∀ e w, evaluateArgs ev c attrs as u = .error e w ↔
        ∃ i a bs σ, as[i]? = some a ∧ Attribute.holdsBack attrs i = false ∧
          Handed ev c (Attribute.holdsBack attrs) (as.take i) bs σ ∧ σ 0 = u ∧ ev c a (σ i) = .error e w) ∧
      ((∀ i, Attribute.holdsBack attrs i = Attribute.holds attrs i) ↔
        attrs.contains Attribute.holdAllComplete = true ∨ attrs.contains Attribute.holdAll = true ∨
          attrs.contains Attribute.hold = false ∧
            (attrs.contains Attribute.holdFirst && attrs.contains Attribute.holdRest) = false) := by
  refine ⟨evaluateWith_eq, fun attrs u => ⟨fun bs w => ?_, fun e w => ?_, Attribute.holdsBack_eq_holds⟩⟩
  · rw [evaluateArgs_eq]
    exact handOver_ok
  · rw [evaluateArgs_eq]
    exact handOver_error

/-- `Hold` by itself holds nothing, although the rule says that it holds everything; and with `HoldFirst` the
arguments after the first are evaluated, although `HoldRest` is there as well. -/
theorem hold_disregarded :
    let sum := call "Plus" [int 1, int 1]
    Attribute.holds (.ofList [Attribute.hold]) 0 = true ∧
    Step.returns (same (.expr (sym "f") [int 2] (.ofList [Attribute.hold])))
      (evaluate 9 0 (.expr (sym "f") [sum] (.ofList [Attribute.hold])) Session.initial) = true ∧
    Attribute.holds (.ofList [Attribute.holdFirst, Attribute.holdRest]) 1 = true ∧
    Step.returns (same (.expr (sym "f") [sum, int 2] (.ofList [Attribute.holdFirst, Attribute.holdRest])))
      (evaluate 9 0 (.expr (sym "f") [sum, sum] (.ofList [Attribute.holdFirst, Attribute.holdRest]))
        Session.initial) = true := by
  decide +kernel

end Symbolic
