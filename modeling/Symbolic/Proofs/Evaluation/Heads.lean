import Symbolic.Proofs.Evaluation.Firing
import Symbolic.Proofs.Evaluation.Transparency

/-!
Heads that stand for other heads. The head of an expression is evaluated before its arguments, but the attributes
that apply are those of the head as it is written. So an expression whose head has a symbol for its value is
evaluated with that symbol for its head and under the attributes of the other. Main statement: this is all
that sets the two expressions apart; if the attributes that guide evaluation agree, the one comes to what the
other comes to, with the same contexts and the same definitions.
-/
namespace Symbolic

open Value Session
open Step (starves ended Reaches reaches_ok)

/-- The attributes that guide evaluation. -/
def Attribute.guiding : List Symbol :=
  [holdAllComplete, holdAll, holdFirst, holdRest, sequenceHold, flat, orderless, listable]

/-- The value that a symbol has in a context is another symbol. -/
def Session.StandsFor (s : Session) (c : ContextId) (x g : Symbol) : Prop :=
  ∃ l more, s.definitions? c (.symbol x) .own = some l ∧ s.definitionsOf l = ⟨.symbol x, .symbol g, .null⟩ :: more

theorem Session.StandsFor.entered {s : Session} {c : ContextId} {x g : Symbol} (stands : s.StandsFor c x g) :
    s.entered.StandsFor c x g := by
  obtain ⟨l, more, there, holds⟩ := stands
  exact ⟨l, more, (nearest_congr (s := s.entered) (t := s) rfl _ c).trans there, holds⟩

section Levels

variable {α : Type} {s : Session}

/-- What two runs of which one mirrors the other leave differs in the count of replacements only. -/
theorem Mirrors.leaves {m l : Eval α} (mirrors : Mirrors id (m s) (l s)) (first : Keeps m) (second : Keeps l) :
    Reaches (m s) fun o u => ∃ i, l s = ended (u.recount u.depth i) o := by
  intro o come
  obtain ⟨p, w, made, ⟨d, -, i, -, rfl⟩, ran⟩ := mirrors o come
  obtain rfl : o = p := made.trans (by cases p <;> rfl)
  have here := (first s).depth
  have there := (second s).depth
  rw [ran, Step.final_ended] at there
  obtain rfl : d = _ := there.trans here.symm
  exact ⟨i, ran⟩

theorem evaluate_level (inner : 0 < s.depth) (n : Nat) (c : ContextId) (v : Value) :
    Mirrors id (evaluate (n + 1) c v s) (evaluateWith (evaluate (n + 1)) (n + 1) c v s) := by
  have eases : Eases (evaluateWith (evaluate n) n c v) :=
    compositional_eases.evaluateWith_of_stops (fun _ => evaluate n) (evaluate_eases n) (fun _ => .stop .outOfFuel) n c v
  refine Reaches.deeper ((eases.up (evaluateWith_keeps n c v) inner).mono ?_)
  rintro o u ⟨w, roomier, above⟩
  have fueled : starves (evaluateWith (evaluate n) n c v s) = false := by rw [above, Step.starves_ended]
  have longer := evaluateWith_prolongs (evaluate_prolongs n) n c v s fueled
  exact ⟨o, w, by cases o <;> rfl, roomier, longer.trans above⟩

end Levels

/-- From where the head is known, evaluation has a compositional property if nested evaluations have it. -/
theorem Compositional.evaluateOn_of_stops {ι : Type} {P : ∀ α : Type, (ι → Eval α) → Prop}
    (compositional : Compositional P) (ev : ι → Evaluator) (calls : ∀ c v, P Value fun i => ev i c v)
    (stops : ∀ α, P α fun _ => throw .outOfFuel) (n : Nat) (c : ContextId) (attrs : SymbolSet) (as : List Value)
    (t : SymbolSet) (k : Value) : P Value fun i => evaluateOn (ev i) n c attrs as t k := by
  have admissible := compositional.admissible
  refine admissible.bind (compositional.tracks.evaluateArgs (fun c _ v _ => calls c v) trivial attrs False.elim)
    fun bs => ?_
  refine admissible.bind (admissible.ofExcept _) fun e => ?_
  exact compositional.evaluateArranged_of_stops ev calls stops n c attrs e

section Heads

variable {ev : Evaluator} {fuel : Nat} {c : ContextId} {s : Session} {x g : Symbol} {attrs marks : SymbolSet}

theorem evaluateBy_congr (agree : ∀ a ∈ Attribute.guiding, attrs.contains a = marks.contains a) (h : Value)
    (as : List Value) (t : SymbolSet) :
    evaluateBy ev fuel c attrs h as t = evaluateBy ev fuel c marks h as t := by
  simp only [Attribute.guiding, List.forall_mem_cons] at agree
  obtain ⟨complete, all, first, rest, sequence, flat, orderless, listable, -⟩ := agree
  simp only [evaluateBy, headUnder, evaluateOn, evaluateArgs, arrange, evaluateArranged, complete, all, first, rest,
    sequence, flat, orderless, listable]

/-- Whether a value takes the place of a symbol as a head, it is the head from then on, if it can be one. -/
theorem differs_symbol {k : Value} (foreign : ∀ vs, k ≠ .tuple vs) :
    (if k.differs (.symbol x) then Step.ofExcept ((k.build [] .empty).map fun _ => k) else pure (.symbol x)) =
      (Step.ofExcept ((k.build [] .empty).map fun _ => k) : Eval Value) := by
  split
  · rfl
  · next same =>
    have alike : k.same (.symbol x) = true := by
      cases k with
      | tuple vs => exact (foreign vs rfl).elim
      | _ => simpa [differs, equal, number?] using same
    rw [same_symbol_iff.1 alike]
    rfl

theorem newHead_standsFor (stands : s.StandsFor c x g) (inner : 0 < s.depth)
    (foreign : ∀ n k u, evaluate n c (.symbol g) s = .ok k u → ∀ vs, k ≠ .tuple vs) (n : Nat) :
    Mirrors id (newHead (evaluate (n + 1)) (n + 1) c (.symbol x) s)
      (newHead (evaluate (n + 1)) (n + 1) c (.symbol g) s) := by
  obtain ⟨l, more, there, holds⟩ := stands
  have value : evaluateHead (evaluate (n + 1)) (n + 1) c (.symbol x) s = evaluate (n + 1) c (.symbol g) s :=
    evaluateSymbol_own there holds
  have heads : Mirrors id (evaluateHead (evaluate (n + 1)) (n + 1) c (.symbol x) s)
      (evaluateHead (evaluate (n + 1)) (n + 1) c (.symbol g) s) := by
    rw [value]
    exact evaluate_level inner n c (.symbol g)
  refine heads.bind fun k u w ran _ roomier => ?_
  have proper := foreign (n + 1) k u (value.symm.trans ran)
  rw [id_eq, differs_symbol proper, differs_symbol proper]
  exact Mirrors.of_eases (compositional_eases.admissible.ofExcept _) roomier

theorem evaluateBy_standsFor (stands : s.StandsFor c x g) (inner : 0 < s.depth)
    (incomplete : attrs.contains Attribute.holdAllComplete = false)
    (foreign : ∀ n k u, evaluate n c (.symbol g) s = .ok k u → ∀ vs, k ≠ .tuple vs) (n : Nat) (as : List Value)
    (t : SymbolSet) :
    Mirrors id (evaluateBy (evaluate (n + 1)) (n + 1) c attrs (.symbol x) as t s)
      (evaluateBy (evaluate (n + 1)) (n + 1) c attrs (.symbol g) as t s) := by
  simp only [evaluateBy, headUnder, incomplete, Bool.false_eq_true, if_false]
  refine (newHead_standsFor stands inner foreign n).bind fun k u w _ _ roomier => ?_
  refine Mirrors.of_eases ?_ roomier
  exact compositional_eases.evaluateOn_of_stops (fun _ => evaluate (n + 1)) (evaluate_eases (n + 1))
    (fun _ => .stop .outOfFuel) (n + 1) c attrs as t k

theorem evaluateBy_keeps (incomplete : attrs.contains Attribute.holdAllComplete = false) (n : Nat) (h : Value)
    (as : List Value) (t : SymbolSet) :
    Keeps (evaluateBy (evaluate n) n c attrs h as t) := by
  simp only [evaluateBy, headUnder, incomplete, Bool.false_eq_true, if_false]
  refine (newHead_keeps n c h).bind fun k => ?_
  exact compositional_keeps.evaluateOn_of_stops (fun _ => evaluate n) (evaluate_keeps n) (fun _ s => .refl s) n c attrs
    as t k

/-- The attributes that apply to an expression are those under which it is evaluated, in nested evaluations too. -/
theorem evaluate_succ_expr (n : Nat) (h : Value) (as : List Value) (t : SymbolSet) :
    evaluate (n + 1) c (.expr h as t) s =
      deeper (evaluateBy (evaluate n) n c (s.effectiveAttributes c h t) h as t) s := by
  have same : s.entered.effectiveAttributes c h t = s.effectiveAttributes c h t :=
    effectiveAttributes_withFrame (k := s.entered.frame)
  have run : evaluateWith (evaluate n) n c (.expr h as t) s.entered = _ := evaluateWith_eq
  rw [same] at run
  rw [evaluate, deeper_eq, deeper_eq, run]

end Heads

/-- An expression whose head stands for another symbol, which comes to no tuple, is evaluated with that symbol for
its head, but under the attributes of its own: unless it is cut off, it comes to what comes of this, be it a value or a
failure, and leaves the same session up to the count of replacements. The expression with the other symbol for its
head is evaluated under the attributes of that symbol; so if the two agree on all attributes that guide
evaluation, it comes to the same as well, with some fuel and so with any fuel that is enough. -/
theorem standing_head_evaluated {s : Session} {c : ContextId} {x g : Symbol} {as : List Value} {t : SymbolSet}
    (stands : s.StandsFor c x g)
    (incomplete : (s.effectiveAttributes c (.symbol x) t).contains Attribute.holdAllComplete = false)
    (foreign : ∀ n k u, evaluate n c (.symbol g) s.entered = .ok k u → ∀ vs, k ≠ .tuple vs) (fuel : Nat) :
    (∀ n, evaluate (n + 1) c (.expr (.symbol g) as t) s =
      deeper (evaluateBy (evaluate n) n c (s.effectiveAttributes c (.symbol g) t) (.symbol g) as t) s) ∧
    Reaches (evaluate fuel c (.expr (.symbol x) as t) s) fun o u => ∃ i,
      (∃ n, deeper (evaluateBy (evaluate n) n c (s.effectiveAttributes c (.symbol x) t) (.symbol g) as t) s =
        ended (u.recount u.depth i) o) ∧
      ((∀ a ∈ Attribute.guiding, (s.effectiveAttributes c (.symbol x) t).contains a =
          (s.effectiveAttributes c (.symbol g) t).contains a) →
        (∃ n, evaluate n c (.expr (.symbol g) as t) s = ended (u.recount u.depth i) o) ∧
        ∀ n, starves (evaluate n c (.expr (.symbol g) as t) s) = false →
          evaluate n c (.expr (.symbol g) as t) s = ended (u.recount u.depth i) o) := by
  refine ⟨fun n => evaluate_succ_expr n (.symbol g) as t, fun o come => ?_⟩
  have longer : evaluate (fuel + 2) c (.expr (.symbol x) as t) s = _ :=
    Prolongs.more (m := fun n => evaluate n c _) (fun n => evaluate_prolongs n c _) (Nat.le_add_right fuel 2)
      (Step.starves_of_verdict come)
  have mirrors := (evaluateBy_standsFor stands.entered (Nat.succ_pos _) incomplete foreign fuel as t).deeper
  have leaves := mirrors.leaves (evaluateBy_keeps incomplete (fuel + 1) (.symbol x) as t).deeper
    (evaluateBy_keeps incomplete (fuel + 1) (.symbol g) as t).deeper
  rw [← evaluate_succ_expr, longer] at leaves
  obtain ⟨i, ran⟩ := leaves o come
  refine ⟨i, ⟨fuel + 1, ran⟩, fun agree => ?_⟩
  have alike := evaluate_succ_expr (c := c) (s := s) (fuel + 1) (.symbol g) as t
  rw [← evaluateBy_congr agree] at alike
  have other := alike.trans ran
  refine ⟨⟨fuel + 2, other⟩, fun n fueled => ?_⟩
  have enough : starves (evaluate (fuel + 2) c (.expr (.symbol g) as t) s) = false := by
    rw [other, Step.starves_ended]
  exact (Prolongs.agree (m := fun n => evaluate n c _) (fun n => evaluate_prolongs n c _) fueled enough).trans other

/-- Here `x` stands for `f`, which turns two arguments round and adds `y`. -/
def turning : Session :=
  let s := Session.initial.define 0 (sym "x") .own [⟨sym "x", sym "f", .null⟩]
  let a := call "Pattern" [sym "a", call "Blank" []]
  let b := call "Pattern" [sym "b", call "Blank" []]
  s.define 0 (sym "f") .down [⟨call "f" [a, b], call "g" [sym "b", sym "a", sym "y"], .null⟩]

/-- The first argument assigns a value to `y`, which the second has and what comes of `f` has too. -/
theorem standing_head_evaluated_turning :
    let as := [call "Set" [sym "y", int 2], call "Plus" [sym "y", int 1]]
    let v := call "g" [int 3, int 2, int 2]
    ∃ u i n, evaluate 9 0 (call "x" as) turning = .ok v u ∧
      evaluate n 0 (call "f" as) turning = .ok v (u.recount u.depth i) := by
  intro as v
  have stands : turning.StandsFor 0 ⟨"x"⟩ ⟨"f"⟩ := ⟨0, [], by decide +kernel, rfl⟩
  have foreign : ∀ n k u, evaluate n 0 (sym "f") turning.entered = .ok k u → ∀ vs, k ≠ .tuple vs := by
    rintro n _ u run vs rfl
    have passed : Step.returns canHead (evaluate 9 0 (sym "f") turning.entered) = true := by decide +kernel
    cases evaluate_tested passed run
  have agree : ∀ a ∈ Attribute.guiding, (turning.effectiveAttributes 0 (sym "x") ⟨[], List.Pairwise.nil⟩).contains a =
      (turning.effectiveAttributes 0 (sym "f") ⟨[], List.Pairwise.nil⟩).contains a := by decide +kernel
  obtain ⟨-, evaluated⟩ : _ ∧ Reaches (evaluate 9 0 (call "x" as) turning) _ :=
    standing_head_evaluated stands (by decide +kernel) foreign 9
  have come : Step.returns (fun r => r.isExact && r.same v) (evaluate 9 0 (call "x" as) turning) = true := by
    decide +kernel
  obtain ⟨r, u, run, tested⟩ := Step.returns_iff.1 come
  obtain ⟨precise, alike⟩ := Bool.and_eq_true_iff.1 tested
  obtain rfl := eq_of_same precise (by decide +kernel) alike
  rw [run, reaches_ok] at evaluated
  obtain ⟨i, -, same⟩ := evaluated
  obtain ⟨⟨n, other⟩, -⟩ := same agree
  exact ⟨u, i, n, run, other⟩

/-- Where `x` stands for `Hold`, the argument of `x` is evaluated and that of `Hold` is not; and where it stands for
`Abs`, `Abs` is threaded over a list and `x` is not. -/
theorem standing_head_differs :
    let holding := Session.initial.define 0 (sym "x") .own [⟨sym "x", sym "Hold", .null⟩]
    let measuring := Session.initial.define 0 (sym "x") .own [⟨sym "x", sym "Abs", .null⟩]
    let sum := call "Plus" [int 1, int 2]
    let row := call "List" [int (-1), int 2]
    Step.returns (same (call "Hold" [int 3])) (evaluate 9 0 (call "x" [sum]) holding) = true ∧
    Step.returns (same (call "Hold" [sum])) (evaluate 9 0 (call "Hold" [sum]) holding) = true ∧
    Step.returns (same (call "Abs" [row])) (evaluate 9 0 (call "x" [row]) measuring) = true ∧
    Step.returns (same (call "List" [int 1, int 2])) (evaluate 9 0 (call "Abs" [row]) measuring) = true := by
  decide +kernel

end Symbolic
