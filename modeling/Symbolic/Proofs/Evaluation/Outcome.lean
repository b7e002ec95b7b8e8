import Symbolic.Proofs.Evaluation.Arrangement
import Symbolic.Proofs.Evaluation.Steps

/-!
What evaluation of a term comes to in a session without definitions. A result is reached
by the laws of arithmetic, nothing is left to do on it, and the fuel and the depth that
were enough to find it are enough to go through it again. So a result evaluates to
itself.
-/
namespace Symbolic

open Value

/-- A value on which nothing is left to do: the arguments of a call are stable and arranged, and its
builtin gives the call itself. -/
inductive Stable : Value → Prop
  | integer (n : Int) : Stable (int n)
  | atom (x : String) : Stable (sym x)
  | apply {f : String} {as : List Value} : (∀ a ∈ as, Stable a) →
    arrange (markings f) (call f as) = .ok (call f as) → fold f as = .ok (call f as) → Stable (call f as)

namespace Session

/-- Fuel suffices to go through a value at a depth without exceeding the limit. -/
inductive Fits (s : Session) (c : ContextId) : Nat → Nat → Value → Prop
  | integer {fuel d : Nat} (n : Int) : (d + 1 : Int) ≤ s.recursionLimit → Fits s c (fuel + 1) d (int n)
  | atom {fuel d : Nat} {x : String} : (d + 1 : Int) ≤ s.recursionLimit →
    s.Ready c fuel .own (sym x) → Fits s c (fuel + 1) d (sym x)
  | apply {fuel d : Nat} {f : String} {as : List Value} : (d + 1 : Int) ≤ s.recursionLimit →
    s.Ready c fuel .own (sym f) → s.Ready c fuel .down (sym f) →
    (∀ a ∈ as, Fits s c fuel (d + 1) a) → Fits s c (fuel + 1) d (call f as)

variable {s : Session} {c : ContextId} {fuel more d e : Nat} {v : Value}

theorem Ready.mono {k : DefinitionKind} (ready : s.Ready c fuel k v) (bound : fuel ≤ more) :
    s.Ready c more k v :=
  ready.imp_right fun some => Nat.lt_of_lt_of_le some bound

theorem Fits.mono (fits : s.Fits c fuel d v) (bound : fuel ≤ more) (above : e ≤ d) : s.Fits c more e v := by
  induction fits generalizing more e with
  | @integer fuel d n limit =>
    obtain ⟨rest, rfl⟩ : ∃ rest, more = rest + 1 := ⟨more - 1, by omega⟩
    exact .integer n (by omega)
  | @atom fuel d x limit own =>
    obtain ⟨rest, rfl⟩ : ∃ rest, more = rest + 1 := ⟨more - 1, by omega⟩
    exact .atom (by omega) (own.mono (by omega))
  | @apply fuel d f as limit own down args ih =>
    obtain ⟨rest, rfl⟩ : ∃ rest, more = rest + 1 := ⟨more - 1, by omega⟩
    refine .apply (by omega) (own.mono (by omega)) (down.mono (by omega)) ?_
    exact fun a member => ih a member (by omega) (by omega)

theorem Fits.pos (fits : s.Fits c fuel d v) : 0 < fuel := by
  cases fits <;> omega

theorem Fits.arg {h : Value} {as : List Value} {t : SymbolSet} (fits : s.Fits c fuel d (.expr h as t)) {a : Value}
    (member : a ∈ as) : s.Fits c fuel d a := by
  cases fits with
  | apply limit own down args => exact (args a member).mono (by omega) (by omega)

/-- The definitions that could apply to a call are looked for where the call is gone through. -/
theorem Fits.sources {f : String} {as : List Value} (down : s.Ready c fuel .down (sym f))
    (args : ∀ a ∈ as, s.Fits c fuel d a) : ∀ p ∈ Symbolic.sources (call f as), s.Ready c fuel p.1 p.2 := by
  intro p member
  rcases List.mem_append.1 member with up | head
  · obtain ⟨a, inside, _⟩ := List.mem_filterMap.1 up
    exact .inr (args a inside).pos
  · rw [List.mem_singleton.1 head]
    exact down

end Session

theorem Stable.arg {h : Value} {as : List Value} {t : SymbolSet} (stable : Stable (.expr h as t)) {a : Value}
    (member : a ∈ as) : Stable a := by
  cases stable with
  | apply args _ _ => exact args a member

/-- What is known of the result of an evaluation at a depth with some fuel. -/
structure Outcome (s : Session) (c : ContextId) (fuel d : Nat) (v r : Value) : Prop where
  rewrites : Rewrites v r
  stable : Stable r
  fits : s.Fits c fuel d r

/-- An evaluator whose results are known and that changes nothing but the count of replacements. -/
def Settles (V : Vocabulary) (s : Session) (c : ContextId) (fuel : Nat) (ev : Evaluator) : Prop :=
  ∀ d i v r t, IsTerm V v → ev c v (s.recount d i) = .ok r t →
    (∃ j, t = s.recount d j) ∧ Outcome s c fuel d v r

section Calls

variable {V : Vocabulary} {s : Session} {c : ContextId} {fuel d i : Nat} {ev : Evaluator}
  {f : String} {as : List Value}

theorem evaluateAll_settles (settles : Settles V s c fuel ev) (terms : ∀ a ∈ as, IsTerm V a) {bs : List Value}
    {t : Session} (run : evaluateAll ev c as (s.recount d i) = .ok bs t) :
    (∃ j, t = s.recount d j) ∧ List.Forall₂ (Outcome s c fuel d) as bs := by
  refine evaluateAll_ok (Q := fun t => ∃ j, t = s.recount d j) ?_ ⟨i, rfl⟩ run
  rintro a member _ r t ⟨j, rfl⟩ run
  exact settles d j a r t (terms a member) run

/-- A call of terms, with its parts evaluated, is settled by its builtin or by evaluating again what the
builtin gives. -/
theorem evaluateArranged_settles (bare : s.Bare c) (settles : Settles V s c fuel ev)
    (term : IsTerm V (call f as)) (limit : (d + 1 : Int) ≤ s.recursionLimit)
    (own : s.Ready c fuel .own (sym f)) (args : ∀ a ∈ as, Stable a ∧ s.Fits c fuel (d + 1) a)
    (arranged : arrange (markings f) (call f as) = .ok (call f as)) {r : Value} {t : Session}
    (run : evaluateArranged ev fuel c (markings f) (call f as) (s.recount (d + 1) i) = .ok r t) :
    (∃ j, t = s.recount (d + 1) j) ∧ Outcome s c (fuel + 1) d (call f as) r := by
  obtain ⟨ready, q, folded, rest⟩ := (evaluateArranged_ok (bare.recount _ _) term).1 run
  have lawful := Rewrites.fold term folded
  -- What is new is evaluated again with the fuel that is left; what is not new is the call itself.
  by_cases new : q.differs (call f as) = true
  · rw [if_pos new] at rest
    obtain ⟨u, counted, again⟩ := rest
    rw [countReplacement_ok counted] at again
    obtain ⟨same, outcome⟩ := settles _ _ _ _ _ (lawful.isTerm term) again
    exact ⟨same, lawful.trans outcome.rewrites, outcome.stable, outcome.fits.mono (by omega) (by omega)⟩
  · rw [if_neg new] at rest
    obtain ⟨rfl, rfl⟩ := rest
    rw [Bool.not_eq_true, differs_eq_false_iff (lawful.isTerm term).isExact term.isExact] at new
    subst new
    have down : s.Ready c fuel .down (sym f) :=
      Session.ready_recount.1 (ready (.down, sym f) (by simp [sources]))
    exact ⟨⟨i, rfl⟩, .refl _, .apply (fun a member => (args a member).1) arranged folded,
      .apply limit own down fun a member => (args a member).2⟩

theorem evaluateWith_settles (bare : s.Bare c) (settles : Settles V s c fuel ev) (term : IsTerm V (call f as))
    (limit : (d + 1 : Int) ≤ s.recursionLimit) {r : Value} {t : Session}
    (run : evaluateWith ev fuel c (call f as) (s.recount (d + 1) i) = .ok r t) :
    (∃ j, t = s.recount (d + 1) j) ∧ Outcome s c (fuel + 1) d (call f as) r := by
  have deeperBare := fun j => bare.recount (d + 1) j
  rw [evaluateWith_unmarked (deeperBare i).standard ((deeperBare i).unmarked _)] at run
  obtain ⟨e, u, parts, run⟩ := Step.bind_ok run
  obtain ⟨w, x, done, run⟩ := Step.bind_ok run
  obtain ⟨own, bs, evaluated, rfl⟩ := (evaluateParts_ok (deeperBare i) term.legal).1 parts
  obtain ⟨arrangement, rfl⟩ := Step.ofExcept_ok.1 done
  obtain ⟨⟨j, rfl⟩, outcomes⟩ := evaluateAll_settles settles (fun a => term.arg) evaluated
  have inner : Rewrites (call f as) (call f bs) := .args (outcomes.imp fun a b outcome => outcome.rewrites)
  have innerTerm := inner.isTerm term
  -- Old arguments are kept in place of new ones only where the two are identical.
  have kept : (if sameItems bs as then as else bs) = bs :=
    ite_sameItems (fun b member => (innerTerm.arg member).isExact) fun a member => (term.arg member).isExact
  rw [kept] at arrangement
  obtain ⟨cs, rfl, sorted, again, inherited⟩ := arrange_ok innerTerm arrangement
  have settledArgs : ∀ x ∈ cs, Stable x ∧ s.Fits c fuel (d + 1) x := by
    refine inherited _ (fun k ds t both b member => ⟨both.1.arg member, both.2.arg member⟩) ?_
    intro b member
    obtain ⟨a, _, outcome⟩ := exists_of_forall₂ outcomes member
    exact ⟨outcome.stable, outcome.fits⟩
  obtain ⟨same, outcome⟩ := evaluateArranged_settles bare settles (sorted.isTerm innerTerm) limit
    (Session.ready_recount.1 own) settledArgs again run
  exact ⟨same, inner.trans (sorted.trans outcome.rewrites), outcome.stable, outcome.fits⟩

end Calls

theorem evaluate_settles {V : Vocabulary} {s : Session} {c : ContextId} (bare : s.Bare c) (fuel : Nat) :
    Settles V s c fuel (evaluate fuel) := by
  induction fuel with
  | zero =>
    intro d i v r t term run
    cases run
  | succ fuel ih =>
    intro d i v r t term run
    obtain ⟨limit, u, entered, rfl⟩ := deeper_ok.1 run
    have known : (∃ j, u = s.recount (d + 1) j) ∧ Outcome s c (fuel + 1) d v r := by
      cases term with
      | integer n =>
        obtain ⟨rfl, rfl⟩ := Step.pure_ok.1 entered
        exact ⟨⟨_, rfl⟩, .refl _, .integer n, .integer n limit⟩
      | atom =>
        obtain ⟨ready, rfl, rfl⟩ := (evaluateSymbol_ok (bare.recount _ _)).1 entered
        exact ⟨⟨_, rfl⟩, .refl _, .atom _, .atom limit (Session.ready_recount.1 ready)⟩
      | apply head legal args => exact evaluateWith_settles bare ih (.apply head legal args) limit entered
    obtain ⟨⟨j, rfl⟩, outcome⟩ := known
    exact ⟨⟨j, rfl⟩, outcome⟩

theorem evaluateWith_stable {V : Vocabulary} {s : Session} {c : ContextId} {ev : Evaluator} {fuel d : Nat}
    {f : String} {as : List Value} (bare : s.Bare c) (term : IsTerm V (call f as)) (stable : Stable (call f as))
    (own : s.Ready c fuel .own (sym f)) (down : s.Ready c fuel .down (sym f))
    (args : ∀ a ∈ as, s.Fits c fuel d a)
    (each : ∀ a ∈ as, ∀ i, ∃ j, ev c a (s.recount d i) = .ok a (s.recount d j)) (i : Nat) :
    ∃ j, evaluateWith ev fuel c (call f as) (s.recount d i) = .ok (call f as) (s.recount d j) := by
  cases stable with
  | apply _ arranged folded =>
    obtain ⟨_, evaluated, j, rfl⟩ := evaluateAll_self (Q := fun t => ∃ j, t = s.recount d j) (s := s.recount d i)
      (fun a member _ ⟨i, same⟩ => by
        obtain ⟨j, run⟩ := each a member i
        exact ⟨_, same ▸ run, j, rfl⟩) ⟨i, rfl⟩
    have parts : evaluateParts ev fuel c (markings f) (sym f) as ⟨[], List.Pairwise.nil⟩ (s.recount d i) =
        .ok (call f as) (s.recount d j) :=
      (evaluateParts_ok (bare.recount d i) term.legal).2
        ⟨Session.ready_recount.2 own, as, evaluated, by rw [ite_self]⟩
    have unchanged : (call f as).differs (call f as) = false := differs_self rfl
    have settled : evaluateArranged ev fuel c (markings f) (call f as) (s.recount d j) =
        .ok (call f as) (s.recount d j) := by
      refine (evaluateArranged_ok (bare.recount d j) term).2 ⟨fun p member => ?_, call f as, folded, ?_⟩
      · exact Session.ready_recount.2 (Session.Fits.sources down args p member)
      · rw [if_neg (by simp [unchanged])]
        exact ⟨rfl, rfl⟩
    refine ⟨j, ?_⟩
    rw [evaluateWith_unmarked (bare.recount d i).standard ((bare.recount d i).unmarked _), Step.bind_of_ok parts,
      Step.bind_of_ok (Step.ofExcept_ok.2 ⟨arranged, rfl⟩)]
    exact settled

theorem evaluate_stable {V : Vocabulary} {s : Session} {c : ContextId} {fuel d : Nat} {v : Value}
    (bare : s.Bare c) (term : IsTerm V v) (stable : Stable v) (fits : s.Fits c fuel d v) (i : Nat) :
    ∃ j, evaluate fuel c v (s.recount d i) = .ok v (s.recount d j) := by
  induction fits generalizing i with
  | integer n limit => exact ⟨_, deeper_ok.2 ⟨limit, _, rfl, rfl⟩⟩
  | @atom fuel d x limit own =>
    have read : ∀ j, evaluateSymbol (evaluate fuel) fuel c (sym x) (s.recount (d + 1) j) =
        .ok (sym x) (s.recount (d + 1) j) :=
      fun j => (evaluateSymbol_ok (bare.recount _ _)).2 ⟨Session.ready_recount.2 own, rfl, rfl⟩
    exact ⟨_, deeper_ok.2 ⟨limit, _, read _, rfl⟩⟩
  | @apply fuel d f as limit own down args ih =>
    have each := fun a member i => ih a member (term.arg member) (stable.arg member) i
    obtain ⟨j, run⟩ := evaluateWith_stable bare term stable own down args each (if d = 0 then 0 else i)
    exact ⟨j, deeper_ok.2 ⟨limit, _, run, rfl⟩⟩

end Symbolic
