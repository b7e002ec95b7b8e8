import Symbolic.Proofs.Computation
import Symbolic.Proofs.Evaluation.Frame
import Symbolic.Proofs.Evaluation.Terms

/-!
What each part of evaluation does in a session without definitions. The parts that look
for definitions find none and change nothing; what is left is the evaluation of
arguments, the arrangement of the result and the builtin of the head. Each part is
described by an equivalence, so that it can be read in both directions: from a run to
what it did, and from what it would do to a run.
-/
namespace Symbolic

open Value

namespace Session

/-- The session has the builtins of the language, and a context of it has neither definitions nor
attributes. Lists of definitions may be there if they are empty. -/
structure Bare (s : Session) (c : ContextId) : Prop where
  standard : s.registry = Builtin.standard
  undefined : ∀ v k l, s.definitions? c v k = some l → s.definitionsOf l = []
  unmarked : ∀ v, s.attributesOf c v = []

/-- The session at another depth and with another count of replacements. -/
def recount (s : Session) (depth iterations : Nat) : Session :=
  { s with depth := depth, iterations := iterations }

/-- Looking for definitions of a symbol needs no fuel, or some is left. -/
def Ready (s : Session) (c : ContextId) (fuel : Nat) (k : DefinitionKind) (v : Value) : Prop :=
  s.definitions? c v k = none ∨ 0 < fuel

variable {s : Session} {c : ContextId} {d i fuel : Nat}

theorem nearest_recount {α : Type} (f : Context → Option α) :
    (s.recount d i).nearest f c = s.nearest f c :=
  nearest_congr (s := s.recount d i) (t := s) rfl f c

@[simp] theorem definitions_recount {v : Value} {k : DefinitionKind} :
    (s.recount d i).definitions? c v k = s.definitions? c v k :=
  nearest_recount _

@[simp] theorem attributesOf_recount {v : Value} : (s.recount d i).attributesOf c v = s.attributesOf c v := by
  rw [attributesOf, nearest_recount, attributesOf]

@[simp] theorem recount_recount {e j : Nat} : (s.recount d i).recount e j = s.recount e j := rfl

@[simp] theorem recursionLimit_recount : (s.recount d i).recursionLimit = s.recursionLimit := rfl

theorem ready_recount {k : DefinitionKind} {v : Value} :
    (s.recount d i).Ready c fuel k v ↔ s.Ready c fuel k v := by
  rw [Ready, Ready, definitions_recount]

theorem Bare.recount (bare : s.Bare c) (d i : Nat) : (s.recount d i).Bare c where
  standard := bare.standard
  undefined v k l found := bare.undefined v k l (by rwa [definitions_recount] at found)
  unmarked v := by rw [attributesOf_recount, bare.unmarked]

/-- A head without attributes in the context has those that the language gives it. -/
theorem effectiveAttributes_unmarked {f : String} (standard : s.registry = Builtin.standard)
    (unmarked : s.attributesOf c (sym f) = []) :
    s.effectiveAttributes c (sym f) ⟨[], List.Pairwise.nil⟩ = markings f := by
  rw [Session.effectiveAttributes]
  simp only [unmarked, builtin?, standard, find_standard]
  rfl

theorem initial_bare : initial.Bare globalId where
  standard := rfl
  undefined v k l found := by
    rw [definitions?, nearest] at found
    cases found
  unmarked v := by
    rw [attributesOf, nearest]
    rfl

end Session

section Parts

variable {ev : Evaluator} {fuel : Nat} {c : ContextId} {s t : Session}

theorem deeper_ok {α : Type} {run : Eval α} {a : α} :
    deeper run s = .ok a t ↔
      (s.depth + 1 : Int) ≤ s.recursionLimit ∧
      ∃ u, run (s.recount (s.depth + 1) (if s.depth = 0 then 0 else s.iterations)) = .ok a u ∧
        t = u.recount (u.depth - 1) u.iterations := by
  by_cases exceeded : (s.depth + 1 : Int) > s.recursionLimit
  · have stopped : deeper run s = .error (.failure (.recursionLimit s.recursionLimit))
        (s.recount s.depth (if s.depth = 0 then 0 else s.iterations)) := if_pos exceeded
    rw [stopped]
    refine iff_of_false (by simp) ?_
    rintro ⟨fits, _⟩
    omega
  · simp only [deeper, if_neg exceeded, Session.recount]
    cases run { s with depth := s.depth + 1, iterations := if s.depth = 0 then 0 else s.iterations } with
    | ok b u => simp [Int.not_lt.1 exceeded, eq_comm]
    | error h u => simp

/-- The evaluation of a call without attributes of its own, from its parts to its arrangement. -/
theorem evaluateWith_unmarked {f : String} {as : List Value} (standard : s.registry = Builtin.standard)
    (unmarked : s.attributesOf c (sym f) = []) :
    evaluateWith ev fuel c (call f as) s =
      (do
        let e ← evaluateParts ev fuel c (markings f) (sym f) as ⟨[], List.Pairwise.nil⟩
        let arranged ← Step.ofExcept (arrange (markings f) e)
        evaluateArranged ev fuel c (markings f) arranged : Eval Value) s := by
  rw [← Session.effectiveAttributes_unmarked standard unmarked]
  rfl

theorem evaluateArgs_unheld {attrs : SymbolSet} {as : List Value}
    (unheld : ∀ a ∈ Attribute.holding, attrs.contains a = false) :
    evaluateArgs ev c attrs as = evaluateAll ev c as := by
  have complete := unheld Attribute.holdAllComplete (by decide)
  have all := unheld Attribute.holdAll (by decide)
  have first := unheld Attribute.holdFirst (by decide)
  have rest := unheld Attribute.holdRest (by decide)
  simp only [evaluateArgs, complete, all, first, rest, Bool.or_self, Bool.false_eq_true, if_false]

theorem Legal.evaluateArgs_eq {f : String} {as : List Value} (legal : Legal f as) :
    evaluateArgs ev c (markings f) as = evaluateAll ev c as :=
  evaluateArgs_unheld legal.holds_nothing

theorem applyFrom_empty {l : ListId} {e : Value} (empty : s.definitionsOf l = []) :
    applyFrom ev c l e (fuel + 1) 0 s = .ok none s := by
  rw [applyFrom, Step.bind_get, empty]
  rfl

variable (bare : s.Bare c)

include bare

theorem applyDefinitions_ok {k : DefinitionKind} {v e : Value} {r : Option Value} :
    applyDefinitions ev fuel c k v e s = .ok r t ↔ s.Ready c fuel k v ∧ r = none ∧ s = t := by
  rw [applyDefinitions, Step.bind_get, Session.Ready]
  cases found : s.definitions? c v k with
  | none => simp [eq_comm]
  | some l =>
    cases fuel with
    | zero =>
      refine iff_of_false (fun run => by cases run) ?_
      simp
    | succ fuel => simp [applyFrom_empty (bare.undefined v k l found), eq_comm]

theorem evaluateSymbol_ok {v r : Value} :
    evaluateSymbol ev fuel c v s = .ok r t ↔ s.Ready c fuel .own v ∧ r = v ∧ s = t := by
  constructor
  · intro run
    obtain ⟨found, u, looked, rest⟩ := Step.bind_ok run
    obtain ⟨ready, rfl, rfl⟩ := (applyDefinitions_ok bare).1 looked
    obtain ⟨rfl, rfl⟩ := Step.pure_ok.1 rest
    exact ⟨ready, rfl, rfl⟩
  · rintro ⟨ready, rfl, rfl⟩
    exact Step.bind_of_ok ((applyDefinitions_ok bare).2 ⟨ready, rfl, rfl⟩)

theorem firstChange_ok {e : Value} {places : List (DefinitionKind × Value)} {r : Option Value} :
    firstChange ev fuel c e places s = .ok r t ↔
      (∀ p ∈ places, s.Ready c fuel p.1 p.2) ∧ r = none ∧ s = t := by
  induction places with
  | nil => simp [firstChange, eq_comm]
  | cons p places ih =>
    rw [List.forall_mem_cons, and_assoc, ← ih]
    constructor
    · intro run
      obtain ⟨found, u, looked, rest⟩ := Step.bind_ok run
      obtain ⟨ready, rfl, rfl⟩ := (applyDefinitions_ok bare).1 looked
      exact ⟨ready, rest⟩
    · rintro ⟨ready, rest⟩
      exact (Step.bind_of_ok ((applyDefinitions_ok bare).2 ⟨ready, rfl, rfl⟩)).trans rest

theorem evaluateParts_ok {f : String} {as : List Value} {e : Value} (legal : Legal f as) :
    evaluateParts ev fuel c (markings f) (sym f) as ⟨[], List.Pairwise.nil⟩ s = .ok e t ↔
      s.Ready c fuel .own (sym f) ∧
      ∃ bs, evaluateAll ev c as s = .ok bs t ∧ e = call f (if sameItems bs as then as else bs) := by
  have complete := legal.holds_nothing Attribute.holdAllComplete (by decide)
  have unchanged : (sym f).differs (sym f) = false := differs_self rfl
  simp only [evaluateParts, complete, Bool.false_eq_true, if_false, legal.evaluateArgs_eq, evaluateHead]
  constructor
  · intro run
    obtain ⟨h, u, head, rest⟩ := Step.bind_ok run
    obtain ⟨ready, rfl, rfl⟩ := (evaluateSymbol_ok bare).1 head
    simp only [unchanged, Bool.false_eq_true, if_false, pure_bind] at rest
    obtain ⟨bs, w, evaluated, kept⟩ := Step.bind_ok rest
    obtain ⟨rfl, rfl⟩ := Step.pure_ok.1 kept
    exact ⟨ready, bs, evaluated, rfl⟩
  · rintro ⟨ready, bs, evaluated, rfl⟩
    rw [Step.bind_of_ok ((evaluateSymbol_ok bare).2 ⟨ready, rfl, rfl⟩)]
    simp only [unchanged, Bool.false_eq_true, if_false, pure_bind]
    rw [Step.bind_of_ok evaluated]
    rfl

/-- Without lists to thread over, what is left is the builtin: its result is evaluated if it is
something new. -/
theorem evaluateArranged_ok {V : Vocabulary} {f : String} {as : List Value} {r : Value}
    (term : IsTerm V (call f as)) :
    evaluateArranged ev fuel c (markings f) (call f as) s = .ok r t ↔
      (∀ p ∈ sources (call f as), s.Ready c fuel p.1 p.2) ∧
      ∃ q, fold f as = .ok q ∧
        if q.differs (call f as) then ∃ u, countReplacement s = .ok () u ∧ ev c q u = .ok r t
        else r = call f as ∧ s = t := by
  have unthreaded : (call f as).threadLists.differs (call f as) = false := by
    rw [threadLists_term term, differs_self rfl]
  simp only [evaluateArranged, unthreaded, Bool.and_false, Bool.false_eq_true, if_false, replaceOnce]
  constructor
  · intro run
    obtain ⟨q, u, replaced, rest⟩ := Step.bind_ok run
    obtain ⟨found, w, looked, built⟩ := Step.bind_ok replaced
    obtain ⟨ready, rfl, rfl⟩ := (firstChange_ok bare).1 looked
    simp only [runBuiltin_eq bare.standard term.legal] at built
    obtain ⟨folded, rfl⟩ := Step.ofExcept_ok.1 built
    refine ⟨ready, q, folded, ?_⟩
    by_cases new : q.differs (call f as) = true
    · rw [if_pos new] at rest ⊢
      obtain ⟨_, w, counted, again⟩ := Step.bind_ok rest
      exact ⟨w, counted, again⟩
    · rw [if_neg new] at rest ⊢
      obtain ⟨rfl, rfl⟩ := Step.pure_ok.1 rest
      exact ⟨rfl, rfl⟩
  · rintro ⟨ready, q, folded, rest⟩
    rw [Step.bind_of_ok (a := q) (u := s)]
    · by_cases new : q.differs (call f as) = true
      · rw [if_pos new] at rest ⊢
        obtain ⟨u, counted, again⟩ := rest
        exact (Step.bind_of_ok counted).trans again
      · rw [if_neg new] at rest ⊢
        obtain ⟨rfl, rfl⟩ := rest
        rfl
    · rw [Step.bind_of_ok ((firstChange_ok bare).2 ⟨ready, rfl, rfl⟩)]
      exact (runBuiltin_eq bare.standard term.legal).trans (Step.ofExcept_ok.2 ⟨folded, rfl⟩)

end Parts

section Arguments

variable {ev : Evaluator} {c : ContextId} {Q : Session → Prop} {R : Value → Value → Prop}

theorem evaluateAll_ok {vs ws : List Value} {s t : Session}
    (each : ∀ v ∈ vs, ∀ s w t, Q s → ev c v s = .ok w t → Q t ∧ R v w)
    (start : Q s) (run : evaluateAll ev c vs s = .ok ws t) : Q t ∧ List.Forall₂ R vs ws := by
  induction vs generalizing s ws with
  | nil =>
    obtain ⟨rfl, rfl⟩ := Step.pure_ok.1 run
    exact ⟨start, .nil⟩
  | cons v vs ih =>
    obtain ⟨w, u, here, rest⟩ := Step.bind_ok run
    obtain ⟨xs, x, there, joined⟩ := Step.bind_ok rest
    obtain ⟨rfl, rfl⟩ := Step.pure_ok.1 joined
    obtain ⟨middle, related⟩ := each v (by simp) s w u start here
    obtain ⟨finish, others⟩ := ih (fun v member => each v (by simp [member])) middle there
    exact ⟨finish, .cons related others⟩

theorem evaluateAll_self {vs : List Value} {s : Session}
    (each : ∀ v ∈ vs, ∀ s, Q s → ∃ t, ev c v s = .ok v t ∧ Q t) (start : Q s) :
    ∃ t, evaluateAll ev c vs s = .ok vs t ∧ Q t := by
  induction vs generalizing s with
  | nil => exact ⟨s, rfl, start⟩
  | cons v vs ih =>
    obtain ⟨u, here, middle⟩ := each v (by simp) s start
    obtain ⟨t, there, finish⟩ := ih (fun v member => each v (by simp [member])) middle
    refine ⟨t, ?_, finish⟩
    rw [evaluateAll, Step.bind_of_ok here, Step.bind_of_ok there]
    rfl

end Arguments

theorem countReplacement_ok {s t : Session} {d i : Nat} (run : countReplacement (s.recount d i) = .ok () t) :
    t = s.recount d (i + 1) := by
  obtain ⟨_, u, modified, rest⟩ := Step.bind_ok run
  obtain ⟨v, w, read, checked⟩ := Step.bind_ok rest
  cases modified
  cases read
  split at checked
  · cases checked
  · exact (Step.pure_ok.1 checked).2.symm

end Symbolic
