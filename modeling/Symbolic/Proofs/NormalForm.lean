import Symbolic.Proofs.Evaluation.Outcome

/-!
Normal forms of arithmetic. What evaluation comes to has no differences in it, and every
sum and product in it is flat, in canonical order, and has at most one integer, which
stands in front and has an effect. Such a value evaluates to itself, so evaluating again
changes nothing.
-/
namespace Symbolic

open Value Arithmetic

/-- The arguments of a sum or a product in normal form. -/
structure NormalArgs (op : RingOp) (as : List Value) : Prop where
  several : 2 ≤ as.length
  flat : ∀ a ∈ as, a.hasHead op.name = false
  /-- Only the first argument can be a number. -/
  numberFirst : ∀ a ∈ as.tail, a.number? = none
  proper : ∀ n : Int, int n ∈ as → n ≠ 0 ∧ n ≠ op.unit
  ordered : canonicalSort as = as

section Folded

variable {V : Vocabulary} {op : RingOp} {as ts : List Value} {n : Int}

theorem hasHead_eq_false {v : Value} {name : String} : v.hasHead name = false ↔ v.argsOf? name = none := by
  unfold hasHead argsOf?
  split <;> simp

/-- Only arguments in front of which the integer can stand are put together to a call of them. -/
theorem eq_of_assemble (fixed : assemble op n ts = call op.name as) (outside : call op.name as ∉ ts) :
    as = if n = op.unit then ts else int n :: ts := by
  unfold assemble at fixed
  split at fixed
  · cases fixed
  · unfold soleOrCall at fixed
    split at fixed
    · next v only =>
      subst fixed
      split at only
      · simp [only] at outside
      · cases only
    · cases fixed
      rfl

/-- An integer in front of other values is the only one, and it has an effect. -/
theorem normalArgs_of_parts (several : 2 ≤ as.length) (flat : ∀ a ∈ as, a.hasHead op.name = false)
    (ordered : canonicalSort as = as) (parts : as = if n = op.unit then ts else int n :: ts)
    (symbolic : ∀ t ∈ ts, t.number? = none) (nonzero : n = 0 → n = op.unit) : NormalArgs op as where
  several := several
  flat := flat
  ordered := ordered
  numberFirst := by
    intro a member
    rw [parts] at member
    split at member
    · exact symbolic a (List.mem_of_mem_tail member)
    · exact symbolic a member
  proper := by
    intro k member
    rw [parts] at member
    split at member
    · cases symbolic _ member
    · next effect =>
      rcases List.mem_cons.1 member with same | later
      · cases same
        exact ⟨fun zero => effect (nonzero zero), effect⟩
      · cases symbolic _ later

end Folded

namespace Stable

variable {V : Vocabulary} {op : RingOp} {f : String} {as : List Value}

theorem folded (stable : Stable (call f as)) : fold f as = .ok (call f as) := by
  cases stable with
  | apply _ _ folded => exact folded

theorem arranged (stable : Stable (call f as)) : arrange (markings f) (call f as) = .ok (call f as) := by
  cases stable with
  | apply _ arranged _ => exact arranged

theorem flat_ordered (stable : Stable (call op.name as)) (term : IsTerm V (call op.name as)) :
    (∀ a ∈ as, a.argsOf? op.name = none) ∧ canonicalSort as = as := by
  have terms : ∀ a ∈ as, IsTerm V a := fun a member => term.arg member
  have arranged := stable.arranged
  rw [arrange_ring term, sortArgs_ok (IsTerm.flatArgs op terms)] at arranged
  simp only [Value.expr.injEq, true_and, and_true] at arranged
  constructor
  · intro a member
    rw [arranged.2] at member
    exact flatArgs_flat terms a ((canonicalSort_perm _).mem_iff.1 member)
  · rw [arranged.2, canonicalSort_idem]

theorem several (stable : Stable (call op.name as)) : 2 ≤ as.length := by
  have folded := stable.folded
  match as, folded with
  | [], folded => cases op <;> cases folded
  | [a], folded =>
    -- A sum of one argument folds to the argument, which would have to be the sum.
    have same : a = call op.name [a] := by
      cases op <;> exact Except.ok.inj folded
    have size := congrArg sizeOf same
    simp at size
    omega
  | _ :: _ :: _, _ => simp

theorem sum_not_mem {ts : List Value} (terms : ∀ a ∈ as, IsTerm V a)
    (flat : ∀ a ∈ as, a.argsOf? "Plus" = none) (simplified : (others as).mapM simplifyTerm = .ok ts) :
    call "Plus" as ∉ ts := by
  intro member
  obtain ⟨u, inside, run⟩ := exists_of_forall₂ (Except.mapM_ok simplified) member
  have old := (mem_others.1 inside).1
  rcases simplifyTerm_ok (terms u old) run with same | ⟨bs, rfl, _, _, same⟩
  · have := flat u old
    simp [← same, argsOf?] at this
  · unfold soleOrCall at same
    split at same
    · next b only =>
      -- The sum would have to stand inside one of its own terms.
      have inner : b ∈ bs := (mem_others.1 (only ▸ List.mem_singleton_self b)).1
      have small := List.sizeOf_lt_of_mem inner
      have large := List.sizeOf_lt_of_mem old
      rw [← same] at small
      simp at small large
      omega
    · simp at same

theorem normalArgs (stable : Stable (call op.name as)) (term : IsTerm V (call op.name as)) :
    NormalArgs op as := by
  have terms : ∀ a ∈ as, IsTerm V a := fun a member => term.arg member
  obtain ⟨flat, ordered⟩ := stable.flat_ordered term
  have several := stable.several
  have folded := stable.folded
  have headless : ∀ a ∈ as, a.hasHead op.name = false := fun a member => hasHead_eq_false.2 (flat a member)
  cases op with
  | plus =>
    obtain ⟨ts, simplified, fixed⟩ := plus_ok terms several folded
    have inlined : inline "Plus" as = as := inline_of_flat flat
    rw [inlined] at simplified fixed
    have outside := sum_not_mem terms flat simplified
    refine normalArgs_of_parts several headless ordered (eq_of_assemble fixed.symm outside) ?_ id
    intro t member
    obtain ⟨u, inside, run⟩ := exists_of_forall₂ (Except.mapM_ok simplified) member
    obtain ⟨old, symbolic⟩ := mem_others.1 inside
    rcases simplifyTerm_ok (terms u old) run with rfl | ⟨bs, rfl, _, some, rfl⟩
    · exact symbolic
    · unfold soleOrCall
      split
      · next b only => exact (mem_others.1 (only ▸ List.mem_singleton_self b)).2
      · rfl
  | times =>
    have fixed := times_ok terms several folded
    have inlined : inline "Times" as = as := inline_of_flat flat
    rw [inlined] at fixed
    split at fixed
    · cases fixed
    · next nonzero =>
      have outside : call "Times" as ∉ others as := by
        intro member
        have size := List.sizeOf_lt_of_mem (mem_others.1 member).1
        simp at size
        omega
      refine normalArgs_of_parts several headless ordered (eq_of_assemble fixed.symm outside) ?_ ?_
      · exact fun t member => (mem_others.1 member).2
      · exact fun zero => (nonzero zero).elim

theorem not_difference (stable : Stable (call f as)) (term : IsTerm V (call f as)) :
    f ≠ "Minus" ∧ f ≠ "Subtract" := by
  have folded := stable.folded
  cases term.legal with
  | ring op => cases op <;> decide
  | minus | subtract => simp [fold, minus, subtract] at folded
  | abs | power => decide
  | free as free => exact ⟨free.ne rfl, free.ne rfl⟩

end Stable

/-- A value occurs in another: it is the other, or occurs in the head or in an argument of it. -/
inductive Occurs (v : Value) : Value → Prop
  | here : Occurs v v
  | head {h : Value} {as : List Value} {t : SymbolSet} : Occurs v h → Occurs v (.expr h as t)
  | arg {h a : Value} {as : List Value} {t : SymbolSet} : a ∈ as → Occurs v a → Occurs v (.expr h as t)

/-- What occurs in a stable term is a stable term or the name of a head. -/
theorem Occurs.stable {V : Vocabulary} {v r : Value} (occurs : Occurs v r) (term : IsTerm V r) (stable : Stable r) :
    IsTerm V v ∧ Stable v ∨ ∃ f, v = sym f := by
  induction occurs with
  | here => exact .inl ⟨term, stable⟩
  | head inside =>
    obtain ⟨f, rfl, _⟩ := term.expr
    cases inside
    exact .inr ⟨f, rfl⟩
  | arg member _ ih =>
    obtain ⟨f, rfl, rfl, _, _, args⟩ := term.expr
    exact ih (args _ member) (stable.arg member)

/-- The terms with differences and functions that nothing is known about. -/
def Vocabulary.differences : Vocabulary where
  atom _ := True
  head f := f ∈ ["Plus", "Times", "Minus", "Subtract"] ∨ Uninterpreted f
  ring op := by cases op <;> simp [RingOp.name]

theorem evaluateTimes_stable {V : Vocabulary} {s : Session} {c : ContextId} {fuel d : Nat} {r : Value}
    (bare : s.Bare c) (term : IsTerm V r) (stable : Stable r) (fits : s.Fits c fuel d r) (k i : Nat) :
    ∃ j, evaluateTimes fuel c k r (s.recount d i) = .ok r (s.recount d j) := by
  induction k generalizing i with
  | zero => exact ⟨i, rfl⟩
  | succ k ih =>
    obtain ⟨j, run⟩ := evaluate_stable bare term stable fits i
    obtain ⟨l, again⟩ := ih j
    exact ⟨l, (Step.bind_of_ok run).trans again⟩

/-- In a session without definitions the result of evaluating a term is a term in normal form, evaluates to
itself within the limits that it was found with, and is what any number of evaluations gives. -/
theorem evaluate_normalForm {s t : Session} {c : ContextId} {fuel : Nat} {e r : Value} (bare : s.Bare c)
    (term : IsTerm .differences e) (run : evaluate fuel c e s = .ok r t) :
    IsTerm .differences r ∧
    (∀ v, Occurs v r → v.hasHead "Minus" = false ∧ v.hasHead "Subtract" = false ∧
      ∀ op as, v.argsOf? (RingOp.name op) = some as → NormalArgs op as) ∧
    (∃ u, evaluate fuel c r s = .ok r u) ∧ (∃ u, evaluate fuel c r t = .ok r u) ∧
    ∀ k, 1 ≤ k → ∃ u, evaluateTimes fuel c k e s = .ok r u := by
  obtain ⟨⟨j, rfl⟩, outcome⟩ := evaluate_settles bare fuel s.depth s.iterations e r t term run
  have resultTerm := outcome.rewrites.isTerm term
  have again := evaluate_stable bare resultTerm outcome.stable outcome.fits
  refine ⟨resultTerm, ?_, ?_, ?_, ?_⟩
  · intro v occurs
    rcases occurs.stable resultTerm outcome.stable with ⟨termHere, stableHere⟩ | ⟨f, rfl⟩
    · have notHeaded : ∀ name, name = "Minus" ∨ name = "Subtract" → v.hasHead name = false := by
        intro name difference
        rw [hasHead_eq_false, Option.eq_none_iff_forall_ne_some]
        intro as found
        obtain rfl := termHere.eq_call_of_argsOf found
        obtain ⟨minus, subtract⟩ := stableHere.not_difference termHere
        exact difference.elim minus subtract
      refine ⟨notHeaded _ (.inl rfl), notHeaded _ (.inr rfl), ?_⟩
      intro op as found
      obtain rfl := termHere.eq_call_of_argsOf found
      exact stableHere.normalArgs termHere
    · simp [hasHead, argsOf?]
  · obtain ⟨i, run⟩ := again s.iterations
    exact ⟨_, run⟩
  · obtain ⟨i, run⟩ := again j
    exact ⟨_, run⟩
  · intro k some
    obtain ⟨k, rfl⟩ : ∃ l, k = l + 1 := ⟨k - 1, by omega⟩
    obtain ⟨i, rest⟩ := evaluateTimes_stable bare resultTerm outcome.stable outcome.fits k j
    exact ⟨_, (Step.bind_of_ok run).trans rest⟩

/-- `f[x, Plus[2]] - (y - 3 + 1 x)`, written with differences. -/
def nestedDifference : Value :=
  call "Subtract" [call "f" [sym "x", call "Plus" [int 2]],
    call "Plus" [sym "y", call "Minus" [int 3], call "Times" [int 1, sym "x"]]]

theorem nestedDifference_isTerm : IsTerm .differences nestedDifference := by
  have free : Uninterpreted "f" := ⟨rfl, by decide, by decide⟩
  have symbol : ∀ x, IsTerm .differences (sym x) := fun x => .atom trivial
  have two : IsTerm .differences (call "Plus" [int 2]) := .ofRing .plus (by simp [IsTerm.integer])
  have minus : IsTerm .differences (call "Minus" [int 3]) :=
    .apply (.inl (by simp)) (.minus _) (by simp [IsTerm.integer])
  have once : IsTerm .differences (call "Times" [int 1, sym "x"]) :=
    .ofRing .times (by simp [IsTerm.integer, symbol])
  have left : IsTerm .differences (call "f" [sym "x", call "Plus" [int 2]]) :=
    .apply (.inr free) (.free _ free) (by simp [symbol, two])
  have right : IsTerm .differences (call "Plus" [sym "y", call "Minus" [int 3], call "Times" [int 1, sym "x"]]) :=
    .ofRing .plus (by simp [symbol, minus, once])
  exact .apply (.inl (by simp)) (.subtract _ _) (by simp [left, right])

theorem evaluate_normalForm_nestedDifference :
    ∃ t, evaluate 20 0 nestedDifference Session.initial =
        .ok (call "Plus" [call "f" [sym "x", int 2],
          call "Times" [int (-1), call "Plus" [int (-3), sym "x", sym "y"]]]) t ∧
      NormalArgs .plus [int (-3), sym "x", sym "y"] := by
  have found : Step.returns (fun r => r.isExact && r.same (call "Plus" [call "f" [sym "x", int 2],
      call "Times" [int (-1), call "Plus" [int (-3), sym "x", sym "y"]]]))
      (evaluate 20 0 nestedDifference Session.initial) = true := by
    decide +kernel
  obtain ⟨r, t, run, tested⟩ := Step.returns_iff.1 found
  obtain ⟨precise, same⟩ := Bool.and_eq_true_iff.1 tested
  obtain rfl := eq_of_same precise (by decide) same
  refine ⟨t, run, ?_⟩
  refine ((evaluate_normalForm Session.initial_bare nestedDifference_isTerm run).2.1
    (call "Plus" [int (-3), sym "x", sym "y"]) ?_).2.2 .plus _ rfl
  exact .arg (List.mem_cons_of_mem _ (List.mem_singleton_self _))
    (.arg (List.mem_cons_of_mem _ (List.mem_singleton_self _)) .here)

end Symbolic
