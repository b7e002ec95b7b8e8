import Symbolic.Proofs.Evaluation.Folding

/-!
Arrangement of terms: a sum or a product is flattened and its arguments are sorted into
canonical order. Arranging what is arranged changes nothing.
-/
namespace Symbolic

open Value

section Flat

variable {V : Vocabulary} {op : RingOp} {as : List Value}

/-- What holds of values and is handed down to arguments holds after flattening. -/
theorem flatArgs_all {P : Value → Prop} {h : Value} (down : ∀ k bs t, P (.expr k bs t) → ∀ b ∈ bs, P b)
    (all : ∀ a ∈ as, P a) : ∀ a ∈ flatArgs h as, P a := by
  fun_induction flatArgs h as with
  | case1 => exact all
  | case2 head k bs t xs nested rest =>
    intro a member
    rcases List.mem_append.1 member with first | later
    · split at first
      · exact nested (down k bs t (all _ (by simp))) a first
      · rw [List.mem_singleton.1 first]
        exact all _ (by simp)
    · exact rest (fun x inside => all x (by simp [inside])) a later
  | case3 head x xs _ rest =>
    intro a member
    rcases List.mem_cons.1 member with rfl | later
    · exact all _ (by simp)
    · exact rest (fun x inside => all x (by simp [inside])) a later

theorem flatArgs_flat (terms : ∀ a ∈ as, IsTerm V a) :
    ∀ a ∈ flatArgs (sym op.name) as, a.argsOf? op.name = none := by
  have general : ∀ h as, h = sym op.name → (∀ a ∈ as, IsTerm V a) →
      ∀ a ∈ flatArgs h as, a.argsOf? op.name = none := by
    intro h as
    fun_induction flatArgs h as with
    | case1 => simp
    | case2 head k bs t xs nested rest =>
      rintro rfl terms a member
      obtain ⟨f, rfl, rfl, _, _, args⟩ := (terms (.expr k bs t) (by simp)).expr
      rcases List.mem_append.1 member with first | later
      · by_cases same : f = op.name
        · subst same
          rw [if_pos (equal_sym.2 rfl)] at first
          exact nested rfl args a first
        · rw [if_neg (mt equal_sym.1 same)] at first
          rw [List.mem_singleton.1 first]
          simp [argsOf?, same]
      · exact rest rfl (fun x inside => terms x (by simp [inside])) a later
    | case3 head x xs notExpr rest =>
      rintro rfl terms a member
      rcases List.mem_cons.1 member with rfl | later
      · cases terms a (by simp) with
        | integer | atom => rfl
        | apply => exact (notExpr _ _ _ rfl).elim
      · exact rest rfl (fun x inside => terms x (by simp [inside])) a later
  exact general _ _ rfl terms

theorem flatArgs_of_flat {name : String} (flat : ∀ a ∈ as, a.argsOf? name = none) : flatArgs (sym name) as = as := by
  induction as with
  | nil => rfl
  | cons a as ih =>
    obtain ⟨here, others⟩ := List.forall_mem_cons.1 flat
    cases a with
    | expr h bs t =>
      have other : ¬ h.equal (sym name) = true := by
        intro same
        rw [same_symbol_iff.1 (same_of_equal same)] at here
        simp [argsOf?] at here
      rw [flatArgs, if_neg other, ih others]
      rfl
    | _ => simp [flatArgs, ih others]

theorem arrange_nested (op : RingOp) (single : ∀ a ∈ as, a.argsOf? "Sequence" = none) :
    arrange (markings op.name) (call op.name as) = (call op.name (flatArgs (sym op.name) as)).sortArgs := by
  have complete : (markings op.name).contains Attribute.holdAllComplete = false := by cases op <;> decide
  have held : (markings op.name).contains Attribute.sequenceHold = false := by cases op <;> decide
  have flattens : (markings op.name).contains Attribute.flat = true := by cases op <;> decide
  have sorts : (markings op.name).contains Attribute.orderless = true := by cases op <;> decide
  have spliced : (call op.name as).spliceSequences = call op.name as := congrArg (call op.name) (inline_of_flat single)
  simp only [arrange, complete, held, flattens, sorts, Bool.or_self, Bool.false_eq_true, if_true, if_false, spliced,
    flattenNested]

/-- Among arguments without sequences and without nested calls of the operation only the order can change. -/
theorem arrange_flat (op : RingOp) (single : ∀ a ∈ as, a.argsOf? "Sequence" = none)
    (flat : ∀ a ∈ as, a.argsOf? op.name = none) :
    arrange (markings op.name) (call op.name as) = (call op.name as).sortArgs := by
  rw [arrange_nested op single, flatArgs_of_flat flat]

end Flat

section Sorted

variable {V : Vocabulary} {f : String} {as : List Value}

theorem toldApart_of_terms (terms : ∀ a ∈ as, IsTerm V a) : ToldApart as :=
  toldApart_of_integers fun a member => by
    cases number : a.number? with
    | none => exact .inl rfl
    | some k =>
      obtain ⟨m, rfl, rfl⟩ := (terms a member).number number
      exact .inr ⟨m, rfl⟩

theorem sortArgs_ok (terms : ∀ a ∈ as, IsTerm V a) {w : Value} :
    (call f as).sortArgs = .ok w ↔
      (as.length < 2 ∨ areWritable as = true) ∧ w = call f (canonicalSort as) := by
  rw [sortArgs]
  by_cases few : as.length < 2
  · have kept : canonicalSort as = as := by
      rcases as with _ | ⟨a, _ | ⟨b, rest⟩⟩
      · rfl
      · rfl
      · rw [List.length_cons, List.length_cons] at few
        omega
    rw [if_pos few, kept, Except.ok.injEq, and_iff_right (.inl few)]
    exact eq_comm
  · have precise : ∀ a ∈ as, a.isExact = true := fun a member => (terms a member).isExact
    have sortedPrecise : ∀ a ∈ canonicalSort as, a.isExact = true :=
      fun a member => precise a ((canonicalSort_perm as).mem_iff.1 member)
    have kept : (if sameItems (canonicalSort as) as then call f as else call f (canonicalSort as)) =
        call f (canonicalSort as) := by
      split
      · next same => rw [eq_of_sameItems sortedPrecise precise same]
      · rfl
    rw [if_neg few]
    cases writable : areWritable as with
    | true =>
      rw [sorted_of_writable writable (toldApart_of_terms terms)]
      change Except.ok (if sameItems (canonicalSort as) as then call f as else call f (canonicalSort as)) = _ ↔ _
      rw [kept, Except.ok.injEq, and_iff_right (.inr rfl)]
      exact eq_comm
    | false =>
      rw [sorted_of_unwritable writable]
      refine iff_of_false (fun run => by cases run) ?_
      simp [few]

/-- Arranging a call of any head keeps the head and follows the laws, and arranging it again changes
nothing. What arguments have and hand down to their own, the arranged ones have. -/
theorem arrange_ok (term : IsTerm V (call f as)) {w : Value} (run : arrange (markings f) (call f as) = .ok w) :
    ∃ bs, w = call f bs ∧ Rewrites (call f as) (call f bs) ∧
      arrange (markings f) (call f bs) = .ok (call f bs) ∧
      ∀ P : Value → Prop, (∀ k bs t, P (.expr k bs t) → ∀ b ∈ bs, P b) → (∀ a ∈ as, P a) → ∀ b ∈ bs, P b := by
  have terms : ∀ a ∈ as, IsTerm V a := fun a member => term.arg member
  by_cases ring : ∃ op : RingOp, f = op.name
  · obtain ⟨op, rfl⟩ := ring
    rw [arrange_ring term] at run
    have flatTerms := IsTerm.flatArgs op terms
    have rewrites := Rewrites.sorted terms run
    obtain ⟨writable, rfl⟩ := (sortArgs_ok flatTerms).1 run
    have perm := canonicalSort_perm (flatArgs (sym op.name) as)
    refine ⟨_, rfl, rewrites, ?_, ?_⟩
    · have arranged := rewrites.isTerm term
      have flat : ∀ a ∈ canonicalSort (flatArgs (sym op.name) as), a.argsOf? op.name = none :=
        fun a member => flatArgs_flat terms a (perm.mem_iff.1 member)
      rw [arrange_ring arranged, flatArgs_of_flat flat, sortArgs_ok fun a => arranged.arg]
      refine ⟨?_, by rw [canonicalSort_idem]⟩
      rw [perm.length_eq, areWritable_iff]
      exact writable.imp_right fun all a member => areWritable_iff.1 all a (perm.mem_iff.1 member)
    · intro P down all b member
      exact flatArgs_all down all b (perm.mem_iff.1 member)
  · have other : ∀ op : RingOp, f ≠ op.name := fun op named => ring ⟨op, named⟩
    have kept := arrange_other term other
    rw [kept] at run
    cases run
    exact ⟨as, rfl, .refl _, kept, fun P _ all => all⟩

end Sorted

end Symbolic
