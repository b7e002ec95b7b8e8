import Symbolic.Proofs.Normalization

/-!
Evaluation does not depend on how sums and products are grouped and ordered. Terms that
differ in grouping and order have one normal form, and it is what both evaluate to.
-/
namespace Symbolic

open Value

/-- The congruence of reordering sums and products and of taking apart a sum in a sum or a product in a product. -/
inductive Regrouped : Value → Value → Prop
  | refl (v : Value) : Regrouped v v
  | symm {v w : Value} : Regrouped v w → Regrouped w v
  | trans {u v w : Value} : Regrouped u v → Regrouped v w → Regrouped u w
  | inside (f : String) (before after : List Value) {a b : Value} :
    Regrouped a b → Regrouped (call f (before ++ a :: after)) (call f (before ++ b :: after))
  | permute (op : RingOp) {as bs : List Value} : as.Perm bs → Regrouped (call op.name as) (call op.name bs)
  | splice (op : RingOp) (before inner after : List Value) :
    Regrouped (call op.name (before ++ call op.name inner :: after)) (call op.name (before ++ inner ++ after))

section Regrouping

variable {v w : Value}

theorem Regrouped.isTerm_iff (regrouped : Regrouped v w) : IsTerm .functions v ↔ IsTerm .functions w := by
  induction regrouped with
  | refl => exact Iff.rfl
  | symm _ ih => exact ih.symm
  | trans _ _ first second => exact first.trans second
  | inside f before after _ ih => simp [isTerm_call, or_imp, forall_and, ih]
  | permute op perm => simp [isTerm_call, perm.mem_iff]
  | splice op before inner after => simp [isTerm_call, Vocabulary.functions.ring op, or_imp, forall_and]

theorem Regrouped.normalize_eq (regrouped : Regrouped v w) (term : IsTerm .functions v) :
    normalize v = normalize w := by
  induction regrouped with
  | refl => rfl
  | symm back ih => exact (ih (back.isTerm_iff.2 term)).symm
  | trans first _ ihFirst ihSecond => exact (ihFirst term).trans (ihSecond (first.isTerm_iff.1 term))
  | inside f before after _ ih =>
    have same := ih (term.arg (by simp))
    exact normalize_call_congr (by simp [same])
  | permute op perm => exact (Rewrites.permute op perm).normalize_eq term
  | splice op before inner after => exact (Rewrites.splice op before inner after).normalize_eq term

end Regrouping

/-- Terms that differ only in the order and the grouping of sums and products evaluate to the same value,
each in a context of its own. -/
theorem evaluate_regrouped {s₁ t₁ s₂ t₂ : Session} {c₁ c₂ : ContextId} {fuel₁ fuel₂ : Nat} {e₁ e₂ r₁ r₂ : Value}
    (bare₁ : s₁.Bare c₁) (bare₂ : s₂.Bare c₂) (term : IsTerm .functions e₁) (regrouped : Regrouped e₁ e₂)
    (run₁ : evaluate fuel₁ c₁ e₁ s₁ = .ok r₁ t₁) (run₂ : evaluate fuel₂ c₂ e₂ s₂ = .ok r₂ t₂) : r₁ = r₂ :=
  calc
    r₁ = normalize e₁ := evaluate_eq_normalize bare₁ term run₁
    _ = normalize e₂ := regrouped.normalize_eq term
    _ = r₂ := (evaluate_eq_normalize bare₂ (regrouped.isTerm_iff.1 term) run₂).symm

/-- A sum of a sum and of a function of a product. -/
def leadingSum : Value :=
  call "Plus" [call "Plus" [sym "x", int 2], call "f" [call "Times" [sym "y", int 3, sym "x"]]]

/-- The same terms in another order, with the sum at the end. -/
def trailingSum : Value :=
  call "Plus" [int 2, call "Plus" [call "f" [call "Times" [int 3, sym "x", sym "y"]], sym "x"]]

theorem leadingSum_isTerm : IsTerm .functions leadingSum := by
  have free : Vocabulary.functions.head "f" := .inr ⟨⟨rfl, by decide, by decide⟩, by decide⟩
  have symbol : ∀ x, isIdentifier x = true → IsTerm .functions (sym x) := fun _ shaped => .atom shaped
  have x := symbol "x" (by decide)
  have y := symbol "y" (by decide)
  have sum : IsTerm .functions (call "Plus" [sym "x", int 2]) := .ofRing .plus (by simp [x, IsTerm.integer])
  have product : IsTerm .functions (call "Times" [sym "y", int 3, sym "x"]) :=
    .ofRing .times (by simp [x, y, IsTerm.integer])
  exact .ofRing .plus (by simp [sum, isTerm_call, free, product])

theorem leadingSum_regrouped : Regrouped leadingSum trailingSum := by
  have product : Regrouped (call "Times" [sym "y", int 3, sym "x"]) (call "Times" [int 3, sym "x", sym "y"]) :=
    .permute .times (List.Perm.trans (.swap ..) (.cons _ (.swap ..)))
  have sorted := Regrouped.inside "Plus" [call "Plus" [sym "x", int 2]] [] (.inside "f" [] [] product)
  refine sorted.trans (.trans (.splice .plus [] [sym "x", int 2] _) ?_)
  refine .trans (.permute .plus ?_) (.symm (.splice .plus [int 2] [_, sym "x"] []))
  exact List.Perm.trans (.swap ..) (.cons _ (.swap ..))

theorem evaluate_regrouped_leadingSum :
    ∃ r t₁ t₂, evaluate 20 0 leadingSum Session.initial = .ok r t₁ ∧
      evaluate 20 0 trailingSum Session.initial = .ok r t₂ := by
  have leading : Step.returns (fun _ => true) (evaluate 20 0 leadingSum Session.initial) = true := by
    decide +kernel
  have trailing : Step.returns (fun _ => true) (evaluate 20 0 trailingSum Session.initial) = true := by
    decide +kernel
  obtain ⟨r₁, t₁, run₁, _⟩ := Step.returns_iff.1 leading
  obtain ⟨r₂, t₂, run₂, _⟩ := Step.returns_iff.1 trailing
  obtain rfl := evaluate_regrouped Session.initial_bare Session.initial_bare leadingSum_isTerm leadingSum_regrouped
    run₁ run₂
  exact ⟨r₁, t₁, t₂, run₁, run₂⟩

end Symbolic
