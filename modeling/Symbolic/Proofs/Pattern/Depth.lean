import Symbolic.Proofs.Pattern.Places
import Symbolic.Proofs.Pattern.Steps

/-!
How deep matching looks into a pattern. Every step into a pattern costs one level of depth, and so
does every step from an argument to the next. A depth limit shows in a match only by the parts
that lie beyond it: two limits that cut off the same parts make no difference (`matchOne_atDepth`),
and if no part lies beyond a limit, a larger one changes nothing.
-/
namespace Symbolic.Pattern

open Value

mutual

/-- Some part of a pattern is looked at the given number of levels below it. -/
inductive Reaches : Value → Nat → Prop
  | here (p : Value) : Reaches p 0
  | part {p q : Value} {k : Nat} (whole : ∀ h as, shape (unwrapHold p) ≠ .compound h as)
    (member : q ∈ (shape (unwrapHold p)).parts) (inner : Reaches q k) : Reaches p (k + 1)
  | head {p h : Value} {as : List Value} {k : Nat} (form : shape (unwrapHold p) = .compound h as)
    (inner : Reaches h k) : Reaches p (k + 1)
  | args {p h : Value} {as : List Value} {k : Nat} (form : shape (unwrapHold p) = .compound h as)
    (inner : ReachesAll as k) : Reaches p (k + 1)
  | flat {p h : Value} {as : List Value} {k : Nat} (form : shape (unwrapHold p) = .compound h as)
    (inner : ReachesAll (flatten h as) k) : Reaches p (k + 1)

/-- Some part of argument patterns is looked at the given number of levels below the first of them. -/
inductive ReachesAll : List Value → Nat → Prop
  | single {p : Value} {rest : List Value} {k : Nat} (form : role p = .single) (inner : Reaches p k) :
    ReachesAll (p :: rest) (k + 1)
  | repeated {p q : Value} {rest : List Value} {n k : Nat} (form : role p = .repeated (some q) n)
    (inner : Reaches q k) : ReachesAll (p :: rest) (k + 1)
  | optional {p q : Value} {default : Option Value} {rest : List Value} {k : Nat}
    (form : role p = .optional (some q) default) (inner : ReachesAll (q :: rest) k) : ReachesAll (p :: rest) (k + 1)
  | later {p : Value} {rest : List Value} {k : Nat} (inner : ReachesAll rest k) : ReachesAll (p :: rest) (k + 1)

end

theorem weight_compound_le {p h : Value} {as : List Value} (form : shape (unwrapHold p) = .compound h as) :
    weight h + weights as + 1 ≤ weight p := by
  have unwrapped := weight_unwrapHold_le p
  obtain ⟨t, same⟩ := form_of_compound form
  rwa [same, weight] at unwrapped

mutual

/-- Nothing in a pattern is looked at further below it than the pattern is large. -/
theorem Reaches.lt_weight {p : Value} {k : Nat} : Reaches p k → k < weight p
  | .here p => weight_pos p
  | @Reaches.part p q k _ member inner => by
    have bound := inner.lt_weight
    have smaller := weight_part_lt member
    have unwrapped := weight_unwrapHold_le p
    omega
  | .head form inner => by
    have bound := inner.lt_weight
    have room := weight_compound_le form
    omega
  | @Reaches.args p h as k form inner => by
    have bound := inner.le_weights
    have room := weight_compound_le form
    have headed := weight_pos h
    omega
  | @Reaches.flat p h as k form inner => by
    have bound := inner.le_weights
    have flattened := weights_flatten_le h as
    have room := weight_compound_le form
    have headed := weight_pos h
    omega

theorem ReachesAll.le_weights {ps : List Value} {k : Nat} : ReachesAll ps k → k ≤ weights ps
  | .single form inner => by
    have bound := inner.lt_weight
    simp only [weights]
    omega
  | .repeated form inner => by
    have bound := inner.lt_weight
    have smaller := weight_repeated_lt form
    simp only [weights]
    omega
  | .optional form inner => by
    have bound := inner.le_weights
    have smaller := weight_optional_lt form
    simp only [weights] at bound ⊢
    omega
  | @ReachesAll.later p rest k inner => by
    have bound := inner.le_weights
    have first := weight_pos p
    simp only [weights]
    omega

end

/-- Two depths below which two limits cut off the same levels, for the levels that are asked for. -/
def CutAlike (limit limit' : Int) (depth depth' : Nat) (levels : Nat → Prop) : Prop :=
  ∀ k, levels k → (((depth + k : Nat) : Int) > limit ↔ ((depth' + k : Nat) : Int) > limit')

theorem CutAlike.below {limit limit' : Int} {depth depth' : Nat} {levels inside : Nat → Prop}
    (alike : CutAlike limit limit' depth depth' levels) (step : ∀ k, inside k → levels (k + 1)) :
    CutAlike limit limit' (depth + 1) (depth' + 1) inside := by
  intro k reached
  rw [Nat.add_right_comm depth, Nat.add_right_comm depth']
  exact alike (k + 1) (step k reached)

mutual

/-- Matching depends on the depth and on its limit only by which parts of the pattern are cut off. -/
theorem matchOne_atDepth {σ : Type} (evaluator : Option (Value → Step σ Value)) {limit limit' : Int}
    {depth depth' : Nat} {p : Value} (alike : CutAlike limit limit' depth depth' (Reaches p))
    (attrs : Option SymbolSet) (e : Value) (b : Bindings) :
    matchOne ⟨evaluator, limit⟩ attrs depth p e b = matchOne ⟨evaluator, limit'⟩ attrs depth' p e b := by
  rw [matchOne_eq, matchOne_eq]
  have here : ((depth : Nat) : Int) > limit ↔ ((depth' : Nat) : Int) > limit' := alike 0 (.here p)
  by_cases deep : ((depth : Nat) : Int) > limit
  · rw [if_pos deep, if_pos (here.1 deep)]
  · rw [if_neg deep, if_neg (here.not.1 deep)]
    have smaller := weight_unwrapHold_le p
    have inner : ∀ q, q ∈ (shape (unwrapHold p)).parts → (∀ h as, shape (unwrapHold p) ≠ .compound h as) →
        ∀ attrs e b, matchOne ⟨evaluator, limit⟩ attrs (depth + 1) q e b =
          matchOne ⟨evaluator, limit'⟩ attrs (depth' + 1) q e b := by
      intro q member whole attrs e b
      have := weight_part_lt member
      exact matchOne_atDepth evaluator (alike.below fun k => .part whole member) attrs e b
    cases form : shape (unwrapHold p) with
    | verbatim v => cases v <;> rfl
    | blank c => rfl
    | literal v => rfl
    | foreign => rfl
    | named name q =>
      cases q with
      | none => rfl
      | some q => exact option_congr (inner q (by simp [form, Shape.parts]) (by simp [form]) none e b) rfl fun _ => rfl
    | condition q test =>
      cases q with
      | none => rfl
      | some q =>
        refine option_congr (inner q (by simp [form, Shape.parts]) (by simp [form]) attrs e b) rfl fun c => ?_
        cases test <;> rfl
    | alternatives ps =>
      refine firstOf_congr fun q member => ?_
      exact inner q (by simpa [form, Shape.parts] using member) (by simp [form]) none e b
    | test parts =>
      cases parts with
      | none => rfl
      | some parts =>
        obtain ⟨q, f⟩ := parts
        exact option_congr (inner q (by simp [form, Shape.parts]) (by simp [form]) attrs e b) rfl fun _ => rfl
    | except x q =>
      cases x with
      | none => rfl
      | some x =>
        have excluded := inner x (by simp [form, Shape.parts]) (by simp [form]) attrs e b
        cases q with
        | none => exact option_congr excluded rfl fun _ => rfl
        | some q =>
          refine option_congr excluded ?_ fun _ => rfl
          exact inner q (by simp [form, Shape.parts]) (by simp [form]) attrs e b
    | repeated q =>
      cases q with
      | none => rfl
      | some q => exact inner q (by simp [form, Shape.parts]) (by simp [form]) attrs e b
    | repeatedNull q =>
      cases q with
      | none => rfl
      | some q => exact option_congr (inner q (by simp [form, Shape.parts]) (by simp [form]) attrs e b) rfl fun _ => rfl
    | compound h as =>
      cases e with
      | expr k es t =>
        have smallerHead : weight h < weight (unwrapHold p) := weight_part_lt (by simp [form, Shape.parts])
        have smallerArgs := weights_compound_lt form
        have smallerFlat := weights_flatten_le h as
        refine option_congr (matchOne_atDepth evaluator (alike.below fun k => .head form) attrs k b) rfl fun c => ?_
        simp only
        split
        · rw [matchMany_atDepth evaluator (alike.below fun k => .flat form)]
        · rw [matchMany_atDepth evaluator (alike.below fun k => .args form)]
      | _ => rfl
termination_by 2 * weight p

theorem matchMany_atDepth {σ : Type} (evaluator : Option (Value → Step σ Value)) {limit limit' : Int}
    {depth depth' : Nat} {ps : List Value} (alike : CutAlike limit limit' depth depth' (ReachesAll ps))
    (all orderless : Bool) (es : List Value) (b : Bindings) :
    matchMany ⟨evaluator, limit⟩ all orderless depth ps es b =
      matchMany ⟨evaluator, limit'⟩ all orderless depth' ps es b := by
  cases ps with
  | nil => rw [matchMany.eq_def, matchMany.eq_def]
  | cons p rest =>
    have smaller := weights_lt_cons p rest
    have later : ∀ orderless es b, matchMany ⟨evaluator, limit⟩ all orderless (depth + 1) rest es b =
        matchMany ⟨evaluator, limit'⟩ all orderless (depth' + 1) rest es b :=
      fun orderless es b => matchMany_atDepth evaluator (alike.below fun k => .later) all orderless es b
    rw [matchMany_eq, matchMany_eq]
    cases form : role p with
    | optional q default =>
      cases q with
      | none => rfl
      | some q =>
        have smallerInner : weights (q :: rest) < weights (p :: rest) := by
          have := weight_optional_lt form
          simp only [weights]
          omega
        simp only [matchRole, later]
        rw [matchMany_atDepth evaluator (alike.below fun k => .optional form)]
    | segment name n c =>
      simp only [matchRole, later]
    | repeated q n =>
      cases q with
      | none => rfl
      | some q =>
        have smallerInner : weight q < weights (p :: rest) := by
          have := weight_repeated_lt form
          simp only [weights]
          omega
        have inner : ∀ e b, matchOne ⟨evaluator, limit⟩ none (depth + 1) q e b =
            matchOne ⟨evaluator, limit'⟩ none (depth' + 1) q e b :=
          fun e b => matchOne_atDepth evaluator (alike.below fun k => .repeated form) none e b
        simp only [matchRole, later, inner]
    | single =>
      have smallerInner : weight p ≤ weights (p :: rest) := by simp only [weights]; omega
      have inner : ∀ e, matchOne ⟨evaluator, limit⟩ none (depth + 1) p e b =
          matchOne ⟨evaluator, limit'⟩ none (depth' + 1) p e b :=
        fun e => matchOne_atDepth evaluator (alike.below fun k => .single form) none e b
      simp only [matchRole, later, inner]
termination_by 2 * weights ps + 1

end

end Symbolic.Pattern
