import Symbolic.Proofs.Pattern.Collection
import Symbolic.Proofs.Pattern.Depth

/-!
Patterns that only wrap another one: a held pattern, a choice of one, a named pattern. A held
pattern does what the pattern does that it holds, if that is not held again: only one `HoldPattern` is taken
off. A choice and a named pattern do, one level deeper, what the pattern inside does, but they do not pass on the
attributes that the value is given (`matchOne_choice`, `matchOne_naming`). That makes no difference to the patterns
that do not look at them, and none if they agree with the attributes that the value has
(`matchOne_attributes`).
-/
namespace Symbolic.Pattern

open Value Step

/-- The inner patterns of a shape that are told about the attributes that a value is given. -/
def Shape.forwarded : Shape → List Value
  | .condition q _ | .repeated q | .repeatedNull q => q.toList
  | .test parts => (parts.map Prod.fst).toList
  | .except x q => x.toList ++ q.toList
  | _ => []

/-- A pattern looks at the attributes that a value is given: it is matched part by part, or it passes them on to a
pattern that looks at them. -/
inductive Heeds : Value → Prop
  | compound {p h : Value} {as : List Value} (form : shape (unwrapHold p) = .compound h as) : Heeds p
  | inner {p q : Value} (member : q ∈ (shape (unwrapHold p)).forwarded) (inside : Heeds q) : Heeds p

theorem parts_of_forwarded {s : Shape} {q : Value} (member : q ∈ s.forwarded) : q ∈ s.parts := by
  cases s with
  | test parts =>
    cases parts with
    | none => cases member
    | some pair => exact member
  | except x q => exact member
  | condition q t => exact member
  | repeated q => exact member
  | repeatedNull q => exact member
  | _ => cases member

/-- Attributes say about flattening and sorting what an expression, its head, the head of that, and so on,
say themselves. -/
def Agrees (attrs : SymbolSet) : Value → Prop
  | .expr h _ t => attrs.contains Attribute.flat = t.contains Attribute.flat ∧
    attrs.contains Attribute.orderless = t.contains Attribute.orderless ∧ Agrees attrs h
  | _ => True

/-- The attributes that a value is given make no difference to a pattern that does not look at them, nor if
they agree with those it has. -/
theorem matchOne_attributes {σ : Type} (m : Settings σ) {attrs : Option SymbolSet} {p e : Value}
    (agree : Heeds p → ∀ a ∈ attrs, Agrees a e) (depth : Nat) (b : Bindings) :
    matchOne m none depth p e b = matchOne m attrs depth p e b := by
  have smaller := weight_unwrapHold_le p
  have inner : ∀ q ∈ (shape (unwrapHold p)).forwarded,
      matchOne m none (depth + 1) q e b = matchOne m attrs (depth + 1) q e b := by
    intro q member
    have lighter := weight_part_lt (parts_of_forwarded member)
    exact matchOne_attributes m (fun heeds => agree (.inner member heeds)) (depth + 1) b
  rw [matchOne_eq, matchOne_eq]
  refine if_congr Iff.rfl rfl ?_
  cases form : shape (unwrapHold p) with
  | condition q test =>
    cases q with
    | none => rfl
    | some q => simp only [matchShape, inner q (by simp [form, Shape.forwarded])]
  | test parts =>
    cases parts with
    | none => rfl
    | some pair => simp only [matchShape, inner pair.1 (by simp [form, Shape.forwarded])]
  | except x q =>
    cases x with
    | none => rfl
    | some x =>
      have first := inner x (by simp [form, Shape.forwarded])
      cases q with
      | none => simp only [matchShape, first]
      | some q => simp only [matchShape, first, inner q (by simp [form, Shape.forwarded])]
  | repeated q =>
    cases q with
    | none => rfl
    | some q => exact inner q (by simp [form, Shape.forwarded])
  | repeatedNull q =>
    cases q with
    | none => rfl
    | some q => simp only [matchShape, inner q (by simp [form, Shape.forwarded])]
  | compound h as =>
    cases e with
    | expr k es t =>
      have lighter : weight h < weight p := Nat.lt_of_lt_of_le (weight_part_lt (by simp [form, Shape.parts])) smaller
      have head : matchOne m none (depth + 1) h k b = matchOne m attrs (depth + 1) h k b :=
        matchOne_attributes m (fun _ a given => (agree (.compound form) a given).2.2) (depth + 1) b
      have own : (attrs.getD t).contains Attribute.flat = t.contains Attribute.flat ∧
          (attrs.getD t).contains Attribute.orderless = t.contains Attribute.orderless := by
        cases attrs with
        | none => exact ⟨rfl, rfl⟩
        | some a =>
          obtain ⟨flat, orderless, _⟩ := agree (.compound form) a rfl
          exact ⟨flat, orderless⟩
      simp only [matchShape, head, Option.getD_none, own.1, own.2]
    | _ => rfl
  | verbatim v => cases v <;> rfl
  | named name inner => cases inner <;> rfl
  | _ => rfl
termination_by weight p

section Wrapping

variable {σ : Type} {attrs : Option SymbolSet} {p e : Value} {b : Bindings}

theorem matchOne_held (m : Settings σ) {depth : Nat} (once : unwrapHold p = p) :
    matchOne m attrs depth (call "HoldPattern" [p]) e b = matchOne m attrs depth p e b := by
  rw [matchOne_eq, matchOne_eq, once]
  rfl

/-- The second of two `HoldPattern`s is left there, as the head that an expression must have. -/
theorem matchOne_heldTwice (m : Settings σ) {depth : Nat} (again : unwrapHold p ≠ p)
    (other : e.hasHead "HoldPattern" = false) :
    matchOne m attrs depth (call "HoldPattern" [p]) e b = pure none := by
  unfold unwrapHold at again
  split at again
  · next s a as t =>
    split at again
    · next held =>
      obtain rfl : s = ⟨"HoldPattern"⟩ := congrArg Symbol.mk held
      have form : shape (unwrapHold (call "HoldPattern" [.expr (sym "HoldPattern") (a :: as) t])) =
          .compound (sym "HoldPattern") (a :: as) := rfl
      exact matchOne_otherHead form other
    · exact absurd rfl again
  · exact absurd rfl again

theorem matchOne_within (evaluator : Option (Value → Step σ Value)) (limit : Int) (p e : Value) (b : Bindings) :
    matchOne ⟨evaluator, limit + 1⟩ none 1 p e b = matchOne ⟨evaluator, limit⟩ none 0 p e b := by
  rw [matchOne_inList, Int.add_sub_cancel]

theorem matchOne_beyond (evaluator : Option (Value → Step σ Value)) {limit : Int} (deep : (0 : Int) > limit) :
    matchOne ⟨evaluator, limit⟩ attrs 0 p e b = pure none := by
  rw [matchOne_eq]
  exact if_pos deep

theorem firstOf_one {α β : Type} (f : α → Step σ (Option β)) (x : α) : firstOf f [x] = f x := by
  rw [← bind_pure (f x)]
  refine bind_congr fun r => ?_
  cases r <;> rfl

/-- A choice of one pattern does what the pattern does with the attributes that the value has. -/
theorem matchOne_choice (evaluator : Option (Value → Step σ Value)) (limit : Int) :
    matchOne ⟨evaluator, limit + 1⟩ attrs 0 (call "Alternatives" [p]) e b = matchOne ⟨evaluator, limit⟩ none 0 p e b := by
  by_cases deep : (0 : Int) > limit + 1
  · rw [matchOne_beyond evaluator deep, matchOne_beyond evaluator (by omega)]
  · rw [matchOne_eq]
    refine (if_neg deep).trans ?_
    rw [← matchOne_within]
    exact firstOf_one (fun q => matchOne ⟨evaluator, limit + 1⟩ none 1 q e b) p

theorem bindName_fresh {x : Symbol} (free : b.get? x = none) (key : e.isKey = true) :
    bindName b (some (.symbol x)) e = .ok (some (b.insert x e)) := by
  simp [bindName, Bindings.bindValue, Bindings.bind, free, key]

theorem not_binds_of_isApart {x : Symbol} (apart : isApart b p = true) (bound : (b.get? x).isSome = true) :
    ¬ Binds x p := by
  intro binds
  induction binds with
  | here name =>
    have free := isApart_symbol ((everywhere_expr.1 apart).2.2 _ (first?_mem name))
    rw [free] at bound
    cases bound
  | inner second _ ih => exact ih ((everywhere_expr.1 apart).2.2 _ (second?_mem second))
  | head _ _ ih => exact ih (everywhere_expr.1 apart).2.1
  | arg _ member _ ih => exact ih ((everywhere_expr.1 apart).2.2 _ member)

/-- A named pattern does what the pattern inside it does with the attributes that the value has, and binds its name if
that is a new one. -/
theorem matchOne_naming (evaluator : Option (Value → Step σ Value)) (limit : Int) {x : Symbol} (inner : p ≠ .null)
    (key : e.isKey = true) (absent : ¬ Binds x p) (free : b.get? x = none) :
    matchOne ⟨evaluator, limit + 1⟩ attrs 0 (call "Pattern" [.symbol x, p]) e b =
      Option.map (·.insert x e) <$> matchOne ⟨evaluator, limit⟩ none 0 p e b := by
  have present : p.present? = some p := by
    cases p with
    | null => exact absurd rfl inner
    | _ => rfl
  have form : shape (unwrapHold (call "Pattern" [.symbol x, p])) = .named (some (.symbol x)) (some p) :=
    congrArg (Shape.named _) present
  by_cases deep : (0 : Int) > limit + 1
  · rw [matchOne_beyond evaluator deep, matchOne_beyond evaluator (by omega)]
    rfl
  · rw [matchOne_of_shape form, matchShape, ← matchOne_within, map_eq_pure_bind]
    refine (if_neg deep).trans ?_
    -- None of the bindings that are found inside has the name, so that it is free to be bound.
    have unbound : (matchOne ⟨evaluator, limit + 1⟩ none 1 p e b).Yields fun found => ∀ c ∈ found, BoundIn (· ≠ x) c := by
      refine matching_binds _ (fun y inside same => absent (same ▸ inside)) fun y v bound same => ?_
      rw [same, free] at bound
      cases bound
    refine unbound.bind_congr fun found apart => ?_
    cases found with
    | none => rfl
    | some c =>
      have freeToo : c.get? x = none := Option.eq_none_iff_forall_ne_some.2 fun v bound => apart c rfl x v bound rfl
      exact congrArg ofExcept (bindName_fresh freeToo key)

end Wrapping

/-- Wrappers do what the pattern does that they wrap, with the same failures and effects. A held pattern does it unless
it is held twice; then it matches only what is headed by `HoldPattern`. A choice of one pattern and a named
pattern, whose name is new, do it one level deeper and with the attributes that the value has; it is the
same with those that it is given if the pattern does not look at them or if they agree. -/
theorem wrappers_transparent {σ : Type} (evaluator : Option (Value → Step σ Value)) (limit : Int)
    (attrs : Option SymbolSet) (p e : Value) :
    (unwrapHold p = p → matchOne ⟨evaluator, limit⟩ attrs 0 (call "HoldPattern" [p]) e .empty =
      matchOne ⟨evaluator, limit⟩ attrs 0 p e .empty) ∧
    (unwrapHold p ≠ p → e.hasHead "HoldPattern" = false →
      matchOne ⟨evaluator, limit⟩ attrs 0 (call "HoldPattern" [p]) e .empty = pure none) ∧
    matchOne ⟨evaluator, limit + 1⟩ attrs 0 (call "Alternatives" [p]) e .empty =
      matchOne ⟨evaluator, limit⟩ none 0 p e .empty ∧
    (∀ x, isApart (Bindings.empty.insert x e) p = true → p ≠ .null → e.isKey = true →
      matchOne ⟨evaluator, limit + 1⟩ attrs 0 (call "Pattern" [.symbol x, p]) e .empty =
        Option.map (·.insert x e) <$> matchOne ⟨evaluator, limit⟩ none 0 p e .empty) ∧
    ((Heeds p → ∀ a ∈ attrs, Agrees a e) →
      matchOne ⟨evaluator, limit⟩ none 0 p e .empty = matchOne ⟨evaluator, limit⟩ attrs 0 p e .empty) := by
  refine ⟨matchOne_held _, matchOne_heldTwice _, matchOne_choice evaluator limit, fun x apart inner key => ?_,
    fun agree => matchOne_attributes _ agree 0 .empty⟩
  refine matchOne_naming evaluator limit inner key (not_binds_of_isApart apart ?_) rfl
  rw [Bindings.get_insert, if_pos rfl, Option.isSome_some]

/-- `f[b, y_]` finds `f[a, b]` if that is orderless itself and is said to be, and so do the wrappers of `f[b, y_]`. -/
theorem wrappers_transparent_orderless :
    let orderless := SymbolSet.ofList [Attribute.orderless]
    let p := call "f" [sym "b", call "Pattern" [sym "y", call "Blank" []]]
    let e := Value.expr (sym "f") [sym "a", sym "b"] orderless
    let found := matchOne (σ := Unit) ⟨none, 7⟩ (some orderless) 0 p e .empty
    Step.returns (fun r => r.any fun s => (s.get? ⟨"y"⟩).any (·.same (sym "a"))) (found ()) = true ∧
      matchOne ⟨none, 7⟩ (some orderless) 0 (call "HoldPattern" [p]) e .empty = found ∧
      matchOne ⟨none, 8⟩ (some orderless) 0 (call "Alternatives" [p]) e .empty = found ∧
      matchOne ⟨none, 8⟩ (some orderless) 0 (call "Pattern" [sym "x", p]) e .empty =
        Option.map (·.insert ⟨"x"⟩ e) <$> found := by
  intro orderless p e found
  obtain ⟨held, _, choice, naming, same⟩ := wrappers_transparent (σ := Unit) none 7 (some orderless) p e
  have own := same fun _ a given => Option.some.inj given ▸ ⟨rfl, rfl, trivial⟩
  refine ⟨by decide +kernel, held rfl, choice.trans own, ?_⟩
  rw [show found = _ from own.symm]
  exact naming ⟨"x"⟩ (by decide +kernel) (by simp [p, call]) (by decide +kernel)

/-- `HoldPattern[HoldPattern[_]]` does not match 5; and if `f[a, b]` is said to be orderless, `f[b, a]` matches it, but
the choice of it and a named pattern of it do not. -/
theorem wrappers_opaque :
    let orderless := some (SymbolSet.ofList [Attribute.orderless])
    let p := call "f" [sym "b", sym "a"]
    let e := call "f" [sym "a", sym "b"]
    Step.returns Option.isNone (matchOne (σ := Unit) ⟨none, defaultDepth⟩ none 0
        (call "HoldPattern" [call "HoldPattern" [call "Blank" []]]) (int 5) .empty ()) = true ∧
      Step.returns Option.isSome (matchOne (σ := Unit) ⟨none, 127⟩ orderless 0 p e .empty ()) = true ∧
      Step.returns Option.isNone
        (matchOne (σ := Unit) ⟨none, 128⟩ orderless 0 (call "Alternatives" [p]) e .empty ()) = true ∧
      Step.returns Option.isNone
        (matchOne (σ := Unit) ⟨none, 128⟩ orderless 0 (call "Pattern" [sym "x", p]) e .empty ()) = true := by
  decide +kernel

end Symbolic.Pattern
