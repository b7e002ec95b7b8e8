import Symbolic.Pattern.Shape

/-!
The size of patterns. What a pattern has inside it is smaller than the pattern, and
flattening an argument list does not make it larger, so matching comes to an end.
-/
namespace Symbolic.Pattern

open Value

mutual

/-- The size of a value as a pattern. -/
def weight : Value → Nat
  | .expr h as _ => weight h + weights as + 1
  | _ => 1

def weights : List Value → Nat
  | [] => 0
  | x :: xs => weight x + weights xs

end

theorem weight_pos (v : Value) : 0 < weight v := by
  cases v <;> simp [weight]

theorem weight_le_of_mem {x : Value} {xs : List Value} (h : x ∈ xs) : weight x ≤ weights xs := by
  induction xs with
  | nil => cases h
  | cons y ys ih =>
    rcases List.mem_cons.1 h with rfl | h
    · simp [weights]
    · have := ih h
      simp only [weights]
      omega

theorem weights_append (xs ys : List Value) : weights (xs ++ ys) = weights xs + weights ys := by
  induction xs with
  | nil => simp [weights]
  | cons x xs ih => simp only [List.cons_append, weights, ih]; omega

theorem weight_unwrapHold_le (v : Value) : weight (unwrapHold v) ≤ weight v := by
  unfold unwrapHold
  split
  · split
    · simp only [weight, weights]; omega
    · exact Nat.le_refl _
  · exact Nat.le_refl _

theorem present?_eq {v w : Value} (h : v.present? = some w) : v = w := by
  cases v <;> simp_all [present?]

theorem first?_mem {as : List Value} {v : Value} (h : first? as = some v) : v ∈ as := by
  cases as with
  | nil => simp [first?] at h
  | cons a as =>
    simp only [first?, List.head?_cons, Option.bind_some] at h
    simp [present?_eq h]

theorem second?_mem {as : List Value} {v : Value} (h : second? as = some v) : v ∈ as := by
  match as, h with
  | a :: b :: as, h =>
    simp only [second?, List.drop_one, List.tail_cons, List.head?_cons, Option.bind_some] at h
    simp [present?_eq h]

/-- The patterns that the shape of a pattern has inside it. -/
def Shape.parts : Shape → List Value
  | .verbatim _ | .blank _ | .literal _ | .foreign => []
  | .named _ inner | .repeated inner | .repeatedNull inner => inner.toList
  | .condition inner _ => inner.toList
  | .alternatives ps => ps
  | .test (some (p, _)) => [p]
  | .test none => []
  | .except p q => p.toList ++ q.toList
  | .compound h as => h :: as

theorem parts_shapeOfCall {s : Symbol} {as : List Value} {x : Value} (h : x ∈ (shapeOfCall s as).parts) :
    x = .symbol s ∨ x ∈ as := by
  unfold shapeOfCall at h
  split at h
  · simp [Shape.parts] at h
  split at h
  · simp [Shape.parts] at h
  split at h
  · exact .inr (second?_mem (by simpa [Shape.parts] using h))
  split at h
  · exact .inr (first?_mem (by simpa [Shape.parts] using h))
  split at h
  · exact .inr (by simpa [Shape.parts] using h)
  split at h
  · refine .inr ?_
    match as, h with
    | p :: f :: _, h => simp [Shape.parts] at h; simp [h]
    | [_], h => simp [Shape.parts] at h
    | [], h => simp [Shape.parts] at h
  split at h
  · refine .inr ?_
    simp only [Shape.parts, List.mem_append, Option.mem_toList] at h
    rcases h with h | h
    · exact List.mem_of_mem_head? h
    · exact List.mem_of_mem_drop (List.mem_of_mem_head? h)
  split at h
  · exact .inr (first?_mem (by simpa [Shape.parts] using h))
  split at h
  · exact .inr (first?_mem (by simpa [Shape.parts] using h))
  · simpa [Shape.parts] using h

theorem weight_part_lt {v x : Value} (h : x ∈ (shape v).parts) : weight x < weight v := by
  match v, h with
  | .expr (.symbol s) as t, h =>
    simp only [weight]
    rcases parts_shapeOfCall h with rfl | h
    · simp only [weight]; omega
    · have := weight_le_of_mem h
      omega
  | .expr (.expr a b c) as t, h =>
    simp only [shape, Shape.parts, List.mem_cons] at h
    rcases h with rfl | h
    · simp only [weight]; omega
    · have := weight_le_of_mem h
      simp only [weight]; omega
  | .expr .null as t, h | .expr (.bool _) as t, h | .expr (.number _) as t, h | .expr (.text _) as t, h
  | .expr (.tuple _) as t, h | .expr (.list _) as t, h | .expr (.set _) as t, h
  | .expr (.table _) as t, h | .expr (.bindings _) as t, h =>
    simp only [shape, Shape.parts, List.mem_cons] at h
    rcases h with rfl | h
    · simp only [weight]; omega
    · have := weight_le_of_mem h
      simp only [weight]; omega
  | .null, h | .bool _, h | .number _, h | .text _, h | .symbol _, h | .tuple _, h | .list _, h
  | .set _, h | .table _, h | .bindings _, h => simp [shape, isAtom, isSymbol, Shape.parts] at h

theorem weights_compound_lt {v h : Value} {as : List Value} (eq : shape v = .compound h as) :
    weights as < weight v := by
  match v, eq with
  | .expr (.symbol s) bs t, eq =>
    have same : as = bs := by
      simp only [shape, shapeOfCall] at eq
      repeat' split at eq
      all_goals simp_all
    subst same
    simp only [weight]
    omega
  | .expr (.expr ..) bs t, eq | .expr .null bs t, eq | .expr (.bool _) bs t, eq
  | .expr (.number _) bs t, eq | .expr (.text _) bs t, eq | .expr (.tuple _) bs t, eq
  | .expr (.list _) bs t, eq | .expr (.set _) bs t, eq | .expr (.table _) bs t, eq
  | .expr (.bindings _) bs t, eq =>
    simp only [shape, Shape.compound.injEq] at eq
    simp only [weight, eq.2]
    omega
  | .null, eq | .bool _, eq | .number _, eq | .text _, eq | .symbol _, eq | .tuple _, eq | .list _, eq
  | .set _, eq | .table _, eq | .bindings _, eq => simp [shape, isAtom, isSymbol] at eq

theorem weight_first?_lt {v q : Value} (h : first? v.args = some q) : weight q < weight v := by
  cases v with
  | expr k as t =>
    have := weight_le_of_mem (first?_mem h)
    simp only [args] at this
    simp only [weight]
    omega
  | _ => simp [args, first?] at h

theorem weight_optional_lt {v q : Value} {d : Option Value} (h : role v = .optional (some q) d) :
    weight q < weight v := by
  unfold role at h
  repeat' split at h
  all_goals simp at h
  exact weight_first?_lt h.1

theorem weight_repeated_lt {v q : Value} {n : Nat} (h : role v = .repeated (some q) n) :
    weight q < weight v := by
  unfold role at h
  repeat' split at h
  all_goals simp at h
  all_goals exact weight_first?_lt h.1

theorem weights_lt_cons (x : Value) (xs : List Value) : weights xs < weights (x :: xs) := by
  have := weight_pos x
  simp only [weights]
  omega

theorem twice_lt {m n : Nat} (h : m < n) : 2 * m < 2 * n := by omega

theorem after_lt (p : Value) (rest : List Value) : 2 * weights rest + 1 < 2 * weights (p :: rest) + 1 := by
  have := weights_lt_cons p rest
  omega

/-- Replaces arguments with the given head by their own arguments, at every depth. -/
def flatten : Value → List Value → List Value
  | _, [] => []
  | head, .expr h as t :: xs =>
    if h.equal head then flatten head as ++ flatten head xs else .expr h as t :: flatten head xs
  | head, x :: xs => x :: flatten head xs

theorem weights_flatten_le (head : Value) (xs : List Value) : weights (flatten head xs) ≤ weights xs := by
  fun_induction flatten head xs with
  | case1 => exact Nat.le_refl _
  | case2 head h as t xs eq ih₁ ih₂ => rw [weights_append]; simp only [weights, weight]; omega
  | case3 head h as t xs ne ih => simp only [weights, weight]; omega
  | case4 head x xs _ ih => simp only [weights]; omega

end Symbolic.Pattern
