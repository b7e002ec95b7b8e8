import Symbolic.Canonical
import Symbolic.Pattern.Weight
import Symbolic.Proofs.Elements

/-!
Two ways to flatten an expression with arguments of its own head come to the same: one goes on with the
head of each argument that it opens (`flatArgs`), the other keeps to the head of the whole (`flatten`).
They agree because equality of heads is an equivalence, though heads that are equal need not be identical.
What is left are the values that are reached from the expression through arguments with its head and do
not have that head themselves, in the order in which they stand (`flattening_complete`).
-/
namespace Symbolic.Value

open Pattern (flatten)

/-- Whether a value is an expression with an equal head. -/
def isHeadedBy : Value → Value → Bool
  | .expr k _ _, h => k.equal h
  | _, _ => false

/-- The value at a position: the first number says which argument, and so on inside of it. -/
def partAt? : Value → List Nat → Option Value
  | v, [] => some v
  | v, i :: p => v.args[i]?.bind (partAt? · p)

/-- The position is reached through expressions with the given head, and what stands there has
another head. -/
def Outermost (h : Value) : Value → List Nat → Prop
  | v, [] => v.isHeadedBy h = false
  | v, i :: p => v.isHeadedBy h = true ∧ ∃ a, v.args[i]? = some a ∧ Outermost h a p

section Agreement

variable {g h k : Value}

theorem equal_congr (element : g.isElement = true) (free : g.isNaNFree = true) (same : h.equal g = true) :
    k.equal h = true ↔ k.equal g = true := by
  have elementToo := (same_symm element (same_of_equal same)).2
  have back : g.equal h = true := equal_of_both_equal element (equal_self free) same
  exact ⟨fun left => equal_of_both_equal elementToo left back, fun right => equal_of_both_equal element right same⟩

/-- Going on with the head of an argument is keeping to the head of the whole. -/
theorem flatArgs_eq_flatten (element : g.isElement = true) (free : g.isNaNFree = true) (same : h.equal g = true)
    (as : List Value) : flatArgs h as = flatten g as := by
  fun_induction flatten g as generalizing h with
  | case1 => rfl
  | case2 g k bs t xs equal inner rest =>
    rw [flatArgs, if_pos ((equal_congr element free same).2 equal), inner element free equal, rest element free same]
  | case3 g k bs t xs unequal rest =>
    rw [flatArgs, if_neg (mt (equal_congr element free same).1 unequal), rest element free same]
    rfl
  | case4 g x xs other rest =>
    cases x with
    | expr k bs t => exact (other k bs t rfl).elim
    | _ => exact congrArg _ (rest element free same)

end Agreement

section Positions

variable {h : Value}

mutual

/-- The outermost positions of a value, from left to right. -/
def positions (h : Value) : Value → List (List Nat)
  | .expr k as _ => if k.equal h then branches h 0 as else [[]]
  | _ => [[]]

/-- The outermost positions of arguments, which are numbered from `i` on. -/
def branches (h : Value) (i : Nat) : List Value → List (List Nat)
  | [] => []
  | a :: as => (positions h a).map (i :: ·) ++ branches h (i + 1) as

end

theorem positions_headed {v : Value} (headed : v.isHeadedBy h = true) : positions h v = branches h 0 v.args := by
  cases v with
  | expr k as t => exact if_pos headed
  | _ => cases headed

theorem positions_other {v : Value} (other : v.isHeadedBy h = false) : positions h v = [[]] := by
  cases v with
  | expr k as t => exact if_neg (Bool.eq_false_iff.1 other)
  | _ => rfl

/-- What holds of a value if it holds of its arguments holds of all values. -/
theorem byArgs {motive : Value → Prop} (step : ∀ v, (∀ a ∈ v.args, motive a) → motive v) (v : Value) : motive v := by
  induction v using byParts with
  | expr h as t _ args => exact step _ args
  | symbol x => exact step _ (by simp [args])
  | other v other =>
    refine step v fun a member => ?_
    cases v with
    | expr k as t => cases other
    | _ => cases member

theorem mem_branches {as : List Value} (each : ∀ a ∈ as, ∀ p, p ∈ positions h a ↔ Outermost h a p) (i : Nat)
    (p : List Nat) : p ∈ branches h i as ↔ ∃ j q a, p = (i + j) :: q ∧ as[j]? = some a ∧ Outermost h a q := by
  induction as generalizing i with
  | nil => simp [branches]
  | cons a as ih =>
    obtain ⟨here, later⟩ := List.forall_mem_cons.1 each
    rw [branches, List.mem_append, List.mem_map, ih later]
    constructor
    · rintro (⟨q, member, rfl⟩ | ⟨j, q, b, rfl, found, outermost⟩)
      · exact ⟨0, q, a, rfl, rfl, (here q).1 member⟩
      · exact ⟨j + 1, q, b, by rw [Nat.add_right_comm, Nat.add_assoc], found, outermost⟩
    · rintro ⟨j, q, b, rfl, found, outermost⟩
      cases j with
      | zero =>
        obtain rfl : a = b := Option.some.inj found
        exact .inl ⟨q, (here q).2 outermost, rfl⟩
      | succ j => exact .inr ⟨j, q, b, by rw [Nat.add_right_comm, Nat.add_assoc], found, outermost⟩

theorem mem_positions (v : Value) (p : List Nat) : p ∈ positions h v ↔ Outermost h v p := by
  induction v using byArgs generalizing p with
  | step v args =>
    cases headed : v.isHeadedBy h with
    | true =>
      rw [positions_headed headed, mem_branches args]
      cases p with
      | nil => simp [Outermost, headed]
      | cons i p =>
        simp only [Nat.zero_add, List.cons.injEq, Outermost, headed, true_and]
        constructor
        · rintro ⟨_, _, a, ⟨rfl, rfl⟩, found, outermost⟩
          exact ⟨a, found, outermost⟩
        · rintro ⟨a, found, outermost⟩
          exact ⟨i, p, a, ⟨rfl, rfl⟩, found, outermost⟩
    | false =>
      rw [positions_other headed]
      cases p with
      | nil => simp [Outermost, headed]
      | cons i p => simp [Outermost, headed]

theorem branches_ordered {as : List Value}
    (each : ∀ a ∈ as, (positions h a).Pairwise (List.Lex (· < ·))) (i : Nat) :
    (branches h i as).Pairwise (List.Lex (· < ·)) := by
  induction as generalizing i with
  | nil => exact .nil
  | cons a as ih =>
    obtain ⟨here, later⟩ := List.forall_mem_cons.1 each
    rw [branches, List.pairwise_append]
    refine ⟨?_, ih later (i + 1), ?_⟩
    · rw [List.pairwise_map]
      exact here.imp fun less => .cons less
    · intro p left q right
      obtain ⟨p, _, rfl⟩ := List.mem_map.1 left
      obtain ⟨j, q, _, rfl, _⟩ := (mem_branches (fun a _ p => mem_positions a p) (i + 1) _).1 right
      exact .rel (by omega)

theorem positions_ordered (v : Value) : (positions h v).Pairwise (List.Lex (· < ·)) := by
  induction v using byArgs with
  | step v args =>
    cases headed : v.isHeadedBy h with
    | true =>
      rw [positions_headed headed]
      exact branches_ordered args 0
    | false =>
      rw [positions_other headed]
      exact List.pairwise_singleton _ _

end Positions

section Completeness

variable {h : Value}

/-- What is left of a value among arguments: its own arguments if it has the head of the whole. -/
def opened (h v : Value) : List Value := if v.isHeadedBy h then flatten h v.args else [v]

theorem flatten_cons (a : Value) (as : List Value) : flatten h (a :: as) = opened h a ++ flatten h as := by
  cases a with
  | expr k bs t =>
    rw [flatten, opened, isHeadedBy]
    split <;> rfl
  | _ => rfl

theorem parts_branches {as : List Value} (each : ∀ a ∈ as, (positions h a).map a.partAt? = (opened h a).map some)
    (v : Value) (front : List Value) (whole : v.args = front ++ as) :
    (branches h front.length as).map v.partAt? = (flatten h as).map some := by
  induction as generalizing front with
  | nil => rfl
  | cons a as ih =>
    obtain ⟨here, later⟩ := List.forall_mem_cons.1 each
    have inside : ∀ p, v.partAt? (front.length :: p) = a.partAt? p := by
      intro p
      rw [partAt?, whole, List.getElem?_append_right (Nat.le_refl _), Nat.sub_self]
      rfl
    have rest := ih later (front ++ [a]) (by rw [whole, List.append_assoc]; rfl)
    rw [List.length_append] at rest
    have first : (positions h a).map (v.partAt? ∘ (front.length :: ·)) = (positions h a).map a.partAt? :=
      List.map_congr_left fun p _ => inside p
    rw [branches, List.map_append, List.map_map, first, here, flatten_cons, List.map_append]
    exact congrArg _ rest

theorem parts_positions (v : Value) : (positions h v).map v.partAt? = (opened h v).map some := by
  induction v using byArgs with
  | step v args =>
    cases headed : v.isHeadedBy h with
    | true =>
      rw [positions_headed headed, opened, if_pos headed]
      exact parts_branches args v [] rfl
    | false =>
      rw [positions_other headed, opened, if_neg (by simp [headed])]
      rfl

theorem flatten_other {as : List Value} : ∀ b ∈ flatten h as, b.isHeadedBy h = false := by
  fun_induction flatten h as with
  | case1 => simp
  | case2 h k bs t xs equal inner rest =>
    intro b member
    exact (List.mem_append.1 member).elim (inner b) (rest b)
  | case3 h k bs t xs unequal rest => exact List.forall_mem_cons.2 ⟨Bool.eq_false_iff.2 unequal, rest⟩
  | case4 h x xs other rest =>
    refine List.forall_mem_cons.2 ⟨?_, rest⟩
    cases x with
    | expr k bs t => exact (other k bs t rfl).elim
    | _ => rfl

theorem flatten_of_other {as : List Value} (other : ∀ a ∈ as, a.isHeadedBy h = false) : flatten h as = as := by
  induction as with
  | nil => rfl
  | cons a as ih =>
    obtain ⟨here, later⟩ := List.forall_mem_cons.1 other
    rw [flatten_cons, ih later, opened, if_neg (by simp [here])]
    rfl

end Completeness

/-- Flattening keeps the head and the attributes of an expression, and the arguments that it leaves are those that
the other way to flatten leaves. None of them has the head of the whole, they are what stands at the outermost
positions, from left to right, and flattening again changes nothing. Only the head is asked to be an element
without a NaN. -/
theorem flattening_complete {h : Value} (as : List Value) (t : SymbolSet) (element : h.isElement = true)
    (free : h.isNaNFree = true) :
    flattenNested (.expr h as t) = .expr h (flatten h as) t ∧
      (∀ a ∈ flatten h as, a.isHeadedBy h = false) ∧
      (∃ ps : List (List Nat), ps.Pairwise (List.Lex fun i j : Nat => i < j) ∧
        (∀ p, p ∈ ps ↔ Outermost h (.expr h as t) p) ∧
        ps.map (partAt? (.expr h as t)) = (flatten h as).map some) ∧
      flattenNested (flattenNested (.expr h as t)) = flattenNested (.expr h as t) := by
  have same : h.equal h = true := equal_self free
  have agree (bs : List Value) : flattenNested (.expr h bs t) = .expr h (flatten h bs) t := by
    rw [flattenNested, flatArgs_eq_flatten element free same]
  refine ⟨agree as, flatten_other, ⟨positions h (.expr h as t), positions_ordered _, mem_positions _, ?_⟩, ?_⟩
  · rw [parts_positions, opened, if_pos (show isHeadedBy (.expr h as t) h = true from same)]
    rfl
  · rw [agree, agree, flatten_of_other flatten_other]

/-- A call of `f[u]`. -/
def callOf (u : Value) (as : List Value) : Value := .expr (call "f" [u]) as .empty

/-- The heads `f[1]` and `f[True]` are equal. -/
theorem flattening_complete_units :
    isElement (call "f" [int 1]) = true ∧ isNaNFree (call "f" [int 1]) = true ∧
      flattenNested (callOf (int 1) [callOf (.bool true) [int 2, callOf (int 1) [], callOf (int 0) [callOf (int 1) []]],
        int 4]) = callOf (int 1) [int 2, callOf (int 0) [callOf (int 1) []], int 4] := by
  have element : isElement (call "f" [int 1]) = true := by decide +kernel
  have free : isNaNFree (call "f" [int 1]) = true := by decide +kernel
  have units : equal (call "f" [.bool true]) (call "f" [int 1]) = true := by decide +kernel
  have other : equal (call "f" [int 0]) (call "f" [int 1]) = false := by decide +kernel
  refine ⟨element, free, (flattening_complete _ _ element free).1.trans ?_⟩
  simp [callOf, flatten, units, other, equal_self free]

end Symbolic.Value
