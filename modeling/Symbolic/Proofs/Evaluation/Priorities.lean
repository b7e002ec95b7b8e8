import Symbolic.Proofs.Computation
import Symbolic.Rule

/-!
Which of several rules is applied to a value. Rules are tried by priority, the highest first, and rules of one priority
in the order of the list. Main statement: the first rule of this order that applies gives the result, in the
session that its application left, and no rule behind it is tried; if none applies, the value is the result. What
the order is made of is the row of rules of each priority, so lists with the same rows are the same as rules.
-/
namespace Symbolic

/-! ### Sorting by a key -/

section Keys

variable {α : Type} {key : α → Int}

/-- One item comes before another in the order of descending keys, in which items of one key keep their positions. -/
def Precedes (key : α → Int) (a b : α × Nat) : Prop := key b.1 < key a.1 ∨ key a.1 = key b.1 ∧ a.2 < b.2

abbrev sortDown (key : α → Int) (xs : List α) : List α := sortBy (fun a b => key b ≤ key a) xs

/-- An item from a position in front of all others is inserted where the order puts it. -/
theorem insertBy_precedes {x : α} {k : Nat} {ps : List (α × Nat)} (ordered : ps.Pairwise (Precedes key))
    (behind : ∀ p ∈ ps, k < p.2) :
    (insertBy (fun a b => key b.1 ≤ key a.1) (x, k) ps).Pairwise (Precedes key) := by
  induction ps with
  | nil => simp [insertBy]
  | cons p ps ih =>
    obtain ⟨first, rest⟩ := List.pairwise_cons.1 ordered
    obtain ⟨here, later⟩ := List.forall_mem_cons.1 behind
    simp only [insertBy, decide_eq_true_eq]
    split
    · next atMost =>
      -- Keys descend from `p` on, so none behind it is above that of `x`.
      refine List.pairwise_cons.2 ⟨fun q member => ?_, ordered⟩
      have bounded : key q.1 ≤ key x := by
        rcases List.mem_cons.1 member with rfl | member
        · exact atMost
        · rcases first q member with below | ⟨same, -⟩ <;> omega
      have position := behind q member
      simp only [Precedes]
      omega
    · next above =>
      refine List.pairwise_cons.2 ⟨fun q member => ?_, ih rest later⟩
      rcases List.mem_cons.1 ((insertBy_perm _ (x, k) ps).mem_iff.1 member) with rfl | member
      · exact .inl (Int.not_le.1 above)
      · exact first q member

/-- Sorting by descending keys takes the items with their positions in the order of keys and positions. -/
theorem sortDown_positions (xs : List α) (k : Nat) :
    ∃ ps : List (α × Nat), ps.Perm (xs.zipIdx k) ∧ ps.Pairwise (Precedes key) ∧ ps.map Prod.fst = sortDown key xs := by
  induction xs generalizing k with
  | nil => exact ⟨[], .refl _, .nil, rfl⟩
  | cons x xs ih =>
    obtain ⟨ps, perm, ordered, items⟩ := ih (k + 1)
    have behind : ∀ p ∈ ps, k < p.2 := fun p member => (List.mem_zipIdx (perm.mem_iff.1 member)).1
    refine ⟨insertBy (fun a b => key b.1 ≤ key a.1) (x, k) ps, ?_, insertBy_precedes ordered behind, ?_⟩
    · rw [List.zipIdx_cons]
      exact (insertBy_perm _ _ ps).trans (perm.cons _)
    · rw [sortDown, sortBy, ← sortDown, ← items]
      clear perm ordered items behind
      induction ps with
      | nil => rfl
      | cons p ps ih =>
        simp only [insertBy, List.map_cons]
        split
        · rfl
        · rw [List.map_cons, ih]

theorem sortDown_pairwise (xs : List α) : (sortDown key xs).Pairwise fun a b => key b ≤ key a := by
  have total (a b : α) : decide (key b ≤ key a) = true ∨ decide (key a ≤ key b) = true := by
    simp only [decide_eq_true_eq]
    omega
  have trans (a b c : α) (first : decide (key b ≤ key a) = true) (second : decide (key c ≤ key b) = true) :
      decide (key c ≤ key a) = true := by
    simp only [decide_eq_true_eq] at first second ⊢
    omega
  exact (sortBy_pairwise total trans xs).imp fun below => of_decide_eq_true below

theorem filter_sortDown (p : Int) (xs : List α) :
    (sortDown key xs).filter (key · = p) = xs.filter (key · = p) := by
  -- Where an item is inserted, those in front of it have higher keys and so another one.
  have insert : ∀ (x : α) (ys : List α),
      (insertBy (fun a b => decide (key b ≤ key a)) x ys).filter (key · = p) = (x :: ys).filter (key · = p) := by
    intro x ys
    induction ys with
    | nil => rfl
    | cons y ys ih =>
      simp only [insertBy, decide_eq_true_eq]
      split
      · rfl
      · next above =>
        rw [List.filter_cons, ih]
        by_cases mine : key x = p
        · have other : key y ≠ p := by omega
          simp [mine, other]
        · simp [List.filter_cons, mine]
  induction xs with
  | nil => rfl
  | cons x xs ih =>
    rw [sortDown, sortBy, insert, List.filter_cons, List.filter_cons, ih]

/-- Two lists in the order of descending keys are the same if they have the same items of each key. -/
theorem eq_of_filters {xs ys : List α} (left : xs.Pairwise fun a b => key b ≤ key a)
    (right : ys.Pairwise fun a b => key b ≤ key a)
    (rows : ∀ p, xs.filter (key · = p) = ys.filter (key · = p)) : xs = ys := by
  induction xs generalizing ys with
  | nil =>
    cases ys with
    | nil => rfl
    | cons y ys => simpa using rows (key y)
  | cons x xs ih =>
    cases ys with
    | nil => simpa using rows (key x)
    | cons y ys =>
      obtain ⟨lower, ordered⟩ := List.pairwise_cons.1 left
      obtain ⟨lowerToo, orderedToo⟩ := List.pairwise_cons.1 right
      -- Each of the first items occurs in the other list, where nothing is above the first.
      have atMost : ∀ {a b : α} {as bs : List α}, (∀ c ∈ bs, key c ≤ key b) →
          (a :: as).filter (key · = key a) = (b :: bs).filter (key · = key a) → key a ≤ key b := by
        intro a b as bs bounded row
        have member : a ∈ (b :: bs).filter (key · = key a) := by
          rw [← row]
          simp
        rcases List.mem_cons.1 (List.mem_filter.1 member).1 with rfl | member
        · exact Int.le_refl _
        · exact bounded a member
      have same : key x = key y := Int.le_antisymm (atMost lowerToo (rows _)) (atMost lower (rows _).symm)
      have first := rows (key x)
      simp only [List.filter_cons, same, decide_true, if_true, List.cons.injEq] at first
      obtain ⟨rfl, -⟩ := first
      refine congrArg (x :: ·) (ih ordered orderedToo fun p => ?_)
      have row := rows p
      simp only [List.filter_cons] at row
      split at row
      · exact (List.cons.inj row).2
      · exact row

end Keys

/-! ### Trying rules in a row -/

namespace Rule

open Value

section Trying

variable (ev : Evaluator) (c : ContextId) (e : Value)

/-- Rules are tried on a value one after the other, each in the session that the one before left, and none applies. -/
inductive Declined : List Rule → Session → Session → Prop
  | nil {s : Session} : Declined [] s s
  | cons {r : Rule} {rs : List Rule} {s t u : Session} (declines : r.tryOn ev c e s = .ok none t)
    (rest : Declined rs t u) : Declined (r :: rs) s u

/-- What comes of trying rules in a row: the first that applies, or fails, is the last that is tried. -/
inductive Decided (rs : List Rule) (s : Session) : EStateM.Result Halt Session Value → Prop
  | applied {before after : List Rule} {r : Rule} {t u : Session} {v : Value} (row : rs = before ++ r :: after)
    (declined : Declined ev c e before s t) (applies : r.tryOn ev c e t = .ok (some v) u) : Decided rs s (.ok v u)
  | failed {before after : List Rule} {r : Rule} {t u : Session} {h : Halt} (row : rs = before ++ r :: after)
    (declined : Declined ev c e before s t) (fails : r.tryOn ev c e t = .error h u) : Decided rs s (.error h u)
  | unchanged {t : Session} (declined : Declined ev c e rs s t) : Decided rs s (.ok e t)

variable {ev c e} {r : Rule} {rs : List Rule} {s t : Session} {result : EStateM.Result Halt Session Value}

theorem Decided.cons (declines : r.tryOn ev c e s = .ok none t) (decided : Decided ev c e rs t result) :
    Decided ev c e (r :: rs) s result := by
  cases decided with
  | applied row declined applies => exact .applied (congrArg (r :: ·) row) (.cons declines declined) applies
  | failed row declined fails => exact .failed (congrArg (r :: ·) row) (.cons declines declined) fails
  | unchanged declined => exact .unchanged (.cons declines declined)

theorem applyFirst_decided (rs : List Rule) (s : Session) : Decided ev c e rs s (applyFirst ev c e rs s) := by
  induction rs generalizing s with
  | nil => exact .unchanged .nil
  | cons r rs ih =>
    cases tried : r.tryOn ev c e s with
    | error h u =>
      rw [applyFirst, Step.bind_of_error tried]
      exact .failed rfl .nil tried
    | ok found u =>
      rw [applyFirst, Step.bind_of_ok tried]
      cases found with
      | some v => exact .applied rfl .nil tried
      | none => exact (ih u).cons tried

end Trying

/-- Rules are tried in the order of their priorities, the highest first, and of their positions in the list. The
first that applies gives the result and leaves its session; if it fails, so does the whole, and if none applies, the
value itself is the result. Lists with the same row of rules for every priority give the same result in the
same session. -/
theorem applied_by_priority (ev : Evaluator) (c : ContextId) (e : Value) (rs : List Rule) (s : Session) :
    (∃ ps : List (Rule × Nat), ps.Perm rs.zipIdx ∧ ps.Pairwise (Precedes priority) ∧
      Decided ev c e (ps.map Prod.fst) s (applyAny ev c rs e s)) ∧
    ∀ others, (∀ p, others.filter (priority · = p) = rs.filter (priority · = p)) →
      applyAny ev c others e s = applyAny ev c rs e s := by
  constructor
  · obtain ⟨ps, perm, ordered, items⟩ := @sortDown_positions Rule priority rs 0
    refine ⟨ps, perm, ordered, ?_⟩
    rw [items]
    exact applyFirst_decided _ s
  · intro others rows
    have same : byPriority others = byPriority rs := by
      refine eq_of_filters (sortDown_pairwise others) (sortDown_pairwise rs) fun p => ?_
      exact (filter_sortDown p others).trans ((rows p).trans (filter_sortDown p rs).symm)
    rw [applyAny, applyAny, same]

/-- Of three rules for `f[5]`, the first of the higher priority has a condition that does not hold, so the second of it
is applied. It does not matter where the rule of the lower priority stands. -/
theorem applied_by_priority_fallback :
    let fallback : Rule := ⟨call "Blank" [], .value (int 1), false, .null, 0⟩
    let guarded : Rule := ⟨call "f" [call "Blank" []], .value (int 2), false, call "Less" [int 2, int 1], 5⟩
    let plain : Rule := ⟨call "f" [call "Blank" []], .value (int 3), true, .null, 5⟩
    let run (rs : List Rule) := applyAny (evaluate 9) Session.globalId rs (call "f" [int 5]) Session.initial
    (∀ p, [guarded, plain, fallback].filter (priority · = p) = [fallback, guarded, plain].filter (priority · = p)) ∧
    run [guarded, plain, fallback] = run [fallback, guarded, plain] ∧
    Step.returns (same (int 3)) (run [fallback, guarded, plain]) = true := by
  intro fallback guarded plain run
  have rows : ∀ p, [guarded, plain, fallback].filter (priority · = p) =
      [fallback, guarded, plain].filter (priority · = p) := by
    intro p
    by_cases low : (0 : Int) = p
    · have high : (5 : Int) ≠ p := by omega
      simp [fallback, guarded, plain, low, high]
    · simp [fallback, guarded, plain, low, List.filter_cons]
  exact ⟨rows, (applied_by_priority _ _ _ _ _).2 _ rows, by decide +kernel⟩

end Rule
end Symbolic
