/-!
Sorting by insertion. `sortBy_perm` and `sortBy_pairwise` say that the result holds the
same items in order. Items that the order does not tell apart keep their places
relative to each other. Where some items cannot be compared, sorting can fail
(`sortWith`).
-/
namespace Symbolic

variable {α ε : Type} (le : α → α → Bool) (less : α → α → Except ε Bool)

/-- Puts an item before the first one that it may stand before. -/
def insertBy (x : α) : List α → List α
  | [] => [x]
  | y :: ys => if le x y then x :: y :: ys else y :: insertBy x ys

def sortBy : List α → List α
  | [] => []
  | x :: xs => insertBy le x (sortBy xs)

/-- Puts an item before the first one that is not less. -/
def insertWith (x : α) : List α → Except ε (List α)
  | [] => .ok [x]
  | y :: ys => do
    if ← less y x then return y :: (← insertWith x ys) else return x :: y :: ys

/-- Sorts a list, asking which of two items is less. -/
def sortWith : List α → Except ε (List α)
  | [] => .ok []
  | x :: xs => do insertWith less x (← sortWith xs)

theorem insertBy_perm (x : α) (ys : List α) : (insertBy le x ys).Perm (x :: ys) := by
  induction ys with
  | nil => exact .refl _
  | cons y ys ih =>
    simp only [insertBy]
    split
    · exact .refl _
    · exact (ih.cons y).trans (.swap x y ys)

theorem sortBy_perm (xs : List α) : (sortBy le xs).Perm xs := by
  induction xs with
  | nil => exact .refl _
  | cons x xs ih => exact (insertBy_perm le x _).trans (ih.cons x)

variable {le}

theorem insertBy_pairwise (total : ∀ a b, le a b = true ∨ le b a = true)
    (trans : ∀ a b c, le a b = true → le b c = true → le a c = true) (x : α) {ys : List α}
    (h : ys.Pairwise fun a b => le a b = true) :
    (insertBy le x ys).Pairwise fun a b => le a b = true := by
  induction ys with
  | nil => simp [insertBy]
  | cons y ys ih =>
    obtain ⟨first, rest⟩ := List.pairwise_cons.1 h
    simp only [insertBy]
    split
    · rename_i before
      refine List.pairwise_cons.2 ⟨fun z hz => ?_, h⟩
      rcases List.mem_cons.1 hz with rfl | hz
      · exact before
      · exact trans x y z before (first z hz)
    · rename_i after
      refine List.pairwise_cons.2 ⟨fun z hz => ?_, ih rest⟩
      rcases List.mem_cons.1 ((insertBy_perm le x ys).mem_iff.1 hz) with rfl | hz
      · exact (total y z).resolve_right after
      · exact first z hz

theorem sortBy_pairwise (total : ∀ a b, le a b = true ∨ le b a = true)
    (trans : ∀ a b c, le a b = true → le b c = true → le a c = true) (xs : List α) :
    (sortBy le xs).Pairwise fun a b => le a b = true := by
  induction xs with
  | nil => exact .nil
  | cons x xs ih => exact insertBy_pairwise total trans x ih

end Symbolic
