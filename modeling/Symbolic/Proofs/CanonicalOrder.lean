import Symbolic.Canonical
import Symbolic.Proofs.Computation
import Symbolic.Proofs.Elements
import Symbolic.Proofs.WrittenForm

/-!
The canonical order is a total preorder of values, and sorting by it is a function of what
is sorted: it permutes, leaves a list in order alone, and gives one result for all
permutations of a list whose values have different keys. Legible values have different keys, so
that what they are sorted into depends on nothing but which they are (`sorted_of_legible`).
Sorting fails where a value has no text, for then it has no key.
-/
namespace Symbolic

theorem sortBy_of_pairwise {α : Type} {le : α → α → Bool} {xs : List α}
    (ordered : xs.Pairwise fun a b => le a b = true) : sortBy le xs = xs := by
  induction xs with
  | nil => rfl
  | cons x xs ih =>
    obtain ⟨first, rest⟩ := List.pairwise_cons.1 ordered
    rw [sortBy, ih rest]
    cases xs with
    | nil => rfl
    | cons y ys => simp [insertBy, first y (by simp)]

section Failing

variable {α β ε : Type} {le : α → α → Bool} {less : α → α → Except ε Bool}

theorem insertWith_cons {x y : α} {ys zs : List α} (run : insertWith less x (y :: ys) = .ok zs) :
    less y x = .ok false ∧ zs = x :: y :: ys ∨
      less y x = .ok true ∧ ∃ ws, insertWith less x ys = .ok ws ∧ zs = y :: ws := by
  obtain ⟨below, asked, run⟩ := Except.bind_ok run
  cases below with
  | false => exact .inl ⟨asked, (Except.ok.inj run).symm⟩
  | true =>
    obtain ⟨ws, inserted, run⟩ := Except.bind_ok run
    exact .inr ⟨asked, ws, inserted, (Except.ok.inj run).symm⟩

theorem insertWith_perm {x : α} {ys zs : List α} (run : insertWith less x ys = .ok zs) : zs.Perm (x :: ys) := by
  induction ys generalizing zs with
  | nil =>
    cases run
    exact .refl _
  | cons y ys ih =>
    rcases insertWith_cons run with ⟨-, rfl⟩ | ⟨-, ws, inserted, rfl⟩
    · exact .refl _
    · exact ((ih inserted).cons y).trans (.swap x y ys)

theorem sortWith_perm {xs ys : List α} (run : sortWith less xs = .ok ys) : ys.Perm xs := by
  induction xs generalizing ys with
  | nil =>
    cases run
    exact .refl _
  | cons x xs ih =>
    obtain ⟨zs, rest, run⟩ := Except.bind_ok run
    exact (insertWith_perm run).trans ((ih rest).cons x)

/-- Sorting fails only where a comparison of two items does. -/
theorem exists_of_sortWith_error {xs : List α} {e : ε} (run : sortWith less xs = .error e) :
    ∃ x ∈ xs, ∃ y ∈ xs, less y x = .error e := by
  have insert (x : α) (ys : List α) (run : insertWith less x ys = .error e) : ∃ y ∈ ys, less y x = .error e := by
    induction ys with
    | nil => cases run
    | cons y ys ih =>
      rcases Except.bind_error run with failed | ⟨below, -, run⟩
      · exact ⟨y, List.mem_cons_self, failed⟩
      · cases below with
        | false => cases run
        | true =>
          rcases Except.bind_error run with inner | ⟨_, _, ended⟩
          · obtain ⟨z, member, failed⟩ := ih inner
            exact ⟨z, List.mem_cons_of_mem y member, failed⟩
          · cases ended
  induction xs with
  | nil => cases run
  | cons x xs ih =>
    rcases Except.bind_error run with failed | ⟨ys, rest, run⟩
    · obtain ⟨y, yIn, z, zIn, failed⟩ := ih failed
      exact ⟨y, List.mem_cons_of_mem x yIn, z, List.mem_cons_of_mem x zIn, failed⟩
    · obtain ⟨y, member, failed⟩ := insert x ys run
      exact ⟨x, List.mem_cons_self, y, List.mem_cons_of_mem x ((sortWith_perm rest).mem_iff.1 member), failed⟩

/-- Images are sorted as the items are by their images. -/
theorem sortWith_map (f : β → α) (xs : List β) :
    sortWith less (xs.map f) = (sortWith (fun a b => less (f a) (f b)) xs).map (List.map f) := by
  have insert (x : β) (ys : List β) :
      insertWith less (f x) (ys.map f) = (insertWith (fun a b => less (f a) (f b)) x ys).map (List.map f) := by
    induction ys with
    | nil => rfl
    | cons y ys ih =>
      simp only [List.map_cons, insertWith, ih]
      rcases less (f y) (f x) with _ | _ | _
      · rfl
      · rfl
      · cases insertWith (fun a b => less (f a) (f b)) x ys <;> rfl
  induction xs with
  | nil => rfl
  | cons x xs ih =>
    rw [List.map_cons, sortWith, sortWith, ih]
    cases sortWith (fun a b => less (f a) (f b)) xs with
    | error e => rfl
    | ok ys => exact insert x ys

/-- Items that can all be compared are sorted by the order that the comparison asks for. -/
theorem sortWith_eq_sortBy {xs : List α} (asks : ∀ x ∈ xs, ∀ y ∈ xs, less y x = .ok (!le x y)) :
    sortWith less xs = .ok (sortBy le xs) := by
  have insert (x : α) (ys : List α) (each : ∀ y ∈ ys, less y x = .ok (!le x y)) :
      insertWith less x ys = .ok (insertBy le x ys) := by
    induction ys with
    | nil => rfl
    | cons y ys ih =>
      obtain ⟨first, rest⟩ := List.forall_mem_cons.1 each
      rw [insertWith, insertBy, first, ih rest]
      cases le x y <;> rfl
  induction xs with
  | nil => rfl
  | cons x xs ih =>
    obtain ⟨first, rest⟩ := List.forall_mem_cons.1 asks
    rw [sortWith, ih fun y member z => (List.forall_mem_cons.1 (rest y member)).2 z]
    refine insert x _ fun y member => ?_
    exact first y (List.mem_cons_of_mem x ((sortBy_perm le xs).mem_iff.1 member))

end Failing

namespace Value

theorem then_ne_gt {o p : Ordering} : o.then p ≠ .gt ↔ o = .lt ∨ o = .eq ∧ p ≠ .gt := by
  cases o <;> simp [Ordering.then]

namespace SortKey

theorem le_iff {a b : SortKey} : a.le b = true ↔
    a.rank < b.rank ∨ a.rank = b.rank ∧ (a.depth < b.depth ∨ a.depth = b.depth ∧
      (a.leaves < b.leaves ∨ a.leaves = b.leaves ∧ Text.Le a.text b.text)) := by
  simp only [le, compare, bne_iff_ne, then_ne_gt, Nat.compare_eq_lt, Nat.compare_eq_eq, Text.Le, ne_eq,
    Ordering.isLE_iff_ne_gt]

theorem le_total (a b : SortKey) : a.le b = true ∨ b.le a = true := by
  rw [le_iff, le_iff]
  have texts := Text.le_total a.text b.text
  grind

theorem le_trans {a b c : SortKey} (first : a.le b = true) (second : b.le c = true) : a.le c = true := by
  rw [le_iff] at *
  have texts : Text.Le a.text b.text → Text.Le b.text c.text → Text.Le a.text c.text := Text.le_trans
  grind

theorem le_antisymm {a b : SortKey} (first : a.le b = true) (second : b.le a = true) : a = b := by
  rw [le_iff] at *
  have texts : Text.Le a.text b.text → Text.Le b.text a.text → a.text = b.text := Text.le_antisymm
  cases a
  cases b
  simp only [mk.injEq]
  grind

theorem compare_swap (a b : SortKey) : a.compare b = (b.compare a).swap := by
  simp only [compare, Ordering.swap_then, Nat.compare_swap, ← Text.compare_swap]

theorem eq_of_compare {a b : SortKey} (same : a.compare b = .eq) : a = b := by
  refine le_antisymm ?_ ?_
  · rw [le, same]
    rfl
  · rw [le, compare_swap, same]
    rfl

end SortKey

def Before (a b : Value) : Prop := a.sortKey.le b.sortKey = true

/-- Values sorted by their keys alone. -/
def canonicalSort (xs : List Value) : List Value := sortBy (fun a b => a.sortKey.le b.sortKey) xs

theorem canonicalSort_perm (xs : List Value) : (canonicalSort xs).Perm xs := sortBy_perm _ xs

theorem canonicalSort_pairwise (xs : List Value) : (canonicalSort xs).Pairwise Before := by
  have total : ∀ a b : Value, a.sortKey.le b.sortKey = true ∨ b.sortKey.le a.sortKey = true :=
    fun a b => SortKey.le_total a.sortKey b.sortKey
  exact sortBy_pairwise total (fun a b c => SortKey.le_trans) xs

theorem canonicalSort_of_pairwise {xs : List Value} (ordered : xs.Pairwise Before) :
    canonicalSort xs = xs := by
  exact sortBy_of_pairwise ordered

@[simp] theorem canonicalSort_idem (xs : List Value) : canonicalSort (canonicalSort xs) = canonicalSort xs :=
  canonicalSort_of_pairwise (canonicalSort_pairwise xs)

theorem canonicalSort_congr {xs ys : List Value} (perm : xs.Perm ys)
    (distinct : ∀ x ∈ xs, ∀ y ∈ xs, x.sortKey = y.sortKey → x = y) :
    canonicalSort xs = canonicalSort ys := by
  have both : (canonicalSort xs).Perm (canonicalSort ys) :=
    (canonicalSort_perm xs).trans (perm.trans (canonicalSort_perm ys).symm)
  refine both.eq_of_pairwise ?_ (canonicalSort_pairwise xs) (canonicalSort_pairwise ys)
  intro x y xIn yIn first second
  refine distinct x ((canonicalSort_perm xs).mem_iff.1 xIn) y ?_ (SortKey.le_antisymm first second)
  exact perm.mem_iff.2 ((canonicalSort_perm ys).mem_iff.1 yIn)

def less (a b : Value) : Except Error Bool := precedes (a.sortKey, a) (b.sortKey, b)

/-- Numbers among these values are the same if their keys are. -/
def ToldApart (xs : List Value) : Prop :=
  ∀ x ∈ xs, ∀ y ∈ xs, x.sortKey = y.sortKey → x.keyNumber.same y.keyNumber = true

theorem toldApart_of_distinct {xs : List Value} (distinct : ∀ x ∈ xs, ∀ y ∈ xs, x.sortKey = y.sortKey → x = y) :
    ToldApart xs := fun x xIn y yIn same => by
  rw [distinct x xIn y yIn same]
  exact Number.same_iff.2 rfl

/-- Integers are told apart by their texts, and from all else by their rank. -/
theorem toldApart_of_integers {xs : List Value} (each : ∀ x ∈ xs, x.number? = none ∨ ∃ k, x = int k) :
    ToldApart xs := by
  have apart {k : Int} {y : Value} (other : y.number? = none) : (int k).sortKey ≠ y.sortKey := fun same => by
    have ranks := congrArg SortKey.rank same
    cases y <;> cases other <;> cases ranks
  intro x xIn y yIn same
  rcases each x xIn with left | ⟨k, rfl⟩ <;> rcases each y yIn with right | ⟨m, rfl⟩
  · rw [keyNumber, keyNumber, left, right]
    rfl
  · exact absurd same.symm (apart left)
  · exact absurd same (apart right)
  · obtain rfl : k = m := intText_injective (congrArg SortKey.text same)
    exact Number.same_iff.2 rfl

theorem ToldApart.perm {xs ys : List Value} (told : ToldApart xs) (perm : ys.Perm xs) : ToldApart ys :=
  fun x xIn y yIn => told x (perm.mem_iff.1 xIn) y (perm.mem_iff.1 yIn)

section Writable

variable {xs ys : List Value}

theorem sorted_eq (xs : List Value) : sorted xs = requireWritable xs >>= fun _ => sortWith less xs := by
  have back : List.map Prod.snd ∘ List.map (fun x : Value => (x.sortKey, x)) = id :=
    funext fun ys => (List.map_map ..).trans (List.map_id ys)
  unfold sorted
  congr 1
  funext _
  rw [sortWith_map]
  show (fun ys => ys.map Prod.snd) <$> (List.map _ <$> sortWith less xs) = _
  rw [← comp_map, back, id_map]

theorem sorted_of_writable (writable : areWritable xs = true) (told : ToldApart xs) :
    sorted xs = .ok (canonicalSort xs) := by
  rw [sorted_eq, requireWritable, if_pos writable]
  refine sortWith_eq_sortBy fun x xIn y yIn => ?_
  unfold less precedes
  simp only [SortKey.le, SortKey.compare_swap x.sortKey]
  cases order : y.sortKey.compare x.sortKey with
  | lt | gt => rfl
  | eq =>
    simp only [told y yIn x xIn (SortKey.eq_of_compare order), if_true]
    rfl

theorem sorted_of_unwritable (unwritable : areWritable xs = false) : sorted xs = .error .malformed := by
  unfold sorted requireWritable
  rw [if_neg (by simp [unwritable])]
  rfl

theorem sorted_perm (run : sorted xs = .ok ys) : ys.Perm xs := by
  rw [sorted_eq] at run
  obtain ⟨_, _, run⟩ := Except.bind_ok run
  exact sortWith_perm run

theorem sortArgs_perm {h r : Value} {t : SymbolSet} (run : (Value.expr h xs t).sortArgs = .ok r) :
    ∃ ys, ys.Perm xs ∧ r = .expr h ys t := by
  rw [sortArgs] at run
  split at run
  · cases run
    exact ⟨xs, .refl _, rfl⟩
  · obtain ⟨ys, sorted, run⟩ := Except.bind_ok run
    cases run
    split
    · exact ⟨xs, .refl _, rfl⟩
    · exact ⟨ys, sorted_perm sorted, rfl⟩

theorem areWritable_perm (perm : ys.Perm xs) : areWritable ys = areWritable xs := by
  rw [Bool.eq_iff_iff, areWritable_iff, areWritable_iff]
  exact ⟨fun each x member => each x (perm.mem_iff.2 member), fun each x member => each x (perm.mem_iff.1 member)⟩

end Writable

/-- Legible values are sorted into one and the same list from whatever order they come in, which is
a permutation of them that sorting leaves alone, unless one of them holds an integer that is too long
to be written; and no two of them share a key. -/
theorem sorted_of_legible {xs : List Value} (legible : ∀ x ∈ xs, Legible x) :
    (∀ ys, ys.Perm xs → sorted ys = sorted xs) ∧
    (areWritable xs = true → ∃ zs, sorted xs = .ok zs ∧ zs.Perm xs ∧ sorted zs = .ok zs) ∧
    (areWritable xs = false → sorted xs = .error .malformed) ∧
    (∀ x ∈ xs, ∀ y ∈ xs, x.sortKey = y.sortKey → x = y) ∧
    (∀ x ∈ xs, ∀ y ∈ xs, x.isExpr = true → y.isExpr = true → x.depth = y.depth → x.leafCount = y.leafCount →
      x.display = y.display → x = y) := by
  have distinct : ∀ x ∈ xs, ∀ y ∈ xs, x.sortKey = y.sortKey → x = y :=
    fun x xIn y yIn => (legible x xIn).sortKey_injective (legible y yIn)
  have told := toldApart_of_distinct distinct
  refine ⟨fun ys perm => ?_, fun writable => ?_, sorted_of_unwritable, distinct,
    fun x xIn y yIn first second depths leaves texts => ?_⟩
  · cases writable : areWritable xs with
    | true =>
      rw [sorted_of_writable writable told, sorted_of_writable ((areWritable_perm perm).trans writable) (told.perm perm),
        canonicalSort_congr perm.symm distinct]
    | false =>
      rw [sorted_of_unwritable writable, sorted_of_unwritable ((areWritable_perm perm).trans writable)]
  · have perm := canonicalSort_perm xs
    have stays := sorted_of_writable ((areWritable_perm perm).trans writable) (told.perm perm)
    rw [canonicalSort_idem] at stays
    exact ⟨canonicalSort xs, sorted_of_writable writable told, perm, stays⟩
  · refine distinct x xIn y yIn ?_
    cases x <;> cases first
    cases y <;> cases second
    simp only [sortKey, depths, leaves, texts]

/-- Values that differ by a quote or a bracket. -/
def lookalikes : List Value :=
  [call "f" [.text "a], 'b", int 2], .expr (call "f" [.text "\"x"]) [sym "f"] .empty,
    call "f" [.text "a]", .text "b", int 2], int 10, int (-2), .text "f[]", sym "f"]

theorem lookalikes_legible : ∀ x ∈ lookalikes, Legible x := by
  have symbol : Legible (sym "f") := .symbol (by decide +kernel)
  simp only [lookalikes, List.forall_mem_cons]
  refine ⟨.expr rfl symbol ?_, .expr rfl (.expr rfl symbol ?_) ?_, .expr rfl symbol ?_, .integer 10, .integer (-2),
    .text _, symbol, by simp⟩
  · simp only [List.forall_mem_cons]
    exact ⟨.text _, .integer 2, by simp⟩
  · simp only [List.forall_mem_cons]
    exact ⟨.text _, by simp⟩
  · simp only [List.forall_mem_cons]
    exact ⟨symbol, by simp⟩
  · simp only [List.forall_mem_cons]
    exact ⟨.text _, .text _, .integer 2, by simp⟩

theorem sorted_of_legible_lookalikes :
    (∀ x ∈ lookalikes, Legible x) ∧ sorted lookalikes.reverse = sorted lookalikes ∧
      ∃ zs, sorted lookalikes = .ok zs ∧ zs.Perm lookalikes ∧ sorted zs = .ok zs := by
  have writable : areWritable lookalikes = true := by decide +kernel
  obtain ⟨permuted, result, _⟩ := sorted_of_legible lookalikes_legible
  exact ⟨lookalikes_legible, permuted _ lookalikes.reverse_perm, result writable⟩

/-- An integer that is too long to be written. -/
def longInteger : Value := int (Nat.pow 10 5000)

/-- It is not sorted at all, though it is legible. -/
theorem long_integer_unsorted : Legible longInteger ∧ sorted [longInteger, int 1] = .error .malformed :=
  ⟨.integer _, sorted_of_unwritable (by decide +kernel)⟩

end Value
end Symbolic
