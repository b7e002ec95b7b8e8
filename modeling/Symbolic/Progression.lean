/-!
Arithmetic progressions of integers. A progression is run through member by member and
never written out, so one with very many members costs nothing before its members are
reached. Main statements: a run through a progression is a run through the list of its
members (`foldM_eq_foldlM`), and so is a loop that goes on until a bound is passed
(`stepping_eq_foldlM`).
-/
namespace Symbolic

/-- The integers `first`, `first + step`, `first + 2 * step`, …, as many as `count` says. -/
structure Progression where
  first : Int
  step : Int
  count : Nat
  deriving DecidableEq, Repr

namespace Progression

/-- The progression from `a` by steps of `s` up to or down to `b`, for an `s` other than zero. -/
def between (a b s : Int) : Progression := ⟨a, s, ((b - a).fdiv s + 1).toNat⟩

def toList (p : Progression) : List Int := (List.range p.count).map fun (k : Nat) => p.first + k * p.step

section Running

variable {m : Type → Type} {β : Type} [Monad m]

/-- Passes a state through `n` integers that start at `a` and are `s` apart. -/
@[specialize]
def foldFrom (f : β → Int → m β) (s : Int) : Nat → Int → β → m β
  | 0, _, b => pure b
  | n + 1, a, b => f b a >>= fun b => foldFrom f s n (a + s) b

@[inline]
def foldM (p : Progression) (f : β → Int → m β) (b : β) : m β := foldFrom f p.step p.count p.first b

/-- The test before each round of a loop that goes by steps of `s` and has come to `i`: it has not
passed `b`, whichever way it goes. -/
def goesOn (b s i : Int) : Bool := (0 < s && i ≤ b) || (s < 0 && b ≤ i)

/-- Passes a state through the integers from `i` on, by steps of `s`, until `b` is passed. -/
@[specialize]
def stepping (f : β → Int → m β) (b s i : Int) (x : β) : m β :=
  if goesOn b s i then f x i >>= fun x => stepping f b s (i + s) x else pure x
termination_by if 0 < s then (b + 1 - i).toNat else (i + 1 - b).toNat
decreasing_by
  grind [goesOn]

end Running

theorem toList_zero (a s : Int) : toList ⟨a, s, 0⟩ = [] := rfl

theorem toList_succ (a s : Int) (n : Nat) : toList ⟨a, s, n + 1⟩ = a :: toList ⟨a + s, s, n⟩ := by
  simp only [toList, List.range_succ_eq_map, List.map_cons, List.map_map]
  congr 1
  · simp
  · refine List.map_congr_left fun k _ => ?_
    simp only [Function.comp_apply, Nat.succ_eq_add_one, Int.natCast_add, Int.cast_ofNat_Int]
    rw [Int.add_mul, Int.one_mul, Int.add_assoc, Int.add_comm s]

theorem foldFrom_eq_foldlM {m : Type → Type} {β : Type} [Monad m] (f : β → Int → m β) (s : Int)
    (n : Nat) (a : Int) (b : β) : foldFrom f s n a b = (toList ⟨a, s, n⟩).foldlM f b := by
  induction n generalizing a b with
  | zero => rfl
  | succ n ih =>
    rw [toList_succ, List.foldlM_cons]
    exact congrArg (f b a >>= ·) (funext fun b => ih (a + s) b)

theorem foldM_eq_foldlM {m : Type → Type} {β : Type} [Monad m] (p : Progression) (f : β → Int → m β)
    (b : β) : p.foldM f b = p.toList.foldlM f b := foldFrom_eq_foldlM f p.step p.count p.first b

theorem fdiv_nonneg_iff {a s : Int} (nonzero : s ≠ 0) :
    0 ≤ a.fdiv s ↔ 0 < s ∧ 0 ≤ a ∨ s < 0 ∧ a ≤ 0 := by
  rcases Int.lt_or_gt_of_ne nonzero with down | up
  · have turned : 0 ≤ a.fdiv s ↔ 0 ≤ -a := by
      rw [← Int.neg_fdiv_neg, Int.fdiv_eq_ediv_of_nonneg _ (by omega), Int.ediv_nonneg_iff_of_pos (by omega)]
    omega
  · rw [Int.fdiv_eq_ediv_of_nonneg _ (by omega), Int.ediv_nonneg_iff_of_pos up]
    omega

/-- A loop that goes on has one member before those of the loop that begins a step later. -/
theorem between_of_goesOn {a b s : Int} (on : goesOn b s a = true) :
    (between a b s).toList = a :: (between (a + s) b s).toList := by
  simp only [goesOn, Bool.or_eq_true, Bool.and_eq_true, decide_eq_true_eq] at on
  have nonzero : s ≠ 0 := by omega
  have one : (b - (a + s)).fdiv s = (b - a).fdiv s - 1 := by
    rw [show b - (a + s) = b - a + -1 * s by omega, Int.add_mul_fdiv_right _ _ nonzero]
    rfl
  have nonneg : 0 ≤ (b - a).fdiv s := (fdiv_nonneg_iff nonzero).2 (by omega)
  have count : ((b - a).fdiv s + 1).toNat = ((b - (a + s)).fdiv s + 1).toNat + 1 := by omega
  rw [between, count, toList_succ]
  rfl

theorem between_of_not_goesOn {a b s : Int} (nonzero : s ≠ 0) (off : goesOn b s a = false) :
    (between a b s).toList = [] := by
  have negative : ¬ 0 ≤ (b - a).fdiv s := by
    rw [fdiv_nonneg_iff nonzero]
    grind [goesOn]
  have count : ((b - a).fdiv s + 1).toNat = 0 := by omega
  rw [between, count, toList_zero]

/-- A loop by steps runs through the progression between its bounds. -/
theorem stepping_eq_foldlM {m : Type → Type} {β : Type} [Monad m] (f : β → Int → m β) {s : Int}
    (nonzero : s ≠ 0) (a b : Int) (x : β) :
    stepping f b s a x = (between a b s).toList.foldlM f x := by
  fun_induction stepping f b s a x with
  | case1 a x on ih =>
    rw [between_of_goesOn on, List.foldlM_cons]
    exact congrArg (f x a >>= ·) (funext ih)
  | case2 a x off =>
    rw [between_of_not_goesOn nonzero (Bool.eq_false_iff.2 off)]
    rfl

@[simp]
theorem length_toList (p : Progression) : p.toList.length = p.count := by simp [toList]

end Progression
end Symbolic
