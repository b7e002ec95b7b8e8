import Mathlib.Data.Rat.Floor
import Symbolic.Proofs.Evaluation.Abreast
import Symbolic.Proofs.Evaluation.Calls

/-!
Iteration over arithmetic progressions. A loop from `a` by steps of `d` tests before each round whether it has passed
`b`, whichever way the steps go, and so runs through a progression. Main statement: tables, loops, sums and products over such an iterator
evaluate the body once for each member, in order, every evaluation beginning in the session that the one before
left; a table gives the list of the values, and a sum or product of integers is exact.
-/
namespace Symbolic

open Value Session

namespace Progression

variable {a b d : Int}

theorem fdiv_eq_floor (n d : Int) : n.fdiv d = ⌊(n : ℚ) / d⌋ := by
  obtain ⟨k, rfl | rfl⟩ := d.eq_nat_or_neg
  · rw [Int.fdiv_eq_ediv_of_nonneg n (Int.natCast_nonneg k), Int.cast_natCast, Rat.floor_intCast_div_natCast]
  · rw [← Int.neg_fdiv_neg, neg_neg, Int.fdiv_eq_ediv_of_nonneg _ (Int.natCast_nonneg k), Int.cast_neg, div_neg,
      ← neg_div, ← Int.cast_neg, Int.cast_natCast, Rat.floor_intCast_div_natCast]

theorem count_between : (between a b d).count = (⌊((b - a : Int) : ℚ) / d⌋ + 1).toNat := by
  rw [← fdiv_eq_floor]
  rfl

/-- The test of a loop passes in as many rounds as its progression has members. -/
theorem goesOn_iff (nonzero : d ≠ 0) (k : Nat) : goesOn b d (a + k * d) = true ↔ k < (between a b d).count := by
  have counted : k < (between a b d).count ↔ (k : Int) ≤ ⌊((b - a : Int) : ℚ) / d⌋ := by
    rw [count_between]
    omega
  rw [counted, Int.le_floor]
  -- Multiplying by a step turns the comparison round if the step goes down.
  rcases Int.lt_or_gt_of_ne nonzero with down | up
  · have below : (d : ℚ) < 0 := by exact_mod_cast down
    rw [le_div_iff_of_neg below, ← Int.cast_natCast k, ← Int.cast_mul, Int.cast_le]
    grind [goesOn]
  · have above : (0 : ℚ) < d := by exact_mod_cast up
    rw [le_div_iff₀ above, ← Int.cast_natCast k, ← Int.cast_mul, Int.cast_le]
    grind [goesOn]

end Progression

namespace Iteration

variable {ev : Evaluator} {c : ContextId} {body var : Value}

theorem evaluateEach_eq (d : Domain) : evaluateEach ev c body var d = d.toList.mapM (evaluateAt ev c body var) := by
  rw [evaluateEach, Domain.foldM_eq_foldlM, List.mapM_eq_reverse_foldlM_cons, map_eq_pure_bind]
  simp only [map_eq_pure_bind]

/-- A loop that keeps no results does what one does that keeps them. -/
theorem visitEach_eq (d : Domain) :
    visitEach ev c body var d = d.toList.mapM (evaluateAt ev c body var) >>= fun _ => pure () := by
  rw [visitEach, Domain.foldM_eq_foldlM]
  induction d.toList with
  | nil => rfl
  | cons x xs ih =>
    rw [List.foldlM_cons, List.mapM_cons, bind_assoc, bind_assoc]
    simp only [pure_bind, bind_assoc, ih]

/-- What comes to a value in a row of computations comes to an integer, in the session in which its turn comes. -/
def Whole {α : Type} (f : α → Eval Value) : List α → Session → Prop
  | [], _ => True
  | x :: xs, s => ∀ v t, f x s = .ok v t → (∃ n, v = int n) ∧ Whole f xs t

theorem whole_of_mapM {α : Type} {f : α → Eval Value} {xs : List α} {ns : List Int} {s t : Session}
    (run : xs.mapM f s = .ok (ns.map int) t) : Whole f xs s := by
  induction xs generalizing ns s with
  | nil => trivial
  | cons x xs ih =>
    rw [List.mapM_cons] at run
    obtain ⟨v, u, first, rest⟩ := Step.bind_ok run
    obtain ⟨vs, w, later, same⟩ := Step.bind_ok rest
    obtain ⟨listed, rfl⟩ := Step.pure_ok.1 same
    obtain ⟨n, ms, rfl, rfl, rfl⟩ := List.map_eq_cons_iff.1 listed.symm
    intro v' t' ran
    obtain ⟨rfl, rfl⟩ := EStateM.Result.ok.inj (first.symm.trans ran)
    exact ⟨⟨n, rfl⟩, ih later⟩

/-- Integers are accumulated as integers, and what stops their computation stops the accumulation. -/
theorem foldlM_whole {α : Type} {f : α → Eval Value} {join : Value → Value → Except Error Value} {g : Int → Int → Int}
    (each : ∀ m n, join (int m) (int n) = .ok (int (g m n))) {xs : List α} {s : Session} (whole : Whole f xs s)
    (k : Int) :
    (xs.foldlM (fun acc x => do Step.ofExcept (join acc (← f x))) (int k) : Eval Value) s =
      ((fun vs => int ((integers vs).foldl g k)) <$> xs.mapM f) s := by
  rw [map_eq_pure_bind]
  induction xs generalizing k s with
  | nil => rfl
  | cons x xs ih =>
    rw [List.foldlM_cons, List.mapM_cons, bind_assoc, bind_assoc]
    refine Step.bind_congr rfl fun v t ran => ?_
    obtain ⟨⟨n, rfl⟩, later⟩ := whole v t ran
    rw [each, bind_assoc]
    simp only [pure_bind]
    exact ih later (g k n)

end Iteration

/-! ### Sums and products -/

namespace RingOp

def iterated : RingOp → String
  | .plus => "Sum"
  | .times => "Product"

def accumulation : RingOp → Operation
  | .plus => .sum
  | .times => .product

def join : RingOp → Value → Value → Except Error Value
  | .plus => Arithmetic.accumulateSum
  | .times => Arithmetic.accumulateProduct

theorem run_accumulation (op : RingOp) (ev : Evaluator) (fuel : Nat) (c : ContextId) (e : Value) :
    op.accumulation.run ev fuel c e = Iteration.accumulate op.iterated (int op.unit) op.join ev c e e.args := by
  cases op <;> rfl

theorem join_ints (op : RingOp) (m n : Int) : op.join (int m) (int n) = .ok (int (op.total [m, n])) := by
  cases op with
  | plus => simp [join, Arithmetic.accumulateSum, number?, Arithmetic.lift, total]
  | times => simp [join, Arithmetic.accumulateProduct, number?, Arithmetic.lift, total]

theorem foldl_total (op : RingOp) (ns : List Int) : ns.foldl (fun m n => op.total [m, n]) op.unit = op.total ns := by
  cases op with
  | plus => simp [total, unit, List.sum_eq_foldl]
  | times => simp [total, unit, List.prod_eq_foldl]

end RingOp

theorem accumulateEach_whole (op : RingOp) {ev : Evaluator} {c : ContextId} {body var : Value} {d : Iteration.Integers}
    {s : Session} (whole : Iteration.Whole (fun x => Iteration.evaluateAt ev c body var (int x)) d.progression.toList s) :
    Iteration.accumulateEach ev c op.join body var (int op.unit) d s =
      ((fun vs => int (op.total (integers vs))) <$> d.progression.toList.mapM fun x =>
        Iteration.evaluateAt ev c body var (int x)) s := by
  rw [Iteration.accumulateEach, Iteration.Integers.foldM_eq_foldlM, Iteration.foldlM_whole op.join_ints whole]
  simp only [op.foldl_total]

/-! ### Iterators between integers -/

theorem Session.exited_entered_exited (s : Session) : s.entered.exited.entered.exited = s.entered.exited := by
  by_cases outer : s.depth = 0
  · simp only [entered, exited, outer, Nat.zero_add, Nat.sub_self, if_true]
  · exact congrArg (exited ∘ entered) (exited_entered (Nat.pos_of_ne_zero outer))

theorem evaluate_exceeded {c : ContextId} {s : Session} (full : ¬ (s.depth + 1 : Int) ≤ s.recursionLimit) (fuel : Nat)
    (v : Value) :
    evaluate (fuel + 1) c v s =
      .error (.failure (.recursionLimit s.recursionLimit)) { s.entered with depth := s.depth } := by
  rw [evaluate, deeper_eq, if_pos (by omega)]

namespace Iteration

variable {c : ContextId} {s : Session} {fuel : Nat} {a b d : Int} {body var e : Value}

theorem evaluate_ints {α : Type} (room : (s.depth + 1 : Int) ≤ s.recursionLimit) (k : Value → Value → Value → Eval α) :
    (do
      let x ← evaluate (fuel + 1) c (int a)
      let y ← evaluate (fuel + 1) c (int b)
      let z ← evaluate (fuel + 1) c (int d)
      k x y z : Eval α) s = k (int a) (int b) (int d) s.entered.exited := by
  have later (n : Int) : evaluate (fuel + 1) c (int n) s.entered.exited = .ok (int n) s.entered.exited :=
    (evaluate_atom (s := s.entered.exited) rfl room fuel).trans (congrArg (EStateM.Result.ok _) s.exited_entered_exited)
  rw [Step.bind_of_ok (evaluate_atom rfl room fuel), Step.bind_of_ok (later b), Step.bind_of_ok (later d)]

theorem loopValues_ints (room : (s.depth + 1 : Int) ≤ s.recursionLimit) (nonzero : d ≠ 0) :
    loopValues (evaluate (fuel + 1)) c [int a, int b, int d] s =
      .ok (.integers (.steps a b d nonzero)) s.entered.exited := by
  rw [loopValues, evaluate_ints room]
  simp only [dif_pos nonzero]
  rfl

theorem accumulationValues_ints (room : (s.depth + 1 : Int) ≤ s.recursionLimit) (nonzero : d ≠ 0) :
    accumulationValues (evaluate (fuel + 1)) c [int a, int b, int d] s =
      .ok (some (.steps a b d nonzero)) s.entered.exited := by
  rw [accumulationValues, evaluate_ints room]
  simp only [dif_pos nonzero]
  rfl

variable (room : (s.depth + 1 : Int) ≤ s.recursionLimit) (nonzero : d ≠ 0)

include room nonzero

theorem table_ints :
    table (evaluate (fuel + 1)) c e [body, ofItems [var, int a, int b, int d]] s =
      (ofItems <$> (Progression.between a b d).toList.mapM fun x =>
        evaluateAt (evaluate (fuel + 1)) c body var (int x)) s.entered.exited := by
  have spec : iterator? (ofItems [var, int a, int b, int d]) = some (var, [int a, int b, int d]) := rfl
  simp only [table, spec]
  rw [Step.bind_of_ok (loopValues_ints room nonzero), evaluateEach_eq, Domain.toList, List.mapM_map, map_eq_pure_bind]
  rfl

theorem loop_ints :
    loop (evaluate (fuel + 1)) c e [body, ofItems [var, int a, int b, int d]] s =
      ((fun _ => nothing) <$> (Progression.between a b d).toList.mapM fun x =>
        evaluateAt (evaluate (fuel + 1)) c body var (int x)) s.entered.exited := by
  have spec : iterator? (ofItems [var, int a, int b, int d]) = some (var, [int a, int b, int d]) := rfl
  simp only [loop, spec]
  rw [Step.bind_of_ok (loopValues_ints room nonzero), visitEach_eq, Domain.toList, List.mapM_map, map_eq_pure_bind,
    bind_assoc]
  rfl

theorem accumulate_ints {name : String} {start : Value} {join : Value → Value → Except Error Value} :
    accumulate name start join (evaluate (fuel + 1)) c e [body, ofItems [var, int a, int b, int d]] s =
      accumulateEach (evaluate (fuel + 1)) c join body var start (.steps a b d nonzero) s.entered.exited := by
  have spec : iterator? (ofItems [var, int a, int b, int d]) = some (var, [int a, int b, int d]) := rfl
  simp only [accumulate, accumulateOver, spec]
  rw [Step.bind_of_ok (accumulationValues_ints room nonzero)]

end Iteration

/-- Iterators visit exactly an arithmetic progression. From `a` by steps of `d`, up or down, there are as many members
as whole steps fit between `a` and `b`, and one: those before which the loop finds that it has not passed `b`. A table
evaluates the body with each member in place of the variable, in order, each time in the session that the evaluation
before left, and lists the values; a loop does the same and gives `Null`, and what stops one of the evaluations stops
both there. If what they come to are integers, a sum and a product do the same as well and give the exact sum and
product. Where there is no room for an evaluation, the bounds of the iterator cannot be evaluated and nothing is
visited. -/
theorem iterators_visit_progression {d : Int} (nonzero : d ≠ 0) (a b : Int) (body var : Value) (fuel : Nat)
    (c : ContextId) (s : Session) :
    let members := (List.range (⌊((b - a : Int) : ℚ) / d⌋ + 1).toNat).map fun k : Nat => a + k * d
    let visit (x : Int) := Iteration.evaluateAt (evaluate (fuel + 1)) c body var (int x)
    let run (op : Operation) (name : String) :=
      op.run (evaluate (fuel + 1)) fuel c (call name [body, ofItems [var, int a, int b, int d]]) s
    (members.length : Int) = max 0 (⌊((b - a : Int) : ℚ) / d⌋ + 1) ∧
    (∀ k : Nat, Progression.goesOn b d (a + k * d) = true ↔ k < members.length) ∧
    ((s.depth + 1 : Int) ≤ s.recursionLimit →
      run .table "Table" = (ofItems <$> members.mapM visit) s.entered.exited ∧
      run .doLoop "Do" = ((fun _ => nothing) <$> members.mapM visit) s.entered.exited ∧
      (Iteration.Whole visit members s.entered.exited →
        run .sum "Sum" = ((fun vs => int (integers vs).sum) <$> members.mapM visit) s.entered.exited ∧
        run .product "Product" = ((fun vs => int (integers vs).prod) <$> members.mapM visit) s.entered.exited)) ∧
    (¬ (s.depth + 1 : Int) ≤ s.recursionLimit →
      ∀ o ∈ [run .table "Table", run .doLoop "Do", run .sum "Sum", run .product "Product"],
        o = .error (.failure (.recursionLimit s.recursionLimit)) { s.entered with depth := s.depth }) := by
  intro members visit run
  have all : (Progression.between a b d).toList = members := by
    rw [Progression.toList, Progression.count_between]
    rfl
  have length : members.length = (Progression.between a b d).count := by
    rw [← all, Progression.length_toList]
  refine ⟨?_, fun k => ?_, fun room => ⟨?_, ?_, fun whole => ⟨?_, ?_⟩⟩, fun full o member => ?_⟩
  · rw [length, Progression.count_between]
    omega
  · rw [length]
    exact Progression.goesOn_iff nonzero k
  · rw [← all]
    exact Iteration.table_ints (e := call "Table" [body, ofItems [var, int a, int b, int d]]) room nonzero
  · rw [← all]
    exact Iteration.loop_ints (e := call "Do" [body, ofItems [var, int a, int b, int d]]) room nonzero
  · rw [← all] at whole ⊢
    exact (Iteration.accumulate_ints room nonzero).trans (accumulateEach_whole .plus whole)
  · rw [← all] at whole ⊢
    exact (Iteration.accumulate_ints room nonzero).trans (accumulateEach_whole .times whole)
  · simp only [List.mem_cons, List.not_mem_nil, or_false] at member
    have stopped := evaluate_exceeded (c := c) full fuel (int a)
    rcases member with rfl | rfl | rfl | rfl
    all_goals exact Step.bind_of_error (Step.bind_of_error stopped)

/-- Down from 7 by threes: the last member above 0 is 1. The body assigns on the way. -/
theorem iterators_visit_downwards :
    let body := call "CompoundExpression" [call "Set" [sym "last", sym "i"], call "Power" [sym "i", int 2]]
    let run (op : Operation) (name : String) :=
      op.run (evaluate 12) 11 globalId (call name [body, ofItems [sym "i", int 7, int 0, int (-3)]]) Session.initial
    (-3 : Int) ≠ 0 ∧ (Session.initial.depth + 1 : Int) ≤ Session.initial.recursionLimit ∧
    ∃ t, run .table "Table" = .ok (ofItems [int 49, int 16, int 1]) t ∧ run .doLoop "Do" = .ok nothing t ∧
      run .sum "Sum" = .ok (int 66) t ∧ run .product "Product" = .ok (int 784) t := by
  intro body run
  have room : (Session.initial.depth + 1 : Int) ≤ Session.initial.recursionLimit := by decide
  obtain ⟨-, -, visits, -⟩ := iterators_visit_progression (d := -3) (by decide) 7 0 body (sym "i") 11 globalId
    Session.initial
  have members : ((List.range (⌊((0 - 7 : Int) : ℚ) / (-3 : Int)⌋ + 1).toNat).map fun k : Nat => (7 : Int) + k * -3) =
      [7, 4, 1] := by
    decide +kernel
  simp only [members] at visits
  obtain ⟨table, loop, totals⟩ := visits room
  have visited : Step.returns (fun vs => vs.map int? == [some 49, some 16, some 1])
      (([7, 4, 1] : List Int).mapM (fun x => Iteration.evaluateAt (evaluate 12) globalId body (sym "i") (int x))
        Session.initial.entered.exited) = true := by
    decide +kernel
  obtain ⟨vs, t, came, numbers⟩ := Step.returns_iff.1 visited
  obtain rfl : vs = [49, 16, 1].map int := by
    simpa [List.map_eq_cons_iff, int?_eq_some] using numbers
  obtain ⟨sum, product⟩ := totals (Iteration.whole_of_mapM came)
  have each (f : List Value → Value) : (f <$> ([7, 4, 1] : List Int).mapM fun x =>
      Iteration.evaluateAt (evaluate 12) globalId body (sym "i") (int x)) Session.initial.entered.exited =
        .ok (f ([49, 16, 1].map int)) t := by
    rw [map_eq_pure_bind, Step.bind_of_ok came]
    rfl
  exact ⟨by decide, room, t, table.trans (each _), loop.trans (each _), sum.trans (each _), product.trans (each _)⟩

end Symbolic
