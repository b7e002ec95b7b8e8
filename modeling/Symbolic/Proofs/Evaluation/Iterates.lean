import Symbolic.Proofs.Computation
import Symbolic.Evaluate

/-!
Repeated application. `Nest[f, x, n]` and `NestList[f, x, n]` evaluate the count, the start and then `f` applied to one
value after the other, each evaluation beginning in the session that the one before left. Main statement: from
every session the two fail alike, or both leave the expression as it is, or both return, and then the list runs
from the value of the start to the value that `Nest` gives.
-/
namespace Symbolic

open Value

/-- The values that come of applying a function to a value, to the value of that, and so on, with the session before
and the session after. -/
inductive Orbit (ev : Evaluator) (c : ContextId) (f : Value) : Value → Session → List Value → Session → Prop
  | rest {x : Value} {s : Session} : Orbit ev c f x s [x] s
  | step {x e y : Value} {ys : List Value} {s t u : Session} (applied : f.apply [x] = .ok e)
    (ran : ev c e s = .ok y t) (further : Orbit ev c f y t ys u) : Orbit ev c f x s (x :: ys) u

section Iterates

variable {ev : Evaluator} {c : ContextId} {f x n : Value} {s t : Session}

theorem Orbit.head?_eq {xs : List Value} (orbit : Orbit ev c f x s xs t) : xs.head? = some x := by
  cases orbit <;> rfl

/-- Repeated application and the collection of its values run in step. Both stop at the first application that
does; otherwise they go through one orbit, of which the one gives the last value and the other all of it, the latest
first, on top of what it was given. -/
theorem applyTimes_collectTimes (k : Nat) (x : Value) (kept : List Value) (s : Session) :
    (∃ h t, Iteration.applyTimes ev c f k x s = .error h t ∧
      Iteration.collectTimes ev c f k x (x :: kept) s = .error h t) ∨
    ∃ xs r t, Orbit ev c f x s xs t ∧ xs.length = k + 1 ∧ xs.getLast? = some r ∧
      Iteration.applyTimes ev c f k x s = .ok r t ∧
      Iteration.collectTimes ev c f k x (x :: kept) s = .ok (xs.reverse ++ kept) t := by
  induction k generalizing x kept s with
  | zero => exact .inr ⟨[x], x, s, .rest, rfl, rfl, rfl, rfl⟩
  | succ k ih =>
    cases applied : f.apply [x] with
    | error e =>
      have stop : (Step.ofExcept (f.apply [x]) : Eval Value) s = .error (.failure e) s := by rw [applied]; rfl
      exact .inl ⟨.failure e, s, Step.bind_of_error stop, Step.bind_of_error stop⟩
    | ok e =>
      have made : (Step.ofExcept (f.apply [x]) : Eval Value) s = .ok e s := by rw [applied]; rfl
      unfold Iteration.applyTimes Iteration.collectTimes
      rw [Step.bind_of_ok made, Step.bind_of_ok made]
      cases ran : ev c e s with
      | error h t => exact .inl ⟨h, t, Step.bind_of_error ran, Step.bind_of_error ran⟩
      | ok y t =>
        rw [Step.bind_of_ok ran, Step.bind_of_ok ran]
        rcases ih y (x :: kept) t with stops | ⟨xs, r, u, orbit, length, last, ends, collected⟩
        · exact .inl stops
        · refine .inr ⟨x :: xs, r, u, .step applied ran orbit, by rw [List.length_cons, length], ?_, ends, ?_⟩
          · rw [List.getLast?_cons, last]
            rfl
          · rw [collected, List.reverse_cons, List.append_assoc]
            rfl

/-- A count that is no natural number leaves the expression as it is, whatever would be done. -/
theorem returns_of_unnatural {e m : Value} {go : Int → Eval Value} : (∀ k : Nat, m ≠ int k) →
    (match m with
      | .int n => if n < 0 then pure e else go n
      | _ => pure e : Eval Value) s = .ok e s := by
  intro unnatural
  split
  · next n =>
    refine congrFun (if_pos (Int.not_le.1 fun natural => ?_)) s
    exact unnatural n.toNat (by rw [Int.toNat_of_nonneg natural])
  · rfl

end Iterates

/-- Begun in the same session, `Nest` and `NestList` stop alike, for the same reason and in the same session; or the
count is no natural number and both leave their expression as it is; or both return in the same session. Then the list
has one value more than the count says: it begins with the value of the start, each further one is the value of the
function applied to the one before, and the last is what `Nest` gives. -/
theorem nest_ends_nestList (fuel : Nat) (c : ContextId) (f x n : Value) (s : Session) :
    let ev := evaluate fuel
    let last := Operation.run .nest ev fuel c (call "Nest" [f, x, n]) s
    let list := Operation.run .nestList ev fuel c (call "NestList" [f, x, n]) s
    (∃ h t, last = .error h t ∧ list = .error h t) ∨
    (∃ m t, ev c n s = .ok m t ∧ (∀ k : Nat, m ≠ int k) ∧
      last = .ok (call "Nest" [f, x, n]) t ∧ list = .ok (call "NestList" [f, x, n]) t) ∨
    ∃ (k : Nat) (v r : Value) (xs : List Value) (t u w : Session), ev c n s = .ok (int k) t ∧ ev c x t = .ok v u ∧
      Orbit ev c f v u xs w ∧ xs.length = k + 1 ∧ xs.head? = some v ∧ xs.getLast? = some r ∧
      last = .ok r w ∧ list = .ok (ofItems xs) w := by
  intro ev last list
  cases counted : ev c n s with
  | error h t => exact .inl ⟨h, t, Step.bind_of_error counted, Step.bind_of_error counted⟩
  | ok m t =>
    by_cases natural : ∃ k : Nat, m = int k
    · obtain ⟨k, rfl⟩ := natural
      -- Both evaluate the start next, and then the two loops run in step.
      have lastRuns : last = (ev c x >>= Iteration.applyTimes ev c f k) t := Step.bind_of_ok counted
      have listRuns : list = (do
          let start ← ev c x
          return ofItems (← Iteration.collectTimes ev c f k start [start]).reverse) t := Step.bind_of_ok counted
      rw [lastRuns, listRuns]
      cases started : ev c x t with
      | error h u => exact .inl ⟨h, u, Step.bind_of_error started, Step.bind_of_error started⟩
      | ok v u =>
        rw [Step.bind_of_ok started, Step.bind_of_ok started]
        rcases applyTimes_collectTimes k v [] u with ⟨h, w, stops, halts⟩ | ⟨xs, r, w, orbit, length, ends, ran, collected⟩
        · exact .inl ⟨h, w, stops, Step.bind_of_error halts⟩
        · rw [List.append_nil] at collected
          rw [Step.bind_of_ok collected, List.reverse_reverse]
          exact .inr (.inr ⟨k, v, r, xs, t, u, w, rfl, started, orbit, length, orbit.head?_eq, ends, ran, rfl⟩)
    · have unnatural : ∀ k : Nat, m ≠ int k := fun k same => natural ⟨k, same⟩
      exact .inr (.inl ⟨m, t, rfl, unnatural, (Step.bind_of_ok counted).trans (returns_of_unnatural unnatural),
        (Step.bind_of_ok counted).trans (returns_of_unnatural unnatural)⟩)

end Symbolic
