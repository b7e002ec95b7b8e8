import Mathlib.Data.List.Forall2
import Symbolic.Pattern.Matching

/-!
What a computation that came to a result has done. A result of a sequence of steps comes
from a result of each of them; a search that found something found it in one of its
choices.
-/
namespace Symbolic

theorem Except.bind_ok {ε α β : Type} {x : Except ε α} {f : α → Except ε β} {b : β}
    (run : (x >>= f) = .ok b) : ∃ a, x = .ok a ∧ f a = .ok b := by
  cases x with
  | error e => cases run
  | ok a => exact ⟨a, rfl, run⟩

theorem Except.bind_error {ε α β : Type} {x : Except ε α} {f : α → Except ε β} {e : ε}
    (run : (x >>= f) = .error e) : x = .error e ∨ ∃ a, x = .ok a ∧ f a = .error e := by
  cases x with
  | error d =>
    cases run
    exact .inl rfl
  | ok a => exact .inr ⟨a, rfl, run⟩

/-- A function that can fail has a result on a list only if it has one on each item. -/
theorem Except.mapM_ok {ε α β : Type} {f : α → Except ε β} {xs : List α} {ys : List β}
    (run : xs.mapM f = .ok ys) : List.Forall₂ (fun x y => f x = .ok y) xs ys := by
  induction xs generalizing ys with
  | nil =>
    cases run
    exact .nil
  | cons x xs ih =>
    rw [List.mapM_cons] at run
    obtain ⟨y, here, run⟩ := Except.bind_ok run
    obtain ⟨rest, there, run⟩ := Except.bind_ok run
    cases run
    exact .cons here (ih there)

theorem forall_mem_pair {α : Type} {P : α → Prop} {a b : α} : (∀ x ∈ [a, b], P x) ↔ P a ∧ P b := by
  rw [List.forall_mem_cons, List.forall_mem_singleton]

theorem exists_of_forall₂ {α β : Type} {R : α → β → Prop} {xs : List α} {ys : List β}
    (related : List.Forall₂ R xs ys) {y : β} (member : y ∈ ys) : ∃ x ∈ xs, R x y := by
  induction related with
  | nil => cases member
  | @cons x z xs ys here _ ih =>
    rcases List.mem_cons.1 member with rfl | later
    · exact ⟨x, by simp, here⟩
    · obtain ⟨w, inside, there⟩ := ih later
      exact ⟨w, by simp [inside], there⟩

namespace Step

variable {σ α β : Type} {s t : σ}

theorem bind_ok {x : Step σ α} {f : α → Step σ β} {b : β} (run : (x >>= f) s = .ok b t) :
    ∃ a u, x s = .ok a u ∧ f a u = .ok b t := by
  simp only [bind, EStateM.bind] at run
  split at run
  · next a u first => exact ⟨a, u, first, run⟩
  · cases run

theorem bind_of_ok {x : Step σ α} {f : α → Step σ β} {a : α} {u : σ} (first : x s = .ok a u) :
    (x >>= f) s = f a u := by
  simp only [bind, EStateM.bind, first]

theorem bind_get {f : σ → Step σ β} : (get >>= f) s = f s s :=
  rfl

theorem bind_of_error {x : Step σ α} {f : α → Step σ β} {h : Halt} {u : σ} (first : x s = .error h u) :
    (x >>= f) s = .error h u := by
  simp only [bind, EStateM.bind, first]

theorem bind_of_same {x y : Step σ α} {f : α → Step σ β} (same : x s = y s) : (x >>= f) s = (y >>= f) s := by
  simp only [bind, EStateM.bind, same]

@[simp] theorem pure_ok {a b : α} : (pure a : Step σ α) s = .ok b t ↔ a = b ∧ s = t := by
  change EStateM.Result.ok a s = .ok b t ↔ _
  simp

@[simp] theorem ofExcept_ok {x : Except Error α} {a : α} :
    (ofExcept x : Step σ α) s = .ok a t ↔ x = .ok a ∧ s = t := by
  cases x with
  | error e =>
    constructor
    · intro run; cases run
    · rintro ⟨impossible, _⟩; cases impossible
  | ok b =>
    change (pure b : Step σ α) s = .ok a t ↔ _
    rw [pure_ok, Except.ok.injEq]

/-- Whether a run came to a result that passes a test. -/
def returns {ε : Type} (test : α → Bool) : EStateM.Result ε σ α → Bool
  | .ok a _ => test a
  | .error .. => false

theorem returns_iff {ε : Type} {test : α → Bool} {result : EStateM.Result ε σ α} :
    returns test result = true ↔ ∃ a s, result = .ok a s ∧ test a = true := by
  cases result <;> simp [returns]

/-- Whether a run came to a result and a state that pass a test. -/
def checks {ε : Type} (test : α → σ → Bool) : EStateM.Result ε σ α → Bool
  | .ok a s => test a s
  | .error .. => false

theorem checks_iff {ε : Type} {test : α → σ → Bool} {result : EStateM.Result ε σ α} :
    checks test result = true ↔ ∃ a s, result = .ok a s ∧ test a s = true := by
  cases result <;> simp [checks]

section Yields

variable {Q R : α → Prop} {x : Step σ α}

/-- Every result that a computation comes to has a property. -/
def Yields (Q : α → Prop) (x : Step σ α) : Prop := ∀ s a t, x s = .ok a t → Q a

theorem Yields.pure {a : α} (holds : Q a) : (pure a : Step σ α).Yields Q := by
  intro s b t run
  obtain ⟨rfl, _⟩ := pure_ok.1 run
  exact holds

theorem Yields.ofExcept {r : Except Error α} (holds : ∀ a, r = .ok a → Q a) : (ofExcept r : Step σ α).Yields Q :=
  fun _ a _ run => holds a (ofExcept_ok.1 run).1

theorem Yields.bind {f : α → Step σ β} {R : β → Prop} (first : x.Yields Q) (next : ∀ a, Q a → (f a).Yields R) :
    (x >>= f).Yields R := by
  intro s b t run
  obtain ⟨a, u, here, there⟩ := bind_ok run
  exact next a (first s a u here) u b t there

theorem Yields.bind_congr {f g : α → Step σ β} (first : x.Yields Q) (same : ∀ a, Q a → f a = g a) :
    x >>= f = x >>= g := by
  funext s
  cases run : x s with
  | ok a t => rw [bind_of_ok run, bind_of_ok run, same a (first s a t run)]
  | error h t => rw [bind_of_error run, bind_of_error run]

theorem Yields.mono (yields : x.Yields Q) (implies : ∀ a, Q a → R a) : x.Yields R :=
  fun s a t run => implies a (yields s a t run)

theorem Yields.option {Q : Option α → Prop} {R : β → Prop} {x : Step σ (Option α)} {f : Option α → Step σ β}
    (first : x.Yields Q) (absent : (f none).Yields R) (found : ∀ a, Q (some a) → (f (some a)).Yields R) :
    (x >>= f).Yields R := by
  refine .bind first fun r holds => ?_
  cases r with
  | none => exact absent
  | some a => exact found a holds

theorem Yields.any (x : Step σ α) : x.Yields fun _ => True := fun _ _ _ _ => trivial

end Yields

end Step

namespace Pattern

variable {σ α β : Type} {s t : σ}

theorem collect_found {all : Bool} {f : α → Step σ (List β)} {xs : List α} {found : List β}
    (run : collect all f xs s = .ok found t) {r : β} (member : r ∈ found) :
    ∃ x ∈ xs, ∃ u v part, f x u = .ok part v ∧ r ∈ part := by
  induction xs generalizing s t found with
  | nil =>
    obtain ⟨rfl, _⟩ := Step.pure_ok.1 run
    cases member
  | cons x xs ih =>
    obtain ⟨first, u, here, rest⟩ := Step.bind_ok run
    by_cases enough : (!all && !first.isEmpty) = true
    · rw [if_pos enough] at rest
      obtain ⟨rfl, _⟩ := Step.pure_ok.1 rest
      exact ⟨x, List.mem_cons_self .., s, u, first, here, member⟩
    · rw [if_neg enough] at rest
      obtain ⟨later, v, there, joined⟩ := Step.bind_ok rest
      obtain ⟨rfl, _⟩ := Step.pure_ok.1 joined
      rcases List.mem_append.1 member with old | new
      · exact ⟨x, List.mem_cons_self .., s, u, first, here, old⟩
      · obtain ⟨y, inside, rest⟩ := ih there new
        exact ⟨y, List.mem_cons_of_mem x inside, rest⟩

theorem firstOf_found {f : α → Step σ (Option β)} {xs : List α} {r : β}
    (run : firstOf f xs s = .ok (some r) t) : ∃ x ∈ xs, ∃ u v, f x u = .ok (some r) v := by
  induction xs generalizing s with
  | nil => simp [firstOf] at run
  | cons x xs ih =>
    obtain ⟨result, u, here, rest⟩ := Step.bind_ok run
    cases result with
    | some q =>
      obtain ⟨same, _⟩ := Step.pure_ok.1 rest
      exact ⟨x, List.mem_cons_self .., s, u, same ▸ here⟩
    | none =>
      obtain ⟨y, inside, found⟩ := ih rest
      exact ⟨y, List.mem_cons_of_mem x inside, found⟩

end Pattern
end Symbolic
