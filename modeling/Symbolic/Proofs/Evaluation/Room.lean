import Symbolic.Proofs.Evaluation.Compositional
import Symbolic.Proofs.Evaluation.Steps

/-!
Runs that come to something. A run ends with a result or with a failure, unless it is cut
off: for want of fuel, or at a limit. What a run that is not cut off comes to is reasoned about
with rules for each way of putting computations together. Main statement: evaluation that is not
cut off comes to the same with more room, that is, further up and with fewer replacements
counted before it.
-/
namespace Symbolic

open Value Session

namespace Step

variable {σ α β : Type} {s t : σ} {P Q : Except Error α → σ → Prop}

/-- What a run comes to, if it is not cut off. -/
def verdict? : EStateM.Result Halt σ α → Option (Except Error α)
  | .ok a _ => some (.ok a)
  | .error (.failure e) _ => if e.isLimit then none else some (.error e)
  | .error .outOfFuel _ => none

/-- The run that comes to this and ends in a state. -/
def ended (s : σ) : Except Error α → EStateM.Result Halt σ α
  | .ok a => .ok a s
  | .error e => .error (.failure e) s

@[simp] theorem final_ended (s : σ) (o : Except Error α) : final (ended s o) = s := by
  cases o <;> rfl

theorem eq_ended {r : EStateM.Result Halt σ α} {o : Except Error α} (come : verdict? r = some o) :
    r = ended (final r) o := by
  rcases r with ⟨a, t⟩ | ⟨e | _, t⟩
  · cases come
    rfl
  · simp only [verdict?] at come
    split at come
    · cases come
    · cases come
      rfl
  · cases come

theorem verdict_ended {r : EStateM.Result Halt σ α} {o : Except Error α} (come : verdict? r = some o) (s : σ) :
    verdict? (ended s o) = some o := by
  rw [eq_ended come] at come
  cases o <;> exact come

/-- Unless it is cut off, what a run comes to and the state it ends in have a property. -/
def Reaches (r : EStateM.Result Halt σ α) (P : Except Error α → σ → Prop) : Prop :=
  ∀ o, verdict? r = some o → P o (final r)

@[simp] theorem reaches_ok {a : α} : Reaches (.ok a s) P ↔ P (.ok a) s := by
  simp [Reaches, verdict?, final]

@[simp] theorem reaches_failure {e : Error} :
    Reaches (.error (.failure e) s) P ↔ (e.isLimit = false → P (.error e) s) := by
  cases limit : e.isLimit <;> simp [Reaches, verdict?, final, limit]

@[simp] theorem reaches_outOfFuel : Reaches (.error .outOfFuel s) P := by
  simp [Reaches, verdict?]

@[simp] theorem reaches_ending {f : σ → σ} {r : EStateM.Result Halt σ α} :
    Reaches (ending f r) P ↔ Reaches r fun o t => P o (f t) := by
  rcases r with _ | _ | _ <;> simp [ending]

theorem Reaches.mono {r : EStateM.Result Halt σ α} (reaches : Reaches r P) (weaker : ∀ o t, P o t → Q o t) :
    Reaches r Q :=
  fun o come => weaker o _ (reaches o come)

theorem Reaches.bind {m : Step σ α} {k : α → Step σ β} {R : Except Error β → σ → Prop} (first : Reaches (m s) P)
    (next : ∀ a t, P (.ok a) t → Reaches (k a t) R) (fails : ∀ e t, P (.error e) t → R (.error e) t) :
    Reaches ((m >>= k) s) R := by
  cases ran : m s with
  | ok a t =>
    rw [ran, reaches_ok] at first
    rw [bind_of_ok ran]
    exact next a t first
  | error h t =>
    rw [ran] at first
    rw [bind_of_error ran]
    cases h with
    | outOfFuel => exact reaches_outOfFuel
    | failure e => exact reaches_failure.2 fun unlimited => fails e t (reaches_failure.1 first unlimited)

theorem Reaches.ofExcept {x : Except Error α} (holds : P x s) : Reaches ((Step.ofExcept x : Step σ α) s) P := by
  cases x with
  | ok a => exact reaches_ok.2 holds
  | error e => exact reaches_failure.2 fun _ => holds

end Step

section Entering

open Step

variable {α : Type} {s : Session}

theorem Step.Reaches.deeper {m : Eval α} {P : Except Error α → Session → Prop}
    (nested : Reaches (m s.entered) fun o t => P o t.exited) : Reaches (deeper m s) P := by
  rw [deeper_eq]
  split
  · exact reaches_failure.2 fun unlimited => by cases unlimited
  · exact reaches_ending.2 nested

theorem Step.Reaches.count {P : Except Error Unit → Session → Prop} (holds : P (.ok ()) s.counted) :
    Reaches (countReplacement s) P := by
  rw [countReplacement_eq]
  split
  · exact reaches_failure.2 fun unlimited => by cases unlimited
  · exact reaches_ok.2 holds

end Entering

namespace Session

/-- The same session further up, or with fewer replacements counted, or both. -/
def Roomier (t s : Session) : Prop := ∃ d ≤ s.depth, ∃ i ≤ s.iterations, t = s.recount d i

variable {s t : Session}

theorem Roomier.refl (s : Session) : Roomier s s := ⟨s.depth, Nat.le_refl _, s.iterations, Nat.le_refl _, rfl⟩

theorem Roomier.pushed (roomier : Roomier t s) (c : ContextId) : Roomier (t.pushed c) (s.pushed c) := by
  obtain ⟨d, higher, i, fewer, rfl⟩ := roomier
  exact ⟨d, higher, i, fewer, rfl⟩

theorem Roomier.entered (roomier : Roomier t s) : Roomier t.entered s.entered := by
  obtain ⟨d, higher, i, fewer, rfl⟩ := roomier
  refine ⟨d + 1, Nat.succ_le_succ higher, if d = 0 then 0 else i, ?_, rfl⟩
  simp only [Session.entered]
  split <;> split <;> omega

theorem Roomier.exited (roomier : Roomier t s) : Roomier t.exited s.exited := by
  obtain ⟨d, higher, i, fewer, rfl⟩ := roomier
  exact ⟨d - 1, Nat.sub_le_sub_right higher 1, i, fewer, rfl⟩

theorem Roomier.popped (roomier : Roomier t s) : Roomier t.popped s.popped := by
  obtain ⟨d, higher, i, fewer, rfl⟩ := roomier
  exact ⟨d, higher, i, fewer, rfl⟩

theorem Roomier.within (roomier : Roomier t s) (room : ¬ (s.depth + 1 : Int) > s.recursionLimit) :
    ¬ (t.depth + 1 : Int) > t.recursionLimit := by
  obtain ⟨d, higher, i, fewer, rfl⟩ := roomier
  simp only [Session.recount]
  omega

theorem Roomier.below (roomier : Roomier t s) (inner : 0 < s.depth) : Roomier t s.entered := by
  obtain ⟨d, higher, i, fewer, rfl⟩ := roomier
  have counted : s.entered.iterations = s.iterations := if_neg (Nat.pos_iff_ne_zero.1 inner)
  exact ⟨d, Nat.le_succ_of_le higher, i, counted ▸ fewer, rfl⟩

theorem Plain.recount {α : Type} {f : Session → α × Session} (plain : Plain f) (s : Session) (d i : Nat) :
    f (s.recount d i) = ((f s).1, (f s).2.recount d i) := by
  have step := plain.framed s (s.recount d i).frame
  have same := plain.frame s
  simp only [Session.frame, Frame.mk.injEq] at same
  obtain ⟨-, -, recursion, iteration, stack⟩ := same
  have after : (f s).2.withFrame (s.recount d i).frame = (f s).2.recount d i := by
    simp only [withFrame, Session.recount, Session.frame, ← recursion, ← iteration, ← stack]
  rw [← after]
  exact step

end Session

/-- A computation that comes to the same with more room. -/
def Eases {α : Type} (m : Eval α) : Prop :=
  ∀ s t, Roomier t s → Step.Reaches (m s) fun o u => ∃ w, Roomier w u ∧ m t = Step.ended w o

section Easing

variable {α β : Type}

theorem Eases.stop (h : Halt) : Eases (throw h : Eval α) := by
  intro s t roomier
  cases h with
  | outOfFuel => exact Step.reaches_outOfFuel
  | failure e => exact Step.reaches_failure.2 fun _ => ⟨t, roomier, rfl⟩

theorem Eases.bind {m : Eval α} {k : α → Eval β} (first : Eases m) (next : ∀ a, Eases (k a)) : Eases (m >>= k) := by
  intro s t roomier
  refine (first s t roomier).bind ?_ ?_
  · rintro a u ⟨w, roomy, ran⟩
    rw [Step.bind_of_ok ran]
    exact next a u w roomy
  · rintro e u ⟨w, roomy, ran⟩
    exact ⟨w, roomy, Step.bind_of_error ran⟩

theorem countReplacement_eases : Eases countReplacement := by
  rintro s _ ⟨d, higher, i, fewer, rfl⟩
  rw [countReplacement_eq]
  split
  · exact Step.reaches_failure.2 fun unlimited => by cases unlimited
  · next admitted =>
    refine Step.reaches_ok.2 ⟨s.counted.recount d (i + 1), ⟨d, higher, i + 1, Nat.succ_le_succ fewer, rfl⟩, ?_⟩
    refine (countReplacement_eq _).trans (if_neg ?_)
    simp only [Session.recount]
    omega

theorem Eases.inside {m : Eval α} (c : ContextId) (run : Eases m) : Eases (Scope.inside c m) := by
  intro s t roomier
  rw [inside_eq, Step.reaches_ending]
  refine (run _ _ (roomier.pushed c)).mono ?_
  rintro o u ⟨w, roomy, ran⟩
  refine ⟨w.popped, roomy.popped, ?_⟩
  rw [inside_eq, ran]
  cases o <;> rfl

theorem Eases.deeper {m : Eval α} (run : Eases m) : Eases (deeper m) := by
  intro s t roomier
  by_cases exceeded : (s.depth + 1 : Int) > s.recursionLimit
  · rw [deeper_eq, if_pos exceeded]
    exact Step.reaches_failure.2 fun unlimited => by cases unlimited
  · rw [deeper_eq, if_neg exceeded, Step.reaches_ending]
    refine (run _ _ roomier.entered).mono ?_
    rintro o u ⟨w, roomy, ran⟩
    refine ⟨w.exited, roomy.exited, ?_⟩
    rw [deeper_eq, if_neg (roomier.within exceeded), ran]
    cases o <;> rfl

theorem compositional_eases : Compositional fun α (m : Unit → Eval α) => Eases (m ()) where
  perform {α f} plain := by
    rintro s _ ⟨d, higher, i, fewer, rfl⟩
    have same := plain.frame s
    simp only [Session.frame, Frame.mk.injEq] at same
    obtain ⟨depth, iterations, -⟩ := same
    refine Step.reaches_ok.2 ⟨(f s).2.recount d i, ⟨d, depth ▸ higher, i, iterations ▸ fewer, rfl⟩, ?_⟩
    show EStateM.Result.ok _ _ = _
    rw [plain.recount s]
    rfl
  fail e := .stop (.failure e)
  bind first next := first.bind next
  count := countReplacement_eases
  inside c run := run.inside c

end Easing

theorem evaluate_eases (fuel : Nat) (c : ContextId) (v : Value) : Eases (evaluate fuel c v) := by
  induction fuel generalizing c v with
  | zero => exact .stop .outOfFuel
  | succ fuel ih =>
    refine Eases.deeper ?_
    exact compositional_eases.evaluateWith_of_stops (fun _ => evaluate fuel) ih (fun _ => .stop .outOfFuel) fuel c v

end Symbolic
