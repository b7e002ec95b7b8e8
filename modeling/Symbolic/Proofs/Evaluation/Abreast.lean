import Symbolic.Proofs.Evaluation.Transparency

/-!
Two programs in step. Where one program does what another does, but further down, with more replacements counted
and with more or less fuel, its run is followed step by step: unless a limit stops the first run, or the one
that has less fuel runs out of it, the second ends as the first does, in the same session with more room
(`InStep`). Main statement: evaluation is in step with evaluation of the same value with more room, whichever of
the two has less fuel (`evaluate_inStep`).
-/
namespace Symbolic

open Value Session
open Step (starves starves_ending cut verdict? ended)

namespace Step

variable {σ α : Type} {r : EStateM.Result Halt σ α}

theorem eq_of_starves (starved : starves r = true) : ∃ s, r = .error .outOfFuel s := by
  rcases r with _ | ⟨_ | _, s⟩
  · cases starved
  · cases starved
  · exact ⟨s, rfl⟩

theorem verdict_of_uncut (uncut : cut r = false) (fueled : starves r = false) : ∃ o, verdict? r = some o := by
  rcases r with ⟨a, s⟩ | ⟨e | _, s⟩
  · exact ⟨.ok a, rfl⟩
  · exact ⟨.error e, if_neg (Bool.eq_false_iff.1 uncut)⟩
  · cases fueled

theorem ended_of_verdict {o : Except Error α} (come : verdict? r = some o) (s : σ) :
    ended s o = ending (fun _ => s) r := by
  rw [eq_ended come]
  cases o <;> rfl

section Bind

variable {β : Type} {m : Step σ α} {k : α → Step σ β} {s : σ}

theorem cut_bind (limit : cut (m s) = true) : cut ((m >>= k) s) = true := by
  cases ran : m s with
  | ok a t =>
    rw [ran] at limit
    cases limit
  | error h t =>
    rw [ran] at limit
    rw [bind_of_error ran]
    cases h <;> exact limit

theorem bind_congr {n : Step σ α} {l : α → Step σ β} (same : m s = n s) (next : ∀ a t, n s = .ok a t → k a t = l a t) :
    (m >>= k) s = (n >>= l) s := by
  cases ran : n s with
  | ok a t => rw [bind_of_ok (same.trans ran), bind_of_ok ran, next a t ran]
  | error h t => rw [bind_of_error (same.trans ran), bind_of_error ran]

theorem starves_bind (out : starves (m s) = true) : starves ((m >>= k) s) = true := by
  obtain ⟨t, ran⟩ := eq_of_starves out
  rw [bind_of_error ran]
  rfl

end Bind

@[simp] theorem cut_ending (f : σ → σ) (r : EStateM.Result Halt σ α) : cut (ending f r) = cut r := by
  rcases r with _ | _ | _ <;> rfl

end Step

/-! ### Fuel and room -/

/-- A computation that with more room comes to the same, unless it is cut off, and that runs out of fuel with more
room if it does so with less. -/
structure Tallies {α : Type} (m : Eval α) : Prop where
  eases : Eases m
  starved : ∀ s t, Roomier t s → starves (m s) = true → starves (m t) = true

section Tallying

variable {α β : Type}

theorem Tallies.bind {m : Eval α} {k : α → Eval β} (first : Tallies m) (next : ∀ a, Tallies (k a)) :
    Tallies (m >>= k) where
  eases := first.eases.bind fun a => (next a).eases
  starved s t roomier out := by
    cases ran : m s with
    | ok a u =>
      obtain ⟨w, roomy, other⟩ := Step.reaches_ok.1 (ran ▸ first.eases s t roomier)
      have also : m t = .ok a w := other
      rw [Step.bind_of_ok ran] at out
      rw [Step.bind_of_ok also]
      exact (next a).starved u w roomy out
    | error h u =>
      rw [Step.bind_of_error ran] at out
      cases h with
      | failure e => cases out
      | outOfFuel =>
        obtain ⟨w, other⟩ := Step.eq_of_starves (first.starved s t roomier (by rw [ran]; rfl))
        rw [Step.bind_of_error other]
        rfl

theorem Tallies.deeper {m : Eval α} (run : Tallies m) : Tallies (deeper m) where
  eases := run.eases.deeper
  starved s t roomier out := by
    rw [deeper_eq] at out ⊢
    by_cases exceeded : (s.depth + 1 : Int) > s.recursionLimit
    · rw [if_pos exceeded] at out
      cases out
    · rw [if_neg exceeded, starves_ending] at out
      rw [if_neg (roomier.within exceeded), starves_ending]
      exact run.starved _ _ roomier.entered out

theorem Tallies.inside {m : Eval α} (c : ContextId) (run : Tallies m) : Tallies (Scope.inside c m) where
  eases := run.eases.inside c
  starved s t roomier out := by
    rw [inside_eq, starves_ending] at out ⊢
    exact run.starved _ _ (roomier.pushed c) out

theorem starves_countReplacement (s : Session) : starves (countReplacement s) = false := by
  rw [countReplacement_eq]
  split <;> rfl

theorem compositional_tallies : Compositional fun α (m : Unit → Eval α) => Tallies (m ()) where
  perform plain := ⟨compositional_eases.perform plain, fun _ _ _ out => by cases out⟩
  fail e := ⟨.stop (.failure e), fun _ _ _ out => by cases out⟩
  bind first next := first.bind next
  count := ⟨countReplacement_eases, fun s _ _ out => by rw [starves_countReplacement] at out; cases out⟩
  inside c run := run.inside c

theorem evaluate_tallies (fuel : Nat) (c : ContextId) (v : Value) : Tallies (evaluate fuel c v) := by
  have stops : ∀ α, Tallies (throw .outOfFuel : Eval α) := fun _ => ⟨.stop .outOfFuel, fun _ _ _ _ => rfl⟩
  induction fuel generalizing c v with
  | zero => exact stops Value
  | succ fuel ih =>
    exact (compositional_tallies.evaluateWith_of_stops (fun _ => evaluate fuel) ih stops fuel c v).deeper

end Tallying

/-! ### Two runs -/

/-- The second of two runs ends as the first does, in the same session with more room. -/
def Alike {α : Type} (r q : EStateM.Result Halt Session α) : Prop :=
  ∃ w, Roomier w (Step.final r) ∧ q = Step.ending (fun _ => w) r

/-- Unless a limit stops the first of two runs, or the one of them that has less fuel runs out of it, the second
ends as the first does. -/
def InStep {α : Type} (second : Bool) (r q : EStateM.Result Halt Session α) : Prop :=
  cut r = false → starves (bif second then q else r) = false → Alike r q

/-- The fuel of two runs, of which the second has less or the first. -/
def Scant : Bool → Nat → Nat → Prop
  | true, a, b => b ≤ a
  | false, a, b => a ≤ b

section Pairs

variable {α β : Type} {second : Bool} {s t : Session}

/-- The second of two runs ends as the first does, and leaves the same session but for the count of replacements. -/
def EndsAs (r q : EStateM.Result Halt Session α) : Prop := ∃ i, q = Step.ending (fun t => t.recount t.depth i) r

theorem Alike.endsAs {c : ContextId} {v w : Value} {n m : Nat} (alike : Alike (evaluate n c v s) (evaluate m c w s)) :
    EndsAs (evaluate n c v s) (evaluate m c w s) ∧ EndsAs (evaluate m c w s) (evaluate n c v s) := by
  have depth : (Step.final (evaluate m c w s)).depth = (Step.final (evaluate n c v s)).depth :=
    (evaluate_keeps m c w s).depth.trans (evaluate_keeps n c v s).depth.symm
  obtain ⟨x, ⟨d, -, i, -, rfl⟩, other⟩ := alike
  rw [other] at depth ⊢
  cases ran : evaluate n c v s with
  | ok a t | error h t =>
    rw [ran] at depth
    obtain rfl : d = t.depth := depth
    exact ⟨⟨i, rfl⟩, t.iterations, rfl⟩

theorem Tallies.alike {m : Eval α} (tallies : Tallies m) (roomier : Roomier t s) (uncut : cut (m s) = false)
    (fueled : starves (m s) = false) : Alike (m s) (m t) := by
  obtain ⟨o, come⟩ := Step.verdict_of_uncut uncut fueled
  obtain ⟨w, roomy, other⟩ := tallies.eases s t roomier o come
  exact ⟨w, roomy, other.trans (Step.ended_of_verdict come w)⟩

theorem InStep.ok {a : α} (roomier : Roomier t s) :
    InStep second (.ok a s : EStateM.Result Halt Session α) (.ok a t) :=
  fun _ _ => ⟨t, roomier, rfl⟩

theorem InStep.bind {m n : Eval α} {k l : α → Eval β} (first : InStep second (m s) (n t))
    (next : ∀ a u w, m s = .ok a u → n t = .ok a w → Roomier w u → InStep second (k a u) (l a w)) :
    InStep second ((m >>= k) s) ((n >>= l) t) := by
  intro uncut fueled
  have alike : Alike (m s) (n t) := by
    refine first (Bool.eq_false_iff.2 fun limit => ?_) (Bool.eq_false_iff.2 fun out => ?_)
    · rw [Step.cut_bind limit] at uncut
      cases uncut
    · cases second with
      | true => exact Bool.eq_false_iff.1 fueled (Step.starves_bind (k := l) out)
      | false => exact Bool.eq_false_iff.1 fueled (Step.starves_bind (k := k) out)
  obtain ⟨w, roomier, other⟩ := alike
  cases ran : m s with
  | ok a u =>
    rw [ran] at roomier other
    rw [Step.bind_of_ok ran, Step.bind_of_ok other] at *
    exact next a u w ran other roomier uncut fueled
  | error h u =>
    rw [ran] at roomier other
    rw [Step.bind_of_error ran, Step.bind_of_error other]
    exact ⟨w, roomier, rfl⟩

theorem InStep.deeper {m n : Eval α} (roomier : Roomier t s) (nested : InStep second (m s.entered) (n t.entered)) :
    InStep second (deeper m s) (deeper n t) := by
  intro uncut fueled
  rw [deeper_eq] at uncut fueled ⊢
  by_cases exceeded : (s.depth + 1 : Int) > s.recursionLimit
  · rw [if_pos exceeded] at uncut
    cases uncut
  · rw [deeper_eq, if_neg (roomier.within exceeded)] at fueled ⊢
    rw [if_neg exceeded] at uncut fueled ⊢
    obtain ⟨w, roomy, other⟩ := nested (by simpa using uncut) (by cases second <;> simpa using fueled)
    refine ⟨w.exited, by simpa using roomy.exited, ?_⟩
    rw [other]
    cases m s.entered <;> rfl

theorem InStep.descend {m n : Eval α} (keeps : Keeps m) (keepsToo : Keeps n) (roomier : Roomier t s)
    (nested : InStep second (m s.entered) (n t)) : InStep second (Symbolic.deeper m s) (n t) := by
  intro uncut fueled
  rw [deeper_eq] at uncut fueled ⊢
  by_cases exceeded : (s.depth + 1 : Int) > s.recursionLimit
  · rw [if_pos exceeded] at uncut
    cases uncut
  · rw [if_neg exceeded] at uncut fueled ⊢
    obtain ⟨w, ⟨d, -, i, fewer, rfl⟩, other⟩ :=
      nested (by simpa using uncut) (by cases second <;> simpa using fueled)
    have deep := (keeps s.entered).depth
    have back := (keepsToo t).depth
    rw [other, Step.final_ending] at back
    refine ⟨(Step.final (m s.entered)).recount d i, ⟨d, ?_, i, ?_, ?_⟩, ?_⟩
    · obtain ⟨e, higher, j, -, rfl⟩ := roomier
      rw [Step.final_ending]
      simp only [Session.recount, Session.entered, Session.exited] at back deep ⊢
      omega
    · rw [Step.final_ending]
      exact fewer
    · rw [Step.final_ending]
      rfl
    · rw [other]
      cases m s.entered <;> rfl

theorem countReplacement_inStep (roomier : Roomier t s) : InStep second (countReplacement s) (countReplacement t) :=
  fun uncut _ => compositional_tallies.count.alike roomier uncut (starves_countReplacement s)

theorem evaluate_inStep {a b : Nat} (scant : Scant second a b) (c : ContextId) (v : Value) (roomier : Roomier t s) :
    InStep second (evaluate a c v s) (evaluate b c v t) := by
  intro uncut fueled
  have tallies := evaluate_tallies a c v
  have more : ∀ {n k}, n ≤ k → starves (evaluate n c v t) = false → evaluate k c v t = evaluate n c v t := fun less =>
    Prolongs.more (m := fun n => evaluate n c v) (fun n => evaluate_prolongs n c v) less
  cases second with
  | false =>
    obtain ⟨w, roomy, other⟩ := tallies.alike roomier uncut fueled
    have enough : starves (evaluate a c v t) = false := by rw [other, starves_ending]; exact fueled
    exact ⟨w, roomy, (more scant enough).trans other⟩
  | true =>
    have same := more scant fueled
    have enough : starves (evaluate a c v s) = false := by
      refine Bool.eq_false_iff.2 fun out => ?_
      have also := tallies.starved s t roomier out
      rw [same] at also
      exact absurd fueled (by simp [also])
    obtain ⟨w, roomy, other⟩ := tallies.alike roomier uncut enough
    exact ⟨w, roomy, same.symm.trans other⟩

/-- Where a value came to something, it comes to the same further down, unless it is stopped there. -/
theorem evaluate_further {n m : Nat} {c : ContextId} {v q r : Value} {u w : Session} (ran : evaluate n c v t = .ok q u)
    (roomier : Roomier t s) (further : evaluate m c v s = .ok r w) : q = r ∧ Roomier u w := by
  have scant : Scant false m (max n m) := Nat.le_max_right n m
  have inStep := evaluate_inStep scant c v roomier
  rw [further] at inStep
  obtain ⟨x, roomy, same⟩ := inStep rfl rfl
  obtain ⟨rfl, rfl⟩ := evaluate_unique ran same
  exact ⟨rfl, roomy⟩

end Pairs
end Symbolic
