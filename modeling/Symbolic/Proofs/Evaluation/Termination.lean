import Symbolic.Proofs.Evaluation.Restoration

/-!
Evaluation comes to an end, whatever the definitions are, unless a loop without a bound of
its own keeps it going. Evaluations are nested at most as deep as the limit admits, at each
level every builtin makes finitely many of them, and a search through definitions ends
although it can add to the list that it goes through: what it adds has no condition, and so
adds nothing more.
-/
namespace Symbolic

open Value Session

/-- Whether an operation runs no loop that has no bound of its own. -/
def Operation.isBounded : Operation → Bool
  | .whileLoop | .forLoop => false
  | _ => true

/-- With enough fuel the members of a family come to one end, and it is not for lack of fuel. -/
def Finishes {α : Type} (m : Nat → Eval α) (s : Session) : Prop :=
  ∃ result, (∃ enough, ∀ n, enough ≤ n → m n s = result) ∧ (∀ t, result ≠ .error .outOfFuel t) ∧
    Kept s (Step.final result)

namespace Finishes

variable {α β : Type} {s : Session}

theorem of_keeps {x : Eval α} (keeps : Keeps x) (fueled : ∀ t, x s ≠ .error .outOfFuel t) :
    Finishes (fun _ => x) s :=
  ⟨x s, ⟨0, fun _ _ => rfl⟩, fueled, keeps s⟩

theorem congr {m k : Nat → Eval α} (least : Nat) (same : ∀ n, least ≤ n → m n s = k n s)
    (finishes : Finishes k s) : Finishes m s := by
  obtain ⟨result, ⟨enough, settled⟩, rest⟩ := finishes
  refine ⟨result, ⟨max least enough, fun n bound => ?_⟩, rest⟩
  rw [same n (by omega), settled n (by omega)]

theorem later {m : Nat → Eval α} (finishes : Finishes (fun n => m (n + 1)) s) : Finishes m s := by
  obtain ⟨result, ⟨enough, settled⟩, rest⟩ := finishes
  refine ⟨result, ⟨enough + 1, fun n bound => ?_⟩, rest⟩
  obtain ⟨less, rfl⟩ : ∃ less, n = less + 1 := ⟨n - 1, by omega⟩
  exact settled less (by omega)

theorem bind {m : Nat → Eval α} {k : Nat → α → Eval β} (first : Finishes m s)
    (next : ∀ a t, Kept s t → Finishes (fun n => k n a) t) : Finishes (fun n => m n >>= k n) s := by
  obtain ⟨result, ⟨enough, settled⟩, fueled, kept⟩ := first
  cases result with
  | ok a t =>
    obtain ⟨result, ⟨more, settledToo⟩, fueled, keptToo⟩ := next a t kept
    refine ⟨result, ⟨max enough more, fun n bound => ?_⟩, fueled, kept.trans keptToo⟩
    exact (Step.bind_of_ok (settled n (by omega))).trans (settledToo n (by omega))
  | error h t =>
    refine ⟨.error h t, ⟨enough, fun n bound => ?_⟩, fun u same => fueled u (by cases same; rfl), kept⟩
    show EStateM.bind (m n) (k n) s = .error h t
    rw [EStateM.bind, settled n bound]

theorem ending {m : Nat → Eval α} {t : Session} {f : Session → Session} {k : Nat → Eval α}
    (same : ∀ n, k n s = Step.ending f (m n t)) (back : ∀ u, Kept t u → Kept s (f u)) (run : Finishes m t) :
    Finishes k s := by
  obtain ⟨result, ⟨enough, settled⟩, fueled, kept⟩ := run
  refine ⟨Step.ending f result, ⟨enough, fun n bound => ?_⟩, fun u => ?_, ?_⟩
  · rw [same, settled n bound]
  · cases result with
    | ok a t => exact nofun
    | error h t =>
      intro stopped
      cases stopped
      exact fueled t rfl
  · rw [Step.final_ending]
    exact back _ kept

theorem deeper {m : Nat → Eval α} (run : (s.depth + 1 : Int) ≤ s.recursionLimit → Finishes m s.entered) :
    Finishes (fun n => deeper (m n)) s := by
  by_cases exceeded : (s.depth + 1 : Int) > s.recursionLimit
  · have stopped : ∀ n, Symbolic.deeper (m n) s =
        .error (.failure (.recursionLimit s.recursionLimit)) { s.entered with depth := s.depth } :=
      fun n => (deeper_eq (m n) s).trans (if_pos exceeded)
    exact ⟨_, ⟨0, fun n _ => stopped n⟩, fun _ => nofun, ⟨.of_lists rfl (List.suffix_refl _) rfl, rfl, rfl, rfl, rfl⟩⟩
  · refine .ending (fun n => ?_) (fun _ => Kept.exited) (run (Int.not_lt.1 exceeded))
    rw [deeper_eq, if_neg exceeded]

end Finishes

structure Session.Level (registry : Registry) (limit : Int) (depth : Nat) (s : Session) : Prop where
  registry : s.registry = registry
  limit : s.recursionLimit = limit
  depth : s.depth = depth

theorem Session.Kept.level {registry : Registry} {limit : Int} {depth : Nat} {s t : Session} (kept : Kept s t)
    (level : Level registry limit depth s) : Level registry limit depth t :=
  ⟨kept.registry.trans level.registry, kept.recursionLimit.trans level.limit, kept.depth.trans level.depth⟩

section Level

variable {registry : Registry} {limit : Int} {depth : Nat}

theorem compositional_finishes : Compositional fun α (m : Nat → Eval α) =>
    ∀ s, Level registry limit depth s → Finishes m s where
  perform plain s _ := .of_keeps plain.kept fun _ => nofun
  fail e s _ := .of_keeps .refl fun _ => nofun
  bind first next s level := (first s level).bind fun a t kept => next a t (kept.level level)
  count s _ := by
    refine .of_keeps countReplacement_keeps fun t => ?_
    rw [countReplacement_eq]
    split
    · exact nofun
    · exact nofun
  inside c run s level := by
    refine .ending (fun n => inside_eq c _ s) (fun u => Kept.popped) (run (s.pushed c) ?_)
    exact ⟨level.registry, level.limit, level.depth⟩

end Level

/-! ### Searching through definitions -/

section Search

variable {ev : Evaluator} {c : ContextId} {l : ListId} {e : Value} {s t : Session} {i n : Nat} {d : Definition}

theorem applyFrom_past (past : (s.definitionsOf l)[i]? = none) : applyFrom ev c l e (n + 1) i s = .ok none s := by
  rw [applyFrom, Step.bind_get, past]
  rfl

theorem applyFrom_at (here : (s.definitionsOf l)[i]? = some d) : applyFrom ev c l e (n + 1) i s =
    (d.apply ev c e >>= fun found => found.elim (applyFrom ev c l e n (i + 1)) fun r => pure (some r)) s := by
  rw [applyFrom, Step.bind_get, here]
  refine congrArg (fun next => (d.apply ev c e >>= next) s) (funext fun found => ?_)
  cases found <;> rfl

theorem apply_quiet (free : d.condition.present? = none) (c : ContextId) (e : Value) :
    ∃ r, ∀ ev, d.apply ev c e = Step.ofExcept r := by
  have always : ∀ ev b, admits ev c d.condition b = pure true := by
    intro ev b
    rw [admits, free]
  obtain ⟨m, matched⟩ := Pattern.matchPlain_quiet d.pattern e
  cases m with
  | error h =>
    refine ⟨.error h, fun ev => ?_⟩
    rw [Definition.apply, matched]
    rfl
  | ok found =>
    cases found with
    | none =>
      refine ⟨.ok none, fun ev => ?_⟩
      rw [Definition.apply, matched]
      rfl
    | some b =>
      refine ⟨some <$> b.substitute d.replacement, fun ev => ?_⟩
      rw [Definition.apply, matched]
      show (admits ev c d.condition b >>= _) = _
      rw [always]
      cases b.substitute d.replacement <;> rfl

/-- How many definitions with a condition a list has from a position on. -/
def pending (s : Session) (l : ListId) (i : Nat) : Nat :=
  ((s.definitionsOf l).drop i).countP fun d => d.condition.present?.isSome

theorem pending_at (here : (s.definitionsOf l)[i]? = some d) :
    pending s l i = pending s l (i + 1) + if d.condition.present?.isSome then 1 else 0 := by
  obtain ⟨bound, rfl⟩ := List.getElem?_eq_some_iff.1 here
  rw [pending, List.drop_eq_getElem_cons bound, List.countP_cons]
  rfl

theorem pending_grows (grows : Grows s t) (here : (s.definitionsOf l)[i]? = some d) :
    pending t l (i + 1) = pending s l (i + 1) := by
  obtain ⟨bound, _⟩ := List.getElem?_eq_some_iff.1 here
  have there : s.lists[l]? = some (s.definitionsOf l) := by
    unfold definitionsOf at bound ⊢
    rw [Array.getD_eq_getD_getElem?] at bound ⊢
    cases found : s.lists[l]? with
    | none => simp [found] at bound
    | some ds => rfl
  -- What has been added to the list since has no condition, and does not count.
  obtain ⟨more, after, free⟩ := grows.lists l _ there
  have longer : t.definitionsOf l = s.definitionsOf l ++ more := by
    rw [definitionsOf, Array.getD_eq_getD_getElem?, after]
    rfl
  have none : more.countP (fun d => d.condition.present?.isSome) = 0 := by
    rw [List.countP_eq_zero]
    intro d member
    simp [free d member, present?]
  rw [pending, longer, List.drop_append_of_le_length bound, List.countP_append, none]
  rfl

end Search

theorem Context.find_mem {α : Type} {k : Value} {es : List (Value × α)} {a : α} (found : find? k es = some a) :
    ∃ l, (l, a) ∈ es := by
  fun_induction find? k es with
  | case1 => cases found
  | case2 l b es same => exact ⟨l, by simpa using Or.inl (Option.some.inj found).symm⟩
  | case3 l b es _ ih =>
    obtain ⟨l, member⟩ := ih found
    exact ⟨l, List.mem_cons_of_mem _ member⟩

section Level

variable {registry : Registry} {limit : Int} {depth : Nat} {ev : Nat → Evaluator}
  (calls : ∀ c v s, Level registry limit depth s → Finishes (fun n => ev n c v) s)

include calls

/-- One position of a search: if the search ends from the next one on, whatever the definition here has
done to the session, it ends. Without a condition a definition does nothing to it. -/
theorem applyFrom_step {c : ContextId} {l : ListId} {e : Value} {s : Session} {i used : Nat} {d : Definition}
    (level : Level registry limit depth s) (here : (s.definitionsOf l)[i]? = some d)
    (next : ∀ t, Kept s t → (d.condition.present? = none → t = s) →
      Finishes (fun n => applyFrom (ev n) c l e (n - (used + 1)) (i + 1)) t) :
    Finishes (fun n => applyFrom (ev n) c l e (n - used) i) s := by
  refine .congr (k := fun n => d.apply (ev n) c e >>= fun found =>
    found.elim (applyFrom (ev n) c l e (n - (used + 1)) (i + 1)) fun r => pure (some r)) (used + 1) (fun n bound => ?_) ?_
  · rw [show n - used = n - (used + 1) + 1 by omega, applyFrom_at here]
  · have done : ∀ r t, Finishes (fun _ => (pure (some r) : Eval (Option Value))) t :=
      fun r t => .of_keeps .refl fun _ => nofun
    cases free : d.condition.present? with
    | some condition =>
      refine .bind (compositional_finishes.applyDefinition calls c d e s level) fun found t kept => ?_
      cases found with
      | none => exact next t kept (by simp [free])
      | some r => exact done r t
    | none =>
      obtain ⟨r, same⟩ := apply_quiet free c e
      simp only [same]
      cases r with
      | error h => exact .of_keeps (x := Step.fail h) .refl fun _ => nofun
      | ok found =>
        cases found with
        | none => exact next s (.refl s) fun _ => rfl
        | some r => exact done r s

theorem applyFrom_finishes (c : ContextId) (l : ListId) (e : Value) {s : Session}
    (level : Level registry limit depth s) (i used : Nat) :
    Finishes (fun n => applyFrom (ev n) c l e (n - used) i) s := by
  cases here : (s.definitionsOf l)[i]? with
  | none =>
    refine .congr (used + 1) (fun n bound => ?_) (.of_keeps (x := pure none) .refl fun _ => nofun)
    rw [show n - used = n - (used + 1) + 1 by omega, applyFrom_past here]
    rfl
  | some d =>
    refine applyFrom_step calls level here fun t kept same => ?_
    exact applyFrom_finishes c l e (kept.level level) (i + 1) (used + 1)
termination_by (pending s l i, (s.definitionsOf l).length - i)
decreasing_by
  -- With each definition that has a condition, fewer of them are still to come. At the others the session
  -- stays the same, and the rest of the list gets shorter.
  have count := pending_at here
  cases free : d.condition.present? with
  | some condition =>
    rw [pending_grows kept.toGrows here]
    simp only [free, Option.isSome_some, if_true] at count
    exact Prod.Lex.left _ _ (by omega)
  | none =>
    obtain rfl := same free
    obtain ⟨bound, _⟩ := List.getElem?_eq_some_iff.1 here
    simp only [free, Option.isSome_none] at count
    rw [count]
    exact Prod.Lex.right _ (by omega)

variable (bounded : ∀ entry ∈ registry, entry.2.operation.isBounded = true)

include bounded

theorem runBuiltin_finishes (c : ContextId) (e : Value) (s : Session) (level : Level registry limit depth s) :
    Finishes (fun n => runBuiltin (ev n) n c e) s := by
  have unchanged : Finishes (fun _ => (pure e : Eval Value)) s := .of_keeps .refl fun _ => nofun
  unfold runBuiltin
  split
  · next x as t =>
    cases found : s.builtin? (.symbol x) with
    | none =>
      refine .congr 0 (fun n _ => ?_) unchanged
      rw [Step.bind_get, found]
    | some b =>
      obtain ⟨key, member⟩ := Context.find_mem found
      have finite : b.operation.isBounded = true := bounded (key, b) (level.registry ▸ member)
      refine .congr (k := fun n => b.operation.run (ev n) n c (.expr (.symbol x) as t)) 0 (fun n _ => ?_) ?_
      · rw [Step.bind_get, found]
      · refine compositional_finishes.operation calls b.operation (fun loop => ?_) c _ s level
        rcases loop with loop | loop
        · simp [loop, Operation.isBounded] at finite
        · simp [loop, Operation.isBounded] at finite
  · exact unchanged

theorem evaluateWith_finishes (c : ContextId) (v : Value) {s : Session} (level : Level registry limit depth s) :
    Finishes (fun n => evaluateWith (ev n) n c v) s :=
  compositional_finishes.evaluateWith calls (fun c l e _ level => applyFrom_finishes calls c l e level 0 0)
    (runBuiltin_finishes calls bounded) c v s level

end Level

theorem evaluate_finishes {registry : Registry} (bounded : ∀ entry ∈ registry, entry.2.operation.isBounded = true)
    {limit : Int} {depth : Nat} (c : ContextId) (v : Value) (s : Session) (level : Level registry limit depth s) :
    Finishes (fun n => evaluate n c v) s := by
  -- Each level of evaluation ends because the next one does, up to the limit, where evaluation is stopped.
  induction room : (limit - depth).toNat using Nat.strongRecOn generalizing depth c v s with
  | ind room ih =>
    refine .later (.deeper fun admitted => ?_)
    rw [level.depth, level.limit] at admitted
    have entered : Level registry limit (depth + 1) s.entered :=
      ⟨level.registry, level.limit, congrArg (· + 1) level.depth⟩
    refine evaluateWith_finishes (fun c v s level => ?_) bounded c v entered
    exact ih (limit - (depth + 1 : Nat)).toNat (by omega) c v s level rfl

/-- Whatever is defined, evaluation comes to a value or fails: from some fuel on it always comes to the
same end, and that is not for lack of fuel. -/
theorem evaluate_terminates (s : Session) (bounded : ∀ entry ∈ s.registry, entry.2.operation.isBounded = true)
    (c : ContextId) (v : Value) :
    ∃ result enough, (∀ fuel, enough ≤ fuel → evaluate fuel c v s = result) ∧
      ∀ t, result ≠ .error .outOfFuel t := by
  obtain ⟨result, ⟨enough, settled⟩, fueled, _⟩ := evaluate_finishes bounded c v s ⟨rfl, rfl, rfl⟩
  exact ⟨result, enough, settled, fueled⟩

/-- A session without loops that have no bound. In it `x` is `x + 1`, and whether the definition of `f[x]`
applies is found out by adding another definition to the same list. -/
def endless : Session :=
  let s := { Session.initial with registry := Builtin.standard.filter (·.2.operation.isBounded) }
  let s := s.define 0 (sym "x") .own [⟨sym "x", call "Plus" [sym "x", int 1], .null⟩]
  s.define 0 (sym "f") .down [⟨call "f" [call "Pattern" [sym "y", call "Blank" []]], call "f" [sym "x"],
    call "CompoundExpression" [call "SetDelayed" [sym "f", sym "y"], call "f" [sym "y", sym "y"]]⟩]

theorem evaluate_terminates_endless : ∃ result enough,
    (∀ fuel, enough ≤ fuel → evaluate fuel 0 (call "f" [call "f" [sym "x"]]) endless = result) ∧
      ∀ t, result ≠ .error .outOfFuel t :=
  evaluate_terminates endless (fun _ member => (List.mem_filter.1 member).2) 0 _

end Symbolic
