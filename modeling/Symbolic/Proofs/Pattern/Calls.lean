import Symbolic.Proofs.Pattern.Alone

/-!
The searches that a search makes. To match a pattern, parts of it are matched one after the other,
and what comes of one decides which is next. `Makes` says which searches these are, and in which state
each of them is started. A search depends on the depth limit only by what comes of the searches
that it makes (`upholds_of_made`). With some of them the search can end: where it is enough that something is found,
these may also find something else.
-/
namespace Symbolic.Pattern

open Value Step

section Choices

variable {σ α β : Type} {enough : Bool} {s t u : σ}

/-- The second of two searches ends as the first one, or, where this is enough, finds something. -/
def Upholds (enough : Bool) (r r' : EStateM.Result Halt σ (List α)) : Prop := r' = r ∨ enough = true ∧ Found r'

/-- A choice is tried in a state: the choices before it led to nothing. -/
inductive Tries (f : α → Step σ (List β)) : List α → σ → α → σ → Prop
  | here (x : α) (xs : List α) (s : σ) : Tries f (x :: xs) s x s
  | later {x y : α} {xs : List α} {s u v : σ} (nothing : f y s = .ok [] v) (tried : Tries f xs v x u) :
    Tries f (y :: xs) s x u

/-- An item is reached with a result and in a state: the items before it gave that result. -/
inductive Threads (f : α → β → Step σ (Option β)) : List α → β → σ → α → β → σ → Prop
  | here (x : α) (xs : List α) (b : β) (s : σ) : Threads f (x :: xs) b s x b s
  | later {x y : α} {xs : List α} {b c d : β} {s u v : σ} (found : f y b s = .ok (some c) v)
    (reached : Threads f xs c v x d u) : Threads f (y :: xs) b s x d u

/-- Two sequences of steps that begin alike are related as what comes after. -/
theorem bind_related {R : EStateM.Result Halt σ β → EStateM.Result Halt σ β → Prop} (refl : ∀ r, R r r)
    {x y : Step σ α} {f g : α → Step σ β} (first : y s = x s) (next : ∀ a u, x s = .ok a u → R (f a u) (g a u)) :
    R ((x >>= f) s) ((y >>= g) s) := by
  cases here : x s with
  | error h u =>
    rw [bind_of_error here, bind_of_error (first.trans here)]
    exact refl _
  | ok a u =>
    rw [bind_of_ok here, bind_of_ok (first.trans here)]
    exact next a u here

theorem bind_same {x y : Step σ α} {f g : α → Step σ β} (first : y s = x s)
    (next : ∀ a u, x s = .ok a u → g a u = f a u) : (y >>= g) s = (x >>= f) s :=
  bind_related (R := fun r r' => r' = r) (fun _ => rfl) first next

theorem Upholds.bind {x y : Step σ α} {f g : α → Step σ (List β)} (first : y s = x s)
    (next : ∀ a u, x s = .ok a u → Upholds enough (f a u) (g a u)) : Upholds enough ((x >>= f) s) ((y >>= g) s) :=
  bind_related (fun _ => .inl rfl) first next

theorem map_of_ok {x : Step σ α} {g : α → β} {a : α} (run : x s = .ok a t) : (g <$> x) s = .ok (g a) t := by
  rw [map_eq_pure_bind, bind_of_ok run]
  rfl

theorem Upholds.map {γ : Type} {x y : Step σ (List α)} {g : List α → List γ}
    (keeps : ∀ found, found ≠ [] → g found ≠ []) (upholds : Upholds enough (x s) (y s)) :
    Upholds enough ((g <$> x) s) ((g <$> y) s) := by
  rcases upholds with same | ⟨loose, found, t, run, some⟩
  · rw [map_eq_pure_bind, map_eq_pure_bind]
    exact .inl (bind_same same fun _ _ _ => rfl)
  · exact .inr ⟨loose, g found, t, map_of_ok run, keeps found some⟩

theorem same_of_listed {x y : Step σ (Option α)} (same : (Option.toList <$> y) s = (Option.toList <$> x) s) :
    y s = x s := by
  rw [map_eq_pure_bind, map_eq_pure_bind] at same
  cases here : x s with
  | error h u =>
    rw [bind_of_error here] at same
    cases there : y s with
    | error g v =>
      rw [bind_of_error there] at same
      cases same
      rfl
    | ok b v =>
      rw [bind_of_ok there] at same
      cases same
  | ok a u =>
    rw [bind_of_ok here] at same
    cases there : y s with
    | error g v =>
      rw [bind_of_error there] at same
      cases same
    | ok b v =>
      rw [bind_of_ok there] at same
      obtain ⟨list, rfl⟩ := EStateM.Result.ok.inj same
      obtain rfl : b = a := by simpa using congrArg List.head? list
      rfl

theorem collect_of_nothing {all : Bool} {f : α → Step σ (List β)} {x : α} (nothing : f x s = .ok [] u) (xs : List α) :
    collect all f (x :: xs) s = collect all f xs u := by
  rw [collect, bind_of_ok nothing]
  cases all <;> simp

theorem collect_of_found {f : α → Step σ (List β)} {x : α} {found : List β} (run : f x s = .ok found u)
    (some : found ≠ []) (xs : List α) : collect false f (x :: xs) s = .ok found u := by
  rw [collect, bind_of_ok run, if_pos (by simpa using some)]
  rfl

theorem Upholds.collect {f g : α → Step σ (List β)} {xs : List α}
    (each : ∀ x u, Tries f xs s x u → Upholds enough (f x u) (g x u)) :
    Upholds enough (collect false f xs s) (collect false g xs s) := by
  induction xs generalizing s with
  | nil => exact .inl rfl
  | cons x xs ih =>
    rcases each x s (.here ..) with same | ⟨loose, found, t, run, some⟩
    · cases here : f x s with
      | error h u => exact .inl ((bind_of_error (same.trans here)).trans (bind_of_error here).symm)
      | ok found u =>
        by_cases some : found = []
        · subst some
          rw [collect_of_nothing here, collect_of_nothing (same.trans here)]
          exact ih fun y v tried => each y v (.later here tried)
        · rw [collect_of_found here some, collect_of_found (same.trans here) some]
          exact .inl rfl
    · exact .inr ⟨loose, found, t, collect_of_found run some xs, some⟩

theorem Tries.mem {f : α → Step σ (List β)} {xs : List α} {x : α} (tried : Tries f xs s x u) : x ∈ xs := by
  induction tried with
  | here => exact List.mem_cons_self ..
  | later _ _ ih => exact List.mem_cons_of_mem _ ih

theorem threadAll_same {f g : α → β → Step σ (Option β)} {xs : List α} {b : β}
    (each : ∀ x c u, Threads f xs b s x c u → g x c u = f x c u) : threadAll g xs b s = threadAll f xs b s := by
  induction xs generalizing b s with
  | nil => rfl
  | cons x xs ih =>
    refine bind_same (each x b s (.here ..)) fun r u run => ?_
    cases r with
    | none => rfl
    | some c => exact ih fun y d v reached => each y d v (.later run reached)

/-- The first of some choices that has a result, as a search for one result. -/
theorem firstOf_listed (f : α → Step σ (Option β)) (xs : List α) :
    Option.toList <$> firstOf f xs = collect false (fun x => Option.toList <$> f x) xs := by
  induction xs with
  | nil => rfl
  | cons x xs ih =>
    rw [firstOf, collect, map_bind, ← ih, bind_map_left]
    refine bind_congr fun r => ?_
    cases r with
    | none => simp
    | some c => rfl

end Choices

/-! ### The choices of a list of patterns -/

section Attempts

variable {σ : Type}

/-- The ways in which a pattern of a given role can take values from a list: what it takes and what it leaves. -/
def choices (orderless : Bool) (rest es : List Value) : Role → List (List Value × List Value)
  | .optional .. => []
  | .segment _ n _ => cuts n (neededAfterSegment rest) es
  | .repeated _ n => cuts n (needed rest) es
  | .single => (if orderless then picks es else (picks es).take 1).map fun pick => ([pick.1], pick.2)

/-- The pattern that every value that is taken has to match, if there is one. -/
def Role.each (p : Value) : Role → Option Value
  | .optional .. | .segment .. => none
  | .repeated inner _ => inner
  | .single => some p

/-- Whether the patterns after one of a given role are matched in any order. -/
def Role.after (orderless : Bool) : Role → Bool
  | .single => false
  | _ => orderless

/-- The bindings with which a pattern of a given role takes values. -/
def take (m : Settings σ) (depth : Nat) (p : Value) (b : Bindings) (front : List Value) :
    Role → Step σ (Option Bindings)
  | .segment name _ c => do
    if ← Step.ofExcept (acceptsAll c front) then Step.ofExcept (bindName b name (ofItems front)) else return none
  | r => r.each p |>.elim (return none) fun q => threadAll (matchOne m none (depth + 1) q) front b

/-- A search in which the first pattern takes given values. -/
def attempt (m : Settings σ) (orderless : Bool) (depth : Nat) (p : Value) (rest : List Value) (b : Bindings)
    (choice : List Value × List Value) : Step σ (List Bindings) := do
  match ← take m depth p b choice.1 (role p) with
  | some c => matchMany m false ((role p).after orderless) (depth + 1) rest choice.2 c
  | none => return []

variable {m : Settings σ} {orderless : Bool} {depth : Nat} {p : Value} {rest es : List Value} {b : Bindings}

/-- Unless its first pattern is optional, a list of patterns is matched by trying one choice after the other. -/
theorem matchMany_attempts (mandatory : ∀ inner default, role p ≠ .optional inner default) :
    matchMany m false orderless depth (p :: rest) es b =
      collect false (attempt m orderless depth p rest b) (choices orderless rest es (role p)) := by
  cases form : role p with
  | optional inner default => exact absurd form (mandatory inner default)
  | segment name n c =>
    rw [matchMany_segment form]
    refine collect_congr (fun cut => ?_) _
    rw [attempt, form, take, bind_assoc]
    refine bind_congr fun accepted => ?_
    cases accepted with
    | false => rfl
    | true => exact option_congr rfl rfl fun _ => rfl
  | repeated inner n =>
    rw [matchMany_eq, form]
    cases inner with
    | none =>
      refine (collect_nothing (fun cut => ?_) _).symm
      rw [attempt, form]
      rfl
    | some q =>
      refine collect_congr (fun cut => ?_) _
      rw [attempt, form]
      exact option_congr rfl rfl fun _ => rfl
  | single =>
    rw [matchMany_eq, form, choices, collect_map]
    cases es with
    | nil => cases orderless <;> rfl
    | cons e later =>
      cases orderless with
      | true =>
        refine collect_congr (fun pick => ?_) _
        rw [attempt, form]
        exact option_congr (threadAll_one ..).symm rfl fun _ => rfl
      | false =>
        refine Eq.trans ?_ (collect_one _).symm
        rw [attempt, form]
        exact option_congr (threadAll_one ..).symm rfl fun _ => rfl

end Attempts

/-! ### The searches that are made -/

/-- A search that is started in a state: a pattern and a value, or a list of patterns and a list of values. -/
inductive Call (σ : Type) where
  | one (attrs : Option SymbolSet) (depth : Nat) (p e : Value) (b : Bindings) (s : σ)
  | many (orderless : Bool) (depth : Nat) (ps es : List Value) (b : Bindings) (s : σ)

def Call.run {σ : Type} (m : Settings σ) : Call σ → EStateM.Result Halt σ (List Bindings)
  | .one attrs depth p e b s => (Option.toList <$> matchOne m attrs depth p e b) s
  | .many orderless depth ps es b s => matchMany m false orderless depth ps es b s

def Call.size {σ : Type} : Call σ → Nat
  | .one _ _ p _ _ _ => 2 * weight p
  | .many _ _ ps _ _ _ => 2 * weights ps + 1

/-- Whether a search is not cut off at once. -/
def Call.IsWithin {σ : Type} (limit : Int) : Call σ → Prop
  | .one _ depth _ _ _ _ => (depth : Int) ≤ limit
  | .many .. => True

variable {σ : Type}

/-- The searches that a search makes where it is not cut off, and whether it can end with what one of them has found. -/
inductive Makes (m : Settings σ) : Call σ → Bool → Call σ → Prop
  | named {attrs : Option SymbolSet} {depth : Nat} {p e q : Value} {b : Bindings} {s : σ} {name : Option Value}
    (form : shape (unwrapHold p) = .named name (some q)) :
    Makes m (.one attrs depth p e b s) false (.one none (depth + 1) q e b s)
  | condition {attrs : Option SymbolSet} {depth : Nat} {p e q : Value} {b : Bindings} {s : σ} {test : Option Value}
    (form : shape (unwrapHold p) = .condition (some q) test) :
    Makes m (.one attrs depth p e b s) false (.one attrs (depth + 1) q e b s)
  | test {attrs : Option SymbolSet} {depth : Nat} {p e q f : Value} {b : Bindings} {s : σ}
    (form : shape (unwrapHold p) = .test (some (q, f))) :
    Makes m (.one attrs depth p e b s) false (.one attrs (depth + 1) q e b s)
  | alternative {attrs : Option SymbolSet} {depth : Nat} {p e q : Value} {b : Bindings} {s u : σ} {ps : List Value}
    (form : shape (unwrapHold p) = .alternatives ps)
    (tried : Tries (fun q => Option.toList <$> matchOne m none (depth + 1) q e b) ps s q u) :
    Makes m (.one attrs depth p e b s) true (.one none (depth + 1) q e b u)
  | excluded {attrs : Option SymbolSet} {depth : Nat} {p e x : Value} {b : Bindings} {s : σ} {inner : Option Value}
    (form : shape (unwrapHold p) = .except (some x) inner) :
    Makes m (.one attrs depth p e b s) false (.one attrs (depth + 1) x e b s)
  | instead {attrs : Option SymbolSet} {depth : Nat} {p e x q : Value} {b : Bindings} {s u : σ}
    (form : shape (unwrapHold p) = .except (some x) (some q))
    (absent : matchOne m attrs (depth + 1) x e b s = .ok none u) :
    Makes m (.one attrs depth p e b s) true (.one attrs (depth + 1) q e b u)
  | repeated {attrs : Option SymbolSet} {depth : Nat} {p e q : Value} {b : Bindings} {s : σ}
    (form : shape (unwrapHold p) = .repeated (some q) ∨ shape (unwrapHold p) = .repeatedNull (some q)) :
    Makes m (.one attrs depth p e b s) true (.one attrs (depth + 1) q e b s)
  | head {attrs : Option SymbolSet} {depth : Nat} {p h k : Value} {as es : List Value} {t : SymbolSet} {b : Bindings}
    {s : σ} (form : shape (unwrapHold p) = .compound h as) :
    Makes m (.one attrs depth p (.expr k es t) b s) false (.one attrs (depth + 1) h k b s)
  | args {attrs : Option SymbolSet} {depth : Nat} {p h k : Value} {as es : List Value} {t : SymbolSet} {b c : Bindings}
    {s u : σ} {flat : Bool} (form : shape (unwrapHold p) = .compound h as)
    (headed : matchOne m attrs (depth + 1) h k b s = .ok (some c) u)
    (flattens : flat = (attrs.getD t).contains Attribute.flat) :
    Makes m (.one attrs depth p (.expr k es t) b s) true
      (.many ((attrs.getD t).contains Attribute.orderless) (depth + 1) (if flat then flatten h as else as)
        (if flat then flatten k es else es) c u)
  | present {orderless : Bool} {depth : Nat} {p q : Value} {rest es : List Value} {b : Bindings} {s : σ}
    {default : Option Value} (form : role p = .optional (some q) default) :
    Makes m (.many orderless depth (p :: rest) es b s) true (.many orderless (depth + 1) (q :: rest) es b s)
  | absent {orderless : Bool} {depth : Nat} {p q : Value} {rest es : List Value} {b c : Bindings} {s u : σ}
    {default : Option Value} (form : role p = .optional (some q) default)
    (nothing : matchMany m false orderless (depth + 1) (q :: rest) es b s = .ok [] u)
    (skips : skipOptional b q default = .ok (some c)) :
    Makes m (.many orderless depth (p :: rest) es b s) true (.many orderless (depth + 1) rest es c u)
  | each {orderless : Bool} {depth : Nat} {p q x : Value} {rest es front back : List Value} {b c : Bindings} {s u v : σ}
    (takes : (role p).each p = some q)
    (tried : Tries (attempt m orderless depth p rest b) (choices orderless rest es (role p)) s (front, back) u)
    (reached : Threads (matchOne m none (depth + 1) q) front b u x c v) :
    Makes m (.many orderless depth (p :: rest) es b s) false (.one none (depth + 1) q x c v)
  | rest {orderless : Bool} {depth : Nat} {p : Value} {rest es front back : List Value} {b c : Bindings} {s u v : σ}
    (tried : Tries (attempt m orderless depth p rest b) (choices orderless rest es (role p)) s (front, back) u)
    (taken : take m depth p b front (role p) u = .ok (some c) v) :
    Makes m (.many orderless depth (p :: rest) es b s) true
      (.many ((role p).after orderless) (depth + 1) rest back c v)

variable {evaluator : Option (Value → Step σ Value)} {limit limit' : Int} {enough : Bool}

theorem one_upholds {attrs : Option SymbolSet} {depth : Nat} {p e : Value} {b : Bindings} {s : σ}
    (near : (depth : Int) ≤ limit) (near' : (depth : Int) ≤ limit')
    (settled : ∀ c, Makes ⟨evaluator, limit⟩ (.one attrs depth p e b s) false c →
      c.run ⟨evaluator, limit'⟩ = c.run ⟨evaluator, limit⟩)
    (ending : ∀ c, Makes ⟨evaluator, limit⟩ (.one attrs depth p e b s) true c →
      Upholds enough (c.run ⟨evaluator, limit⟩) (c.run ⟨evaluator, limit'⟩)) :
    Upholds enough ((Call.one attrs depth p e b s).run ⟨evaluator, limit⟩)
      ((Call.one attrs depth p e b s).run ⟨evaluator, limit'⟩) := by
  rw [Call.run, Call.run, matchOne_eq, matchOne_eq, if_neg (Int.not_lt.2 near), if_neg (Int.not_lt.2 near')]
  have same : ∀ {attrs' : Option SymbolSet} {q v : Value},
      Makes ⟨evaluator, limit⟩ (.one attrs depth p e b s) false (.one attrs' (depth + 1) q v b s) →
        matchOne ⟨evaluator, limit'⟩ attrs' (depth + 1) q v b s =
          matchOne ⟨evaluator, limit⟩ attrs' (depth + 1) q v b s :=
    fun made => same_of_listed (settled _ made)
  cases form : shape (unwrapHold p) with
  | verbatim v => cases v <;> exact .inl rfl
  | blank c => exact .inl rfl
  | literal v => exact .inl rfl
  | foreign => exact .inl rfl
  | named name q =>
    cases q with
    | none => exact .inl rfl
    | some q =>
      rw [matchShape, matchShape, map_bind, map_bind]
      exact .bind (same (.named form)) fun _ _ _ => .inl rfl
  | condition q test =>
    cases q with
    | none => exact .inl rfl
    | some q =>
      rw [matchShape, matchShape, map_bind, map_bind]
      exact .bind (same (.condition form)) fun _ _ _ => .inl rfl
  | test parts =>
    cases parts with
    | none => exact .inl rfl
    | some parts =>
      rw [matchShape, matchShape, map_bind, map_bind]
      exact .bind (same (.test form)) fun _ _ _ => .inl rfl
  | alternatives ps =>
    rw [matchShape, matchShape, firstOf_listed, firstOf_listed]
    exact .collect fun q u tried => ending _ (.alternative form tried)
  | except x q =>
    cases x with
    | none => exact .inl rfl
    | some x =>
      cases q with
      | none =>
        rw [matchShape, matchShape, map_bind, map_bind]
        exact .bind (same (.excluded form)) fun _ _ _ => .inl rfl
      | some q =>
        rw [matchShape, matchShape, map_bind, map_bind]
        refine .bind (same (.excluded form)) fun r u run => ?_
        cases r with
        | none => exact ending _ (.instead form run)
        | some c => exact .inl rfl
  | repeated q =>
    cases q with
    | none => exact .inl rfl
    | some q => exact ending _ (.repeated (.inl form))
  | repeatedNull q =>
    cases q with
    | none => exact .inl rfl
    | some q =>
      have listed : ∀ x : Step σ (Option Bindings), Option.toList <$> (do return (← x).or (some b)) =
          (fun found => (found.head?.or (some b)).toList) <$> (Option.toList <$> x) := by
        intro x
        simp
      rw [matchShape, matchShape, listed, listed]
      exact .map (by simp) (ending _ (.repeated (.inr form)))
  | compound h as =>
    cases e with
    | expr k es t =>
      rw [matchShape, matchShape, map_bind, map_bind]
      refine .bind (same (.head form)) fun r u run => ?_
      cases r with
      | none => exact .inl rfl
      | some c =>
        have listed : ∀ x : Step σ (List Bindings), Option.toList <$> (do return (← x).head?) =
            (fun found => found.head?.toList) <$> x := by
          intro x
          simp
        have inner := (ending _ (.args form run rfl)).map (g := fun found => found.head?.toList) (by simp)
        rw [← listed, ← listed] at inner
        exact inner
    | _ => exact .inl rfl

/-- What a pattern takes depends on the limit only by the values that it has to match one by one. -/
theorem take_same {depth : Nat} {p : Value} {b : Bindings} {front : List Value} {s : σ}
    (each : ∀ q, (role p).each p = some q → threadAll (matchOne ⟨evaluator, limit'⟩ none (depth + 1) q) front b s =
      threadAll (matchOne ⟨evaluator, limit⟩ none (depth + 1) q) front b s) :
    take ⟨evaluator, limit'⟩ depth p b front (role p) s = take ⟨evaluator, limit⟩ depth p b front (role p) s := by
  cases form : role p with
  | optional inner default => rfl
  | segment name n c => rfl
  | repeated inner n =>
    rw [form] at each
    cases inner with
    | none => rfl
    | some q => exact each q rfl
  | single =>
    rw [form] at each
    exact each p rfl

theorem many_upholds {orderless : Bool} {depth : Nat} {ps es : List Value} {b : Bindings} {s : σ}
    (settled : ∀ c, Makes ⟨evaluator, limit⟩ (.many orderless depth ps es b s) false c →
      c.run ⟨evaluator, limit'⟩ = c.run ⟨evaluator, limit⟩)
    (ending : ∀ c, Makes ⟨evaluator, limit⟩ (.many orderless depth ps es b s) true c →
      Upholds enough (c.run ⟨evaluator, limit⟩) (c.run ⟨evaluator, limit'⟩)) :
    Upholds enough ((Call.many orderless depth ps es b s).run ⟨evaluator, limit⟩)
      ((Call.many orderless depth ps es b s).run ⟨evaluator, limit'⟩) := by
  rw [Call.run, Call.run]
  cases ps with
  | nil =>
    rw [matchMany_nil, matchMany_nil]
    exact .inl rfl
  | cons p rest =>
    by_cases optional : ∃ inner default, role p = .optional inner default
    · obtain ⟨inner, default, form⟩ := optional
      rw [matchMany_eq, matchMany_eq, form]
      cases inner with
      | none => exact .inl rfl
      | some q =>
        rcases ending _ (.present form) with same | ⟨loose, found, t, run, some⟩
        · refine .bind same fun present u run => ?_
          by_cases nothing : present = []
          · subst nothing
            refine .bind rfl fun r v skipped => ?_
            obtain ⟨skips, rfl⟩ := ofExcept_ok.1 skipped
            cases r with
            | none => exact .inl rfl
            | some c =>
              simp only [List.nil_append, bind_pure]
              exact ending _ (.absent form run skips)
          · rw [if_pos (by simpa using nothing), if_pos (by simpa using nothing)]
            exact .inl rfl
        · refine .inr ⟨loose, found, t, (bind_of_ok run).trans ?_, some⟩
          rw [if_pos (by simpa using some)]
          rfl
    · have mandatory : ∀ inner default, role p ≠ .optional inner default :=
        fun inner default form => optional ⟨inner, default, form⟩
      rw [matchMany_attempts mandatory, matchMany_attempts mandatory]
      refine .collect fun choice u tried => .bind (take_same fun q takes => ?_) fun r v taken => ?_
      · exact threadAll_same fun x c v reached => same_of_listed (settled _ (.each takes tried reached))
      · cases r with
        | none => exact .inl rfl
        | some c => exact ending _ (.rest tried taken)

/-- What comes of a search depends on the limit only by what comes of the searches that it makes. -/
theorem upholds_of_made {c : Call σ} (near : c.IsWithin limit) (near' : c.IsWithin limit')
    (settled : ∀ d, Makes ⟨evaluator, limit⟩ c false d → d.run ⟨evaluator, limit'⟩ = d.run ⟨evaluator, limit⟩)
    (ending : ∀ d, Makes ⟨evaluator, limit⟩ c true d →
      Upholds enough (d.run ⟨evaluator, limit⟩) (d.run ⟨evaluator, limit'⟩)) :
    Upholds enough (c.run ⟨evaluator, limit⟩) (c.run ⟨evaluator, limit'⟩) := by
  cases c with
  | one attrs depth p e b s => exact one_upholds near near' settled ending
  | many orderless depth ps es b s => exact many_upholds settled ending

theorem Makes.size_lt {m : Settings σ} {c d : Call σ} {ends : Bool} (made : Makes m c ends d) : d.size < c.size := by
  have part : ∀ {p q : Value}, q ∈ (shape (unwrapHold p)).parts → 2 * weight q < 2 * weight p := by
    intro p q member
    have smaller := weight_part_lt member
    have unwrapped := weight_unwrapHold_le p
    omega
  cases made with
  | named form => exact part (by simp [form, Shape.parts])
  | condition form => exact part (by simp [form, Shape.parts])
  | test form => exact part (by simp [form, Shape.parts])
  | alternative form tried => exact part (by simpa [form, Shape.parts] using tried.mem)
  | excluded form => exact part (by simp [form, Shape.parts])
  | instead form => exact part (by simp [form, Shape.parts])
  | repeated form =>
    rcases form with form | form
    all_goals exact part (by simp [form, Shape.parts])
  | head form => exact part (by simp [form, Shape.parts])
  | @args attrs depth p h k as es t b c s u flat form =>
    have room := weight_compound_le form
    have headed := weight_pos h
    have flattened := weights_flatten_le h as
    simp only [Call.size]
    split <;> omega
  | present form =>
    have smaller := weight_optional_lt form
    simp only [Call.size, weights]
    omega
  | @absent orderless depth p =>
    have first := weight_pos p
    simp only [Call.size, weights]
    omega
  | @each orderless depth p q x rest es front back b c s u v takes =>
    have bound : weight q ≤ weight p := by
      cases form : role p with
      | optional inner default => simp [form, Role.each] at takes
      | segment name n c => simp [form, Role.each] at takes
      | repeated inner n =>
        rw [form] at takes
        cases takes
        exact Nat.le_of_lt (weight_repeated_lt form)
      | single =>
        rw [form] at takes
        cases takes
        exact Nat.le_refl _
    simp only [Call.size, weights]
    omega
  | @rest orderless depth p =>
    have first := weight_pos p
    simp only [Call.size, weights]
    omega

end Symbolic.Pattern
