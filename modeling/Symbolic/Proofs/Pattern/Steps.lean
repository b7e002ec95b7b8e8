import Symbolic.Proofs.Computation

/-!
One step of matching for each shape of a pattern and each role of an argument pattern.
A pattern below the depth limit does what its shape says, and nothing else; a list of
patterns does what the role of its first one says.
-/
namespace Symbolic.Pattern

open Value

section Search

variable {σ α β : Type}

theorem firstOf_attach {f : α → Step σ (Option β)} (xs : List α) :
    firstOf (fun x => f x.1) xs.attach = firstOf f xs := by
  have mapped : ∀ ys : List { x // x ∈ xs },
      firstOf (fun x => f x.1) ys = firstOf f (ys.map Subtype.val) := by
    intro ys
    induction ys with
    | nil => rfl
    | cons y ys ih => simp only [firstOf, List.map_cons, ih]
  rw [mapped, List.attach_map_subtype_val]

/-- A cut of a list takes nothing away, and leaves as much in front as it must. -/
theorem cuts_append {atLeast rest : Nat} {es front back : List Value}
    (cut : (front, back) ∈ cuts atLeast rest es) : front ++ back = es ∧ atLeast ≤ front.length := by
  obtain ⟨n, member, same⟩ := List.mem_map.1 cut
  cases same
  obtain ⟨i, bound, at_i⟩ := List.mem_iff_getElem.1 member
  simp only [List.length_drop, List.length_range] at bound
  simp only [List.getElem_drop, List.getElem_range] at at_i
  refine ⟨List.take_append_drop _ es, ?_⟩
  rw [List.length_take]
  omega

theorem mem_cuts {atLeast rest : Nat} {front back : List Value} (long : atLeast ≤ front.length)
    (enough : rest ≤ back.length) : (front, back) ∈ cuts atLeast rest (front ++ back) := by
  refine List.mem_map.2 ⟨front.length, ?_, by simp⟩
  rw [List.range_eq_range', List.drop_range', List.mem_range'_1, List.length_append]
  omega

theorem picks_perm {es rest : List Value} {e : Value} (pick : (e, rest) ∈ picks es) : (e :: rest).Perm es := by
  induction es generalizing rest with
  | nil => cases pick
  | cons d es ih =>
    rcases List.mem_cons.1 pick with here | later
    · cases here
      exact .refl _
    · obtain ⟨q, inside, same⟩ := List.mem_map.1 later
      cases same
      exact (List.Perm.swap ..).trans ((ih inside).cons d)

end Search

section Congruence

variable {σ α β : Type}

theorem option_congr {x y : Step σ (Option α)} {f g : Option α → Step σ β} (first : x = y)
    (absent : f none = g none) (found : ∀ a, f (some a) = g (some a)) : x >>= f = y >>= g := by
  rw [first]
  refine bind_congr fun r => ?_
  cases r with
  | none => exact absent
  | some a => exact found a

theorem collect_congr {all : Bool} {f g : α → Step σ (List β)} (each : ∀ x, f x = g x) (xs : List α) :
    collect all f xs = collect all g xs := by
  rw [funext each]

theorem firstOf_congr {f g : α → Step σ (Option β)} {xs : List α} (each : ∀ x ∈ xs, f x = g x) :
    firstOf f xs = firstOf g xs := by
  induction xs with
  | nil => rfl
  | cons x xs ih =>
    refine option_congr (each x (List.mem_cons_self ..)) ?_ fun _ => rfl
    exact ih fun y member => each y (List.mem_cons_of_mem x member)

end Congruence

variable {σ : Type} {m : Settings σ} {attrs : Option SymbolSet} {depth : Nat} {p e : Value} {b : Bindings}

/-- What a pattern of a given shape does with a value, where it is not too deep. -/
def matchShape (m : Settings σ) (attrs : Option SymbolSet) (depth : Nat) (e : Value) (b : Bindings) :
    Shape → Step σ (Option Bindings)
  | .verbatim none | .condition none _ | .test none | .except none _ | .repeated none | .repeatedNull none
  | .foreign => return none
  | .verbatim (some v) | .literal v => return if v.equal e then some b else none
  | .blank c => do return if ← Step.ofExcept (accepts c e) then some b else none
  | .named name none => Step.ofExcept (bindName b name e)
  | .named name (some q) => do
    match ← matchOne m none (depth + 1) q e b with
    | none => return none
    | some c => Step.ofExcept (bindName c name e)
  | .condition (some q) test => do
    match ← matchOne m attrs (depth + 1) q e b, test with
    | none, _ => return none
    | some c, none => return some c
    | some c, some t => runTest m (c.substitute t) c
  | .alternatives ps => firstOf (fun q => matchOne m none (depth + 1) q e b) ps
  | .test (some (q, f)) => do
    match ← matchOne m attrs (depth + 1) q e b with
    | none => return none
    | some c => runTest m (f.apply [e]) c
  | .except (some x) none => do
    return if (← matchOne m attrs (depth + 1) x e b).isSome then none else some b
  | .except (some x) (some q) => do
    if (← matchOne m attrs (depth + 1) x e b).isSome then return none
    matchOne m attrs (depth + 1) q e b
  | .repeated (some q) => matchOne m attrs (depth + 1) q e b
  | .repeatedNull (some q) => do return (← matchOne m attrs (depth + 1) q e b).or (some b)
  | .compound h as =>
    match e with
    | .expr k es t => do
      match ← matchOne m attrs (depth + 1) h k b with
      | none => return none
      | some c =>
        let effective := attrs.getD t
        let flat := effective.contains Attribute.flat
        let found ← matchMany m false (effective.contains Attribute.orderless) (depth + 1)
          (if flat then flatten h as else as) (if flat then flatten k es else es) c
        return found.head?
    | _ => return none

theorem matchOne_eq : matchOne m attrs depth p e b =
    if (depth : Int) > m.maxDepth then return none else matchShape m attrs depth e b (shape (unwrapHold p)) := by
  rw [matchOne]
  split
  · rfl
  · split
    all_goals
      next form =>
      rw [form]
      first | rfl | exact firstOf_attach (f := fun q => matchOne m none (depth + 1) q e b) _

/-- What a list of patterns does with a list of values, by the role of its first pattern. -/
def matchRole (m : Settings σ) (all orderless : Bool) (depth : Nat) (p : Value) (rest es : List Value) (b : Bindings) :
    Role → Step σ (List Bindings)
  | .optional none _ | .repeated none _ => return []
  | .optional (some q) default => do
    let present ← matchMany m all orderless (depth + 1) (q :: rest) es b
    if !all && !present.isEmpty then return present
    match ← Step.ofExcept (skipOptional b q default) with
    | some c => return present ++ (← matchMany m all orderless (depth + 1) rest es c)
    | none => return present
  | .segment name atLeast constraint =>
    collect all (fun (front, back) => do
      if ← Step.ofExcept (acceptsAll constraint front) then
        match ← Step.ofExcept (bindName b name (ofItems front)) with
        | some c => matchMany m all orderless (depth + 1) rest back c
        | none => return []
      else return []) (cuts atLeast (neededAfterSegment rest) es)
  | .repeated (some q) atLeast =>
    collect all (fun (front, back) => do
      match ← threadAll (fun e c => matchOne m none (depth + 1) q e c) front b with
      | some c => matchMany m all orderless (depth + 1) rest back c
      | none => return []) (cuts atLeast (needed rest) es)
  | .single =>
    match es with
    | [] => return []
    | e :: later =>
      if orderless then
        collect all (fun (x, others) => do
          match ← matchOne m none (depth + 1) p x b with
          | some c => matchMany m all false (depth + 1) rest others c
          | none => return []) (picks (e :: later))
      else do
        match ← matchOne m none (depth + 1) p e b with
        | some c => matchMany m all orderless (depth + 1) rest later c
        | none => return []

theorem matchMany_eq {all orderless : Bool} {rest es : List Value} :
    matchMany m all orderless depth (p :: rest) es b = matchRole m all orderless depth p rest es b (role p) := by
  rw [matchMany.eq_def]
  dsimp only
  split
  all_goals
    next form =>
    rw [form]
    rfl

theorem matchOne_of_shape {form : Shape} (formed : shape (unwrapHold p) = form) :
    matchOne m attrs depth p e b =
      if (depth : Int) > m.maxDepth then return none else matchShape m attrs depth e b form := by
  rw [matchOne_eq, formed]

theorem matchOne_comparison {v : Value}
    (form : shape (unwrapHold p) = .verbatim (some v) ∨ shape (unwrapHold p) = .literal v) :
    matchOne m attrs depth p e b =
      if (depth : Int) > m.maxDepth then return none
      else return if v.equal e then some b else none := by
  rcases form with form | form
  all_goals
    rw [matchOne_eq, form]
    rfl

variable {all orderless : Bool} {rest es : List Value}

theorem matchMany_segment {name c : Option Value} {n : Nat} (takes : role p = .segment name n c) :
    matchMany m all orderless depth (p :: rest) es b =
      collect all (fun (front, back) => do
        if ← Step.ofExcept (acceptsAll c front) then
          match ← Step.ofExcept (bindName b name (ofItems front)) with
          | some c => matchMany m all orderless (depth + 1) rest back c
          | none => return []
        else return []) (cuts n (neededAfterSegment rest) es) := by
  rw [matchMany_eq, takes]
  rfl

theorem matchMany_single (takes : role p = .single) :
    matchMany m all false depth (p :: rest) es b =
      match es with
      | [] => return []
      | e :: later => do
        match ← matchOne m none (depth + 1) p e b with
        | some c => matchMany m all false (depth + 1) rest later c
        | none => return [] := by
  rw [matchMany_eq, takes]
  rfl

variable {s : Bindings} {found : List Bindings} {st st' : σ}

/-- What a segment pattern led to: some values in front that it accepts and binds, and a match of the rest. -/
theorem segment_found {name c : Option Value} {n : Nat} (takes : role p = .segment name n c)
    (run : matchMany m all orderless depth (p :: rest) es b st = .ok found st') (member : s ∈ found) :
    ∃ front back d u v part, front ++ back = es ∧ n ≤ front.length ∧ acceptsAll c front = .ok true ∧
      bindName b name (ofItems front) = .ok (some d) ∧
      matchMany m all orderless (depth + 1) rest back d u = .ok part v ∧ s ∈ part := by
  rw [matchMany_segment takes] at run
  obtain ⟨⟨front, back⟩, cut, u, v, part, tried, inside⟩ := collect_found run member
  obtain ⟨whole, long⟩ := cuts_append cut
  obtain ⟨accepted, u1, tested, bound⟩ := Step.bind_ok tried
  obtain ⟨accepts, rfl⟩ := Step.ofExcept_ok.1 tested
  cases accepted with
  | false =>
    obtain ⟨rfl, _⟩ := Step.pure_ok.1 bound
    cases inside
  | true =>
    obtain ⟨first, u2, named, more⟩ := Step.bind_ok bound
    obtain ⟨binds, rfl⟩ := Step.ofExcept_ok.1 named
    cases first with
    | none =>
      obtain ⟨rfl, _⟩ := Step.pure_ok.1 more
      cases inside
    | some d => exact ⟨front, back, d, u, v, part, whole, long, accepts, binds, more, inside⟩

/-- What a pattern for one value led to: a match of the first value and one of the rest. -/
theorem single_found (takes : role p = .single)
    (run : matchMany m all false depth (p :: rest) es b st = .ok found st') (member : s ∈ found) :
    ∃ e later d u, es = e :: later ∧ matchOne m none (depth + 1) p e b st = .ok (some d) u ∧
      matchMany m all false (depth + 1) rest later d u = .ok found st' := by
  rw [matchMany_single takes] at run
  cases es with
  | nil =>
    obtain ⟨rfl, _⟩ := Step.pure_ok.1 run
    cases member
  | cons e later =>
    obtain ⟨first, u, matched, more⟩ := Step.bind_ok run
    cases first with
    | none =>
      obtain ⟨rfl, _⟩ := Step.pure_ok.1 more
      cases member
    | some d => exact ⟨e, later, d, u, rfl, matched, more⟩

end Symbolic.Pattern
