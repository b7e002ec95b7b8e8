import Symbolic.Proofs.Pattern.Counterparts

/-!
Changes that matching goes along with. Suppose that patterns are changed in such a way that
their shapes and roles stay what they are, up to names and inner patterns, and that bindings
are changed in such a way that binding a name comes to the same. Then matching the changed
patterns, from the changed bindings, finds what it found before, changed in the same way
(`Transports.matching`). Patterns, values and bindings can be asked to be fit for the change;
what is found is fit then. So what bindings keep when one name is bound, they keep in a whole match
(`matching_keeps`).
-/
namespace Symbolic

namespace Step

variable {σ α β : Type} {g : α → α} {h : β → β} {Q : α → Prop} {R : β → Prop}

/-- The second computation does what the first one does, with its result changed, and every result of
the first one has a property. -/
structure Mapped (g : α → α) (Q : α → Prop) (x y : Step σ α) : Prop where
  same : y = g <$> x
  yields : x.Yields Q

theorem Mapped.pure {a : α} (holds : Q a) : Mapped (σ := σ) g Q (pure a) (Pure.pure (g a)) :=
  ⟨rfl, .pure holds⟩

theorem Mapped.unchanged (x : Step σ α) : Mapped id (fun _ => True) x x :=
  ⟨(id_map x).symm, .any x⟩

theorem Mapped.ofExcept {r q : Except Error α} (same : q = g <$> r) (holds : ∀ a, r = .ok a → Q a) :
    Mapped (σ := σ) g Q (ofExcept r) (ofExcept q) := by
  subst same
  refine ⟨?_, .ofExcept holds⟩
  cases r <;> rfl

/-- Such computations go the same way. -/
theorem mapped_iff_twins {x y : Step σ α} : Mapped g Q x y ↔ Twins (fun a b => Q a ∧ b = g a) x y := by
  constructor
  · rintro ⟨rfl, yields⟩ s
    cases run : x s with
    | ok a t => exact .inl ⟨a, g a, t, rfl, by rw [map_eq_pure_bind, bind_of_ok run]; rfl, yields s a t run, rfl⟩
    | error h t => exact .inr ⟨h, t, rfl, by rw [map_eq_pure_bind, bind_of_error run]⟩
  · intro twins
    refine ⟨funext fun s => ?_, fun s a t run => ?_⟩
    · rcases twins s with ⟨a, b, t, left, right, _, rfl⟩ | ⟨h, t, left, right⟩
      · rw [map_eq_pure_bind, bind_of_ok left, right]
        rfl
      · rw [map_eq_pure_bind, bind_of_error left, right]
    · rcases twins s with ⟨_, _, _, left, _, holds, _⟩ | ⟨_, _, left, _⟩
      · cases run.symm.trans left
        exact holds
      · cases run.symm.trans left

theorem Mapped.bind {x y : Step σ α} {k l : α → Step σ β} (first : Mapped g Q x y)
    (next : ∀ a, Q a → Mapped h R (k a) (l (g a))) : Mapped h R (x >>= k) (y >>= l) := by
  refine ⟨?_, first.yields.bind fun a holds => (next a holds).yields⟩
  rw [first.same, bind_map_left, map_bind]
  funext s
  cases run : x s with
  | ok a t =>
    rw [bind_of_ok run, bind_of_ok run, (next a (first.yields s a t run)).same]
  | error e t => rw [bind_of_error run, bind_of_error run]

end Step

namespace Pattern

open Value Step

theorem forall₂_changed {α : Type} {P : α → Prop} {g : α → α} {xs ys : List α} :
    List.Forall₂ (fun x y => P x ∧ y = g x) xs ys ↔ (∀ x ∈ xs, P x) ∧ ys = xs.map g := by
  have turned : (fun x y => y = g x) = fun x y => g x = y := funext fun x => funext fun y => propext eq_comm
  rw [List.forall₂_and_left, turned, ← List.forall₂_map_left_iff, List.forall₂_eq_eq_eq, eq_comm]

theorem forall₂_unchanged {α : Type} {P : α → Prop} {xs ys : List α} :
    List.Forall₂ (fun x y => P x ∧ y = x) xs ys ↔ (∀ x ∈ xs, P x) ∧ ys = xs := by
  have same : List.Forall₂ (fun x y => P x ∧ y = id x) xs ys ↔ _ := forall₂_changed
  rwa [List.map_id] at same

section Search

variable {σ α : Type} {f : Bindings → Bindings} {K : Bindings → Prop}

/-- Two searches for one match, of which the second finds what the first one finds, changed. -/
abbrev Carried (f : Bindings → Bindings) (K : Bindings → Prop) : (x y : Step σ (Option Bindings)) → Prop :=
  Mapped (Option.map f) fun found => ∀ c ∈ found, K c

abbrev CarriedAll (f : Bindings → Bindings) (K : Bindings → Prop) : (x y : Step σ (List Bindings)) → Prop :=
  Mapped (List.map f) fun found => ∀ c ∈ found, K c

/-- A search with fit results, for a change that changes nothing. -/
theorem Carried.of_yields {x : Step σ (Option Bindings)} (yields : x.Yields fun found => ∀ c ∈ found, K c) :
    Carried id K x x :=
  ⟨by rw [Option.map_id, id_map], yields⟩

theorem Carried.none : Carried (σ := σ) f K (pure .none) (pure .none) := .pure nofun

theorem Carried.some {b : Bindings} (fit : K b) : Carried (σ := σ) f K (pure (.some b)) (pure (.some (f b))) :=
  .pure fun _ member => Option.some.inj member ▸ fit

theorem Carried.chosen {b : Bindings} (fit : K b) (test : Bool) :
    Carried (σ := σ) f K (pure (if test then .some b else .none)) (pure (if test then .some (f b) else .none)) := by
  cases test with
  | false => exact .none
  | true => exact .some fit

/-- The second search finds counterparts if what it finds is the change of what the first one finds. -/
theorem carried_iff {x y : Step σ (Option Bindings)} : Carried f K x y ↔ Concords (fun b c => K b ∧ c = f b) x y := by
  refine mapped_iff_twins.trans (iff_of_eq (congrArg (fun R => Twins R x y) ?_))
  funext found other
  refine propext ⟨?_, ?_⟩
  · rintro ⟨fits, rfl⟩
    cases found with
    | none => exact .none
    | some c => exact .some ⟨fits c rfl, rfl⟩
  · intro related
    cases related with
    | none => exact ⟨fun c member => (by cases member), rfl⟩
    | some fit => exact ⟨fun c member => Option.some.inj member ▸ fit.1, congrArg some fit.2⟩

theorem carriedAll_iff {x y : Step σ (List Bindings)} :
    CarriedAll f K x y ↔ ConcordsAll (fun b c => K b ∧ c = f b) x y := by
  refine mapped_iff_twins.trans (iff_of_eq (congrArg (fun R => Twins R x y) ?_))
  funext found others
  exact propext forall₂_changed.symm

theorem runTest_idle {m : Settings σ} (idle : m.evaluator = none) (test other : Except Error Value) (b c : Bindings) :
    Carried f K (runTest m test b) (runTest m other c) := by
  rw [runTest, runTest, idle]
  exact Carried.none

theorem runTest_kept (m : Settings σ) (test : Except Error Value) {b : Bindings} (fit : K b) :
    Carried id K (runTest m test b) (runTest m test b) := by
  unfold runTest
  split
  · exact Carried.none
  · exact (Mapped.unchanged _).bind fun v _ => (Mapped.unchanged _).bind fun r _ => Carried.chosen fit _

end Search

/-- A change of names, of patterns and of bindings that matching goes along with, for patterns, values and bindings
that are fit for it. -/
structure Transports {σ : Type} (m : Settings σ) (ν φ : Value → Value) (f : Bindings → Bindings) (W E : Value → Prop)
    (K : Bindings → Prop) : Prop where
  patterns : Descends W
  values : Hereditary E
  items {es : List Value} (elements : ∀ e ∈ es, E e) : E (ofItems es)
  shape {p : Value} (fit : W p) : shape (unwrapHold (φ p)) = (shape (unwrapHold p)).map ν φ
  role {p : Value} (fit : W p) : role (φ p) = (role p).map ν φ
  hasHead {p : Value} (fit : W p) (name : String) : (φ p).hasHead name = p.hasHead name
  flatten {p h : Value} {as : List Value} (fit : W p) (form : Pattern.shape (unwrapHold p) = .compound h as) :
    Pattern.flatten (φ h) (as.map φ) = (Pattern.flatten h as).map φ
  /-- Binding the name of a pattern comes to the same. -/
  named {p v : Value} {name inner : Option Value} {b : Bindings} (fit : W p)
    (form : Pattern.shape (unwrapHold p) = .named name inner) (fits : K b) (element : E v) :
    Carried (σ := σ) f K (ofExcept (bindName b name v)) (ofExcept (bindName (f b) (name.map ν) v))
  /-- So does binding the name of a segment. -/
  captured {p v : Value} {name c : Option Value} {n : Nat} {b : Bindings} (fit : W p)
    (form : Pattern.role p = .segment name n c) (fits : K b) (element : E v) :
    Carried (σ := σ) f K (ofExcept (bindName b name v)) (ofExcept (bindName (f b) (name.map ν) v))
  /-- So does giving a pattern that is left out its default. -/
  skipped {p q : Value} {default : Option Value} {b : Bindings} (fit : W p)
    (form : Pattern.role p = .optional (some q) default) (fits : K b) :
    Carried (σ := σ) f K (ofExcept (skipOptional b q default)) (ofExcept (skipOptional (f b) (φ q) default))
  /-- A condition, which is told the bindings, comes to the same. -/
  checked {p q t : Value} {b : Bindings} (fit : W p) (form : Pattern.shape (unwrapHold p) = .condition (some q) (some t))
    (fits : K b) : Carried f K (runTest m (b.substitute t) b) (runTest m ((f b).substitute t) (f b))
  tested {p q g e : Value} {b : Bindings} (fit : W p) (form : Pattern.shape (unwrapHold p) = .test (some (q, g)))
    (fits : K b) : Carried f K (runTest m (g.apply [e]) b) (runTest m (g.apply [e]) (f b))

namespace Transports

section Unchanged

variable {σ : Type} {m : Settings σ} {f : Bindings → Bindings} {W E : Value → Prop} {K : Bindings → Prop}

/-- A change of bindings alone, for patterns that are told by their forms. -/
theorem ofForms (patterns : Descends W) (values : Hereditary E)
    (items : ∀ {es : List Value}, (∀ e ∈ es, E e) → E (ofItems es))
    (named : ∀ {p v : Value} {name : Option Value} {b : Bindings}, W p →
      ((∃ inner, Pattern.shape (unwrapHold p) = .named name inner) ∨ ∃ n c, Pattern.role p = .segment name n c) →
      K b → E v → Carried (σ := σ) f K (ofExcept (bindName b name v)) (ofExcept (bindName (f b) name v)))
    (skipped : ∀ {p q : Value} {default : Option Value} {b : Bindings}, W p →
      Pattern.role p = .optional (some q) default → K b →
      Carried (σ := σ) f K (ofExcept (skipOptional b q default)) (ofExcept (skipOptional (f b) q default)))
    (checked : ∀ {b : Bindings} (t : Value), K b →
      Carried f K (runTest m (b.substitute t) b) (runTest m ((f b).substitute t) (f b)))
    (tested : ∀ {b : Bindings} (test : Except Error Value), K b →
      Carried f K (runTest m test b) (runTest m test (f b))) : Transports m id id f W E K where
  patterns := patterns
  values := values
  items := items
  shape _ := (Shape.map_id _).symm
  role _ := (Role.map_id _).symm
  hasHead _ _ := rfl
  flatten _ _ := by rw [List.map_id, List.map_id, id]
  named {_ _ _ inner _} fit form fits element := by
    rw [Option.map_id, id]
    exact named fit (.inl ⟨inner, form⟩) fits element
  captured {_ _ _ c n _} fit form fits element := by
    rw [Option.map_id, id]
    exact named fit (.inr ⟨n, c, form⟩) fits element
  skipped fit form fits := skipped fit form fits
  checked _ _ fits := checked _ fits
  tested _ _ fits := tested _ fits

/-- A change of bindings alone, for patterns all parts of which are fit for it. -/
theorem unchanged (patterns : Hereditary W) (values : Hereditary E)
    (items : ∀ {es : List Value}, (∀ e ∈ es, E e) → E (ofItems es))
    (named : ∀ {b : Bindings} {name : Option Value} {v : Value}, (∀ n ∈ name, W n) → K b → E v →
      Carried (σ := σ) f K (ofExcept (bindName b name v)) (ofExcept (bindName (f b) name v)))
    (skipped : ∀ {b : Bindings} {q : Value} {default : Option Value}, W q → (∀ v ∈ default, W v) → K b →
      Carried (σ := σ) f K (ofExcept (skipOptional b q default)) (ofExcept (skipOptional (f b) q default)))
    (checked : ∀ {b : Bindings} (t : Value), K b →
      Carried f K (runTest m (b.substitute t) b) (runTest m ((f b).substitute t) (f b)))
    (tested : ∀ {b : Bindings} (test : Except Error Value), K b →
      Carried f K (runTest m test b) (runTest m test (f b))) : Transports m id id f W E K := by
  refine ofForms patterns.descends values items (fun fit form => named fun n given => ?_) (fun fit form => ?_)
    checked tested
  · rcases form with ⟨inner, form⟩ | ⟨least, c, form⟩
    · exact patterns.name fit (given ▸ form)
    · exact patterns.role fit (by simp [form, Role.parts, Option.mem_def.1 given])
  · refine skipped (patterns.role fit (by simp [form, Role.parts])) fun v given => ?_
    exact patterns.of_mem_args fit (default_of_role (given ▸ form))

end Unchanged

variable {σ : Type} {m : Settings σ} {ν φ : Value → Value} {f : Bindings → Bindings} {W E : Value → Prop}
  {K : Bindings → Prop} (T : Transports m ν φ f W E K)

include T

/-- A change of patterns and bindings leaves values as they are. -/
theorem counterparts : Counterparts m m ν φ W (fun v w => E v ∧ w = v) (fun b c => K b ∧ c = f b) where
  depths := rfl
  patterns := T.patterns
  shape := T.shape
  role := T.role
  hasHead := T.hasHead
  flatten := T.flatten
  expr := by
    rintro h v as t ⟨element, rfl⟩
    exact ⟨h, as, rfl, ⟨T.values.head element, rfl⟩, forall₂_unchanged.2 ⟨T.values.arg element, rfl⟩⟩
  isExpr paired := by rw [paired.2]
  items paired := by
    obtain ⟨elements, rfl⟩ := forall₂_unchanged.1 paired
    exact ⟨T.items elements, rfl⟩
  flattened head args := by
    obtain ⟨elements, rfl⟩ := forall₂_unchanged.1 args
    rw [head.2]
    exact forall₂_unchanged.2 ⟨T.values.flatten elements, rfl⟩
  equal u := fun paired => by rw [paired.2]
  accepts c := fun paired => by rw [paired.2]
  named fit form fits paired := by
    rw [fits.2, paired.2]
    exact carried_iff.1 (T.named fit form fits.1 paired.1)
  captured fit form fits paired := by
    rw [fits.2, paired.2]
    exact carried_iff.1 (T.captured fit form fits.1 paired.1)
  skipped fit form fits := by
    rw [fits.2]
    exact carried_iff.1 (T.skipped fit form fits.1)
  checked fit form fits := by
    rw [fits.2]
    exact carried_iff.1 (T.checked fit form fits.1)
  tested fit form fits paired := by
    rw [fits.2, paired.2]
    exact carried_iff.1 (T.tested fit form fits.1)

/-- Matching changed patterns from changed bindings finds what it finds without the change, changed. -/
theorem matching :
    (∀ attrs depth p e b, W p → E e → K b →
      Carried f K (matchOne m attrs depth p e b) (matchOne m attrs depth (φ p) e (f b))) ∧
    ∀ all orderless depth ps es b, (∀ p ∈ ps, W p) → (∀ e ∈ es, E e) → K b →
      CarriedAll f K (matchMany m all orderless depth ps es b)
        (matchMany m all orderless depth (ps.map φ) es (f b)) := by
  obtain ⟨one, many⟩ := T.counterparts.matching
  constructor
  · intro attrs depth p e b fit element fits
    exact carried_iff.2 (one attrs depth p e b fit e (f b) ⟨element, rfl⟩ ⟨fits, rfl⟩)
  · intro all orderless depth ps es b fit elements fits
    have same := forall₂_unchanged.2 ⟨elements, rfl⟩
    exact carriedAll_iff.2 (many all orderless depth ps es b fit es (f b) same ⟨fits, rfl⟩)

end Transports

/-! ### What binding a name keeps -/

section Keeping

variable {σ : Type} {W : Value → Prop} {K : Bindings → Prop} {b c : Bindings} {v : Value}

/-- Bindings that a name was bound in are the old ones, or those that the binding comes to. -/
theorem bindName_found {name : Option Value} (found : bindName b name v = .ok (some c)) :
    c = b ∨ ∃ x, name = some (.symbol x) ∧ b.bind x v = .ok c := by
  unfold bindName at found
  split at found
  · cases found
    exact .inl rfl
  · next n =>
    split at found
    · next d bound =>
      cases found
      cases n with
      | symbol x => exact .inr ⟨x, rfl, bound⟩
      | _ => cases bound
    · cases found
    · cases found

/-- Bindings keep a property when a name is bound to a value that is fit for it. -/
def Keeps (W : Value → Prop) (K : Bindings → Prop) : Prop :=
  ∀ ⦃b c : Bindings⦄ ⦃x : Symbol⦄ ⦃v : Value⦄, K b → W v → b.bind x v = .ok c → K c

variable (keeps : Keeps W K)

include keeps

theorem bindName_kept (name : Option Value) (fits : K b) (fit : W v) :
    (ofExcept (bindName b name v) : Step σ _).Yields fun found => ∀ c ∈ found, K c := by
  refine .ofExcept fun found run c is => ?_
  cases is
  rcases bindName_found run with rfl | ⟨x, _, bound⟩
  · exact fits
  · exact keeps fits fit bound

theorem skipOptional_kept (q : Value) {default : Option Value} (fits : K b) (fit : ∀ v ∈ default, W v) :
    (ofExcept (skipOptional b q default) : Step σ _).Yields fun found => ∀ c ∈ found, K c := by
  unfold skipOptional
  repeat' split
  · exact .pure nofun
  · exact bindName_kept keeps _ fits (fit _ rfl)
  · exact .pure nofun
  · exact .pure fun c is => Option.some.inj is ▸ fits
  · exact .pure nofun

/-- What bindings keep when one name is bound, they keep in a match. -/
theorem matching_keeps (m : Settings σ) (hereditary : Hereditary W)
    (items : ∀ {es : List Value}, (∀ e ∈ es, W e) → W (ofItems es)) :
    (∀ attrs depth p e b, W p → W e → K b →
      (matchOne m attrs depth p e b).Yields fun found => ∀ c ∈ found, K c) ∧
    ∀ all orderless depth ps es b, (∀ p ∈ ps, W p) → (∀ e ∈ es, W e) → K b →
      (matchMany m all orderless depth ps es b).Yields fun found => ∀ c ∈ found, K c := by
  have kept : Transports m id id id W W K :=
    .unchanged hereditary hereditary items
      (fun _ fits fit => .of_yields (bindName_kept keeps _ fits fit))
      (fun _ fit fits => .of_yields (skipOptional_kept keeps _ fits fit))
      (fun _ fits => runTest_kept m _ fits) fun _ fits => runTest_kept m _ fits
  constructor
  · intro attrs depth p e b fit element fits
    exact (kept.matching.1 attrs depth p e b fit element fits).yields
  · intro all orderless depth ps es b fit elements fits
    exact (kept.matching.2 all orderless depth ps es b fit elements fits).yields

end Keeping

end Pattern
end Symbolic
