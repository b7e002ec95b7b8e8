import Symbolic.Proofs.Pattern.Calls

/-!
What a depth limit does to a match. A part that lies too deep is taken not to match. Where the whole
then does not match either, a limit only loses matches. But a search can also go on after a
failure: with the next alternative, the next cut, without an optional pattern, or because a
pattern is excluded. Whatever is found with a limit is found with a larger one, with the same bindings, unless a
failure that was passed over is none with the larger limit (`cutoff_fail_safe`).
-/
namespace Symbolic.Pattern

open Value Step

section Runs

variable {σ : Type}

/-- A search that finds something passes over one that does not, and that ends in another way with other settings. -/
inductive Diverted (m m' : Settings σ) : Call σ → Prop
  | here {c d : Call σ} {ends : Bool} (made : Makes m c ends d) (nothing : ¬ Found (d.run m))
    (differs : d.run m' ≠ d.run m) : Diverted m m' c
  | inside {c d : Call σ} {ends : Bool} (made : Makes m c ends d) (found : Found (d.run m))
    (inner : Diverted m m' d) : Diverted m m' c

/-- A search that finds something may not find anything with other settings: it passes over one that ends in
another way there, but not with something that would do; or what it goes on from was diverted. -/
inductive Lost (m m' : Settings σ) : Call σ → Prop
  | here {c d : Call σ} {ends : Bool} (made : Makes m c ends d) (nothing : ¬ Found (d.run m))
    (differs : d.run m' ≠ d.run m) (useless : ends = true → ¬ Found (d.run m')) : Lost m m' c
  | before {c d : Call σ} (made : Makes m c false d) (found : Found (d.run m)) (inner : Diverted m m' d) : Lost m m' c
  | inside {c d : Call σ} (made : Makes m c true d) (found : Found (d.run m)) (inner : Lost m m' d) : Lost m m' c

variable {evaluator : Option (Value → Step σ Value)} {limit limit' : Int}

theorem isWithin_of_found {c : Call σ} (found : Found (c.run ⟨evaluator, limit⟩)) : c.IsWithin limit := by
  cases c with
  | one attrs depth p e b s =>
    obtain ⟨d, t, run⟩ := found_listed.1 found
    by_contra deep
    rw [matchOne_eq, if_pos (Int.not_le.1 deep)] at run
    cases (pure_ok.1 run).1
  | many orderless depth ps es b s => trivial

theorem Call.IsWithin.mono {c : Call σ} (near : c.IsWithin limit) (le : limit ≤ limit') : c.IsWithin limit' := by
  cases c with
  | one attrs depth p e b s => exact Int.le_trans near le
  | many orderless depth ps es b s => trivial

/-- With a larger limit a search ends as before unless it is diverted. -/
theorem same_or_diverted (le : limit ≤ limit') {c : Call σ} (found : Found (c.run ⟨evaluator, limit⟩)) :
    c.run ⟨evaluator, limit'⟩ = c.run ⟨evaluator, limit⟩ ∨ Diverted ⟨evaluator, limit⟩ ⟨evaluator, limit'⟩ c := by
  by_cases diverted : Diverted ⟨evaluator, limit⟩ ⟨evaluator, limit'⟩ c
  · exact .inr diverted
  have near := isWithin_of_found found
  have made_same : ∀ {ends d}, Makes ⟨evaluator, limit⟩ c ends d →
      d.run ⟨evaluator, limit'⟩ = d.run ⟨evaluator, limit⟩ := by
    intro ends d made
    by_cases foundToo : Found (d.run ⟨evaluator, limit⟩)
    · have smaller := made.size_lt
      exact (same_or_diverted le foundToo).resolve_right fun inner => diverted (.inside made foundToo inner)
    · by_contra differs
      exact diverted (.here made foundToo differs)
  have upholds : Upholds false (c.run ⟨evaluator, limit⟩) (c.run ⟨evaluator, limit'⟩) :=
    upholds_of_made near (near.mono le) (fun _ => made_same) fun _ made => .inl (made_same made)
  exact upholds.imp_right nofun
termination_by c.size

/-- With a larger limit a search finds something too unless it is lost. -/
theorem found_or_lost (le : limit ≤ limit') {c : Call σ} (found : Found (c.run ⟨evaluator, limit⟩)) :
    Found (c.run ⟨evaluator, limit'⟩) ∨ Lost ⟨evaluator, limit⟩ ⟨evaluator, limit'⟩ c := by
  by_cases lost : Lost ⟨evaluator, limit⟩ ⟨evaluator, limit'⟩ c
  · exact .inr lost
  have near := isWithin_of_found found
  have settled : ∀ d, Makes ⟨evaluator, limit⟩ c false d → d.run ⟨evaluator, limit'⟩ = d.run ⟨evaluator, limit⟩ := by
    intro d made
    by_cases foundToo : Found (d.run ⟨evaluator, limit⟩)
    · exact (same_or_diverted le foundToo).resolve_right fun inner => lost (.before made foundToo inner)
    · by_contra differs
      exact lost (.here made foundToo differs nofun)
  have ending : ∀ d, Makes ⟨evaluator, limit⟩ c true d →
      Upholds true (d.run ⟨evaluator, limit⟩) (d.run ⟨evaluator, limit'⟩) := by
    intro d made
    by_cases foundToo : Found (d.run ⟨evaluator, limit⟩)
    · have smaller := made.size_lt
      exact .inr ⟨rfl, (found_or_lost le foundToo).resolve_right fun inner => lost (.inside made foundToo inner)⟩
    · by_contra neither
      rw [Upholds, not_or] at neither
      exact lost (.here made foundToo neither.1 fun _ there => neither.2 ⟨rfl, there⟩)
  rcases upholds_of_made near (near.mono le) settled ending with same | there
  · exact .inl (same ▸ found)
  · exact .inl there.2
termination_by c.size

end Runs

/-! ### Patterns that leave nothing to go on with -/

/-- The heads of patterns after whose failure, or after the failure of what follows them, matching goes on. -/
def fallbacks : List String :=
  ["Except", "Alternatives", "Optional", "Repeated", "RepeatedNull", "BlankSequence", "BlankNullSequence"]

/-- Whether a pattern does not match where one of its parts does not. -/
def isDirect (p : Value) : Bool := p.everywhere fun v => !fallbacks.any v.hasHead

/-- Whether the arguments of no expression inside a value can be matched out of order. -/
def keepsOrder (e : Value) : Bool := e.everywhere fun v => !v.attributes.contains Attribute.orderless

theorem contains_of_keepsOrder {h : Value} {as : List Value} {t : SymbolSet}
    (ordered : keepsOrder (.expr h as t) = true) : t.contains Attribute.orderless = false := by
  have here : (!t.contains Attribute.orderless) = true := everywhere_here ordered
  simpa using here

section Direct

variable {σ : Type} {m : Settings σ} {p v : Value} {name : String}

theorem isDirect_here (direct : isDirect v = true) (listed : name ∈ fallbacks) : v.hasHead name = false := by
  have here : (!fallbacks.any v.hasHead) = true := everywhere_here direct
  rw [Bool.not_eq_true', List.any_eq_false] at here
  exact Bool.eq_false_iff.2 (here name listed)

theorem segmentLength?_of_direct (direct : isDirect v = true) : segmentLength? v = none := by
  by_contra some
  obtain ⟨n, length⟩ := Option.ne_none_iff_exists'.1 some
  obtain ⟨_, headed | headed⟩ := segmentLength?_tells length
  all_goals
    rw [isDirect_here direct (by simp [fallbacks])] at headed
    cases headed

theorem role_of_direct (direct : isDirect p = true) : role p = .single := by
  have other : ∀ name ∈ fallbacks, ¬ p.hasHead name = true := fun name listed => by simp [isDirect_here direct listed]
  unfold role
  rw [segmentLength?_of_direct direct, if_neg (other "Optional" (by simp [fallbacks])),
    if_neg (other "Repeated" (by simp [fallbacks])), if_neg (other "RepeatedNull" (by simp [fallbacks]))]
  dsimp only
  split
  · split
    · next inner second =>
      have inside : isDirect inner = true := (hereditary_everywhere _).of_mem_args direct (second?_mem second)
      rw [segmentLength?_of_direct inside]
    · rfl
  · rfl

theorem shape_of_direct (direct : isDirect p = true) :
    (∀ ps, shape (unwrapHold p) ≠ .alternatives ps) ∧ (∀ x q, shape (unwrapHold p) ≠ .except x q) ∧
      (∀ q, shape (unwrapHold p) ≠ .repeated q) ∧ ∀ q, shape (unwrapHold p) ≠ .repeatedNull q := by
  have inside : isDirect (unwrapHold p) = true := (hereditary_everywhere _).unwrapHold direct
  have tells := tells_shape (unwrapHold p)
  refine ⟨fun ps form => ?_, fun x q form => ?_, fun q form => ?_, fun q form => ?_⟩
  all_goals
    rw [form] at tells
    exact Bool.eq_false_iff.1 (isDirect_here inside (by simp [fallbacks])) tells

/-- A direct pattern among arguments has only the first value to take. -/
theorem choice_of_direct {depth : Nat} {rest es front back : List Value} {b : Bindings} {s u : σ}
    (direct : isDirect p = true)
    (tried : Tries (attempt m false depth p rest b) (choices false rest es (role p)) s (front, back) u) :
    ∃ e, es = e :: back ∧ front = [e] ∧ u = s := by
  rw [role_of_direct direct] at tried
  cases es with
  | nil => cases tried
  | cons e later =>
    change Tries _ [([e], later)] s (front, back) u at tried
    cases tried with
    | here => exact ⟨e, rfl, rfl, rfl⟩
    | later _ none => cases none

theorem found_of_direct {depth : Nat} {e : Value} {rest later : List Value} {b : Bindings} {s : σ}
    (direct : isDirect p = true) (found : Found (matchMany m false false depth (p :: rest) (e :: later) b s)) :
    ∃ c u, matchOne m none (depth + 1) p e b s = .ok (some c) u ∧
      Found (matchMany m false false (depth + 1) rest later c u) := by
  obtain ⟨list, t, run, some⟩ := found
  obtain ⟨d, member⟩ := List.exists_mem_of_ne_nil list some
  obtain ⟨_, _, c, u, same, matched, more⟩ := single_found (role_of_direct direct) run member
  cases same
  exact ⟨c, u, matched, list, t, more, some⟩

/-- A search for patterns that are direct, in values whose arguments stay in order. -/
def Call.IsDirect : Call σ → Prop
  | .one attrs _ p e _ _ =>
    isDirect p = true ∧ keepsOrder e = true ∧ ∀ a ∈ attrs, a.contains Attribute.orderless = false
  | .many orderless _ ps es _ _ =>
    orderless = false ∧ (∀ p ∈ ps, isDirect p = true) ∧ ∀ e ∈ es, keepsOrder e = true

/-- A step that fails if the first one does has a result only if the first has. -/
theorem first_found {α β : Type} {x : Step σ (Option α)} {f : Option α → Step σ (Option β)} {c : β} {s t : σ}
    (run : (x >>= f) s = .ok (some c) t) (stops : f none = pure none) :
    ∃ a u, x s = .ok (some a) u ∧ f (some a) u = .ok (some c) t := by
  obtain ⟨r, u, first, rest⟩ := bind_ok run
  cases r with
  | none =>
    rw [stops] at rest
    cases (pure_ok.1 rest).1
  | some a => exact ⟨a, u, first, rest⟩

theorem matchShape_of_found {attrs : Option SymbolSet} {depth : Nat} {e : Value} {b : Bindings} {s : σ}
    (found : Found ((Call.one attrs depth p e b s).run m)) :
    ∃ c t, matchShape m attrs depth e b (shape (unwrapHold p)) s = .ok (some c) t := by
  obtain ⟨c, t, run⟩ := found_listed.1 found
  rw [matchOne_eq] at run
  split at run
  · cases (pure_ok.1 run).1
  · exact ⟨c, t, run⟩

/-- In a search for a direct pattern that finds something, every search that it makes finds something. -/
theorem Makes.found_direct {c d : Call σ} {ends : Bool} (made : Makes m c ends d) (direct : c.IsDirect)
    (found : Found (c.run m)) : Found (d.run m) ∧ d.IsDirect := by
  cases made with
  | named form =>
    obtain ⟨c, t, run⟩ := matchShape_of_found found
    rw [form, matchShape] at run
    obtain ⟨a, u, first, _⟩ := first_found run rfl
    refine ⟨found_listed.2 ⟨a, u, first⟩, ?_, direct.2.1, by simp⟩
    exact (hereditary_everywhere _).part direct.1 (by simp [form, Shape.parts])
  | condition form | test form =>
    obtain ⟨c, t, run⟩ := matchShape_of_found found
    rw [form, matchShape] at run
    obtain ⟨a, u, first, _⟩ := first_found run rfl
    refine ⟨found_listed.2 ⟨a, u, first⟩, ?_, direct.2⟩
    exact (hereditary_everywhere _).part direct.1 (by simp [form, Shape.parts])
  | head form =>
    obtain ⟨c, t, run⟩ := matchShape_of_found found
    rw [form, matchShape] at run
    obtain ⟨a, u, first, _⟩ := first_found run rfl
    refine ⟨found_listed.2 ⟨a, u, first⟩, ?_, (hereditary_everywhere _).head direct.2.1, direct.2.2⟩
    exact (hereditary_everywhere _).part direct.1 (by simp [form, Shape.parts])
  | @args attrs depth p h k as es t b c s u flat form headed flattens =>
    obtain ⟨d, v, run⟩ := matchShape_of_found found
    rw [form, matchShape] at run
    obtain ⟨a, w, first, rest⟩ := first_found run rfl
    cases headed.symm.trans first
    obtain ⟨list, w, rest, last⟩ := bind_ok rest
    subst flattens
    refine ⟨⟨list, w, rest, ?_⟩, ?_, ?_, ?_⟩
    · rintro rfl
      cases (pure_ok.1 last).1
    · cases attrs with
      | none => exact contains_of_keepsOrder direct.2.1
      | some a => exact direct.2.2 a rfl
    · have parts : ∀ a ∈ as, isDirect a = true := fun a member =>
        (hereditary_everywhere _).part direct.1 (by simp [form, Shape.parts, member])
      split
      · exact (hereditary_everywhere _).flatten parts
      · exact parts
    · have parts : ∀ a ∈ es, keepsOrder a = true := (hereditary_everywhere _).arg direct.2.1
      split
      · exact (hereditary_everywhere _).flatten parts
      · exact parts
  | alternative form => exact absurd form ((shape_of_direct direct.1).1 _)
  | excluded form => exact absurd form ((shape_of_direct direct.1).2.1 _ _)
  | instead form => exact absurd form ((shape_of_direct direct.1).2.1 _ _)
  | repeated form =>
    rcases form with form | form
    · exact absurd form ((shape_of_direct direct.1).2.2.1 _)
    · exact absurd form ((shape_of_direct direct.1).2.2.2 _)
  | present form =>
    rw [role_of_direct (direct.2.1 _ (List.mem_cons_self ..))] at form
    cases form
  | absent form =>
    rw [role_of_direct (direct.2.1 _ (List.mem_cons_self ..))] at form
    cases form
  | @each orderless depth p q x rest es front back b c s u v takes tried reached =>
    obtain ⟨rfl, patterns, values⟩ := direct
    have first : isDirect p = true := patterns p (List.mem_cons_self ..)
    obtain ⟨e, rfl, rfl, rfl⟩ := choice_of_direct first tried
    rw [role_of_direct first] at takes
    cases takes
    obtain ⟨d, u, matched, _⟩ := found_of_direct first found
    cases reached with
    | here => exact ⟨found_listed.2 ⟨d, u, matched⟩, first, values _ (List.mem_cons_self ..), by simp⟩
    | later _ none => cases none
  | @rest orderless depth p rest es front back b c s u v tried taken =>
    obtain ⟨rfl, patterns, values⟩ := direct
    have first : isDirect p = true := patterns p (List.mem_cons_self ..)
    obtain ⟨e, rfl, rfl, rfl⟩ := choice_of_direct first tried
    obtain ⟨d, u, matched, later⟩ := found_of_direct first found
    rw [role_of_direct first] at taken ⊢
    have taken : matchOne m none (depth + 1) p e b _ = .ok (some c) v := (congrFun (threadAll_one ..) _).symm.trans taken
    cases taken.symm.trans matched
    refine ⟨later, rfl, ?_, ?_⟩
    · exact fun q member => patterns q (List.mem_cons_of_mem p member)
    · exact fun x member => values x (List.mem_cons_of_mem e member)

theorem Diverted.not_direct {m' : Settings σ} {c : Call σ} (diverted : Diverted m m' c) (found : Found (c.run m)) :
    ¬ c.IsDirect := by
  intro direct
  induction diverted with
  | here made nothing => exact nothing (made.found_direct direct found).1
  | inside made foundToo _ ih => exact ih foundToo (made.found_direct direct found).2

end Direct

/-- If a pattern matches with a depth limit, it matches with every larger one, unless the search with the smaller limit
passed over a failure that is none with the larger one. It has the same bindings then, unless such a
failure was passed over anywhere on the way. For a pattern in which nothing can be passed over, and for one
that has no part beyond the smaller limit, the larger limit makes no difference. -/
theorem cutoff_fail_safe {σ : Type} (evaluator : Option (Value → Step σ Value)) {limit limit' : Int}
    (le : limit ≤ limit') (attrs : Option SymbolSet) (p e : Value) (b : Bindings) {c : Bindings} {s t : σ}
    (run : matchOne ⟨evaluator, limit⟩ attrs 0 p e b s = .ok (some c) t) :
    ((∃ c' t', matchOne ⟨evaluator, limit'⟩ attrs 0 p e b s = .ok (some c') t') ∨
      Lost ⟨evaluator, limit⟩ ⟨evaluator, limit'⟩ (.one attrs 0 p e b s)) ∧
    (matchOne ⟨evaluator, limit'⟩ attrs 0 p e b s = .ok (some c) t ∨
      Diverted ⟨evaluator, limit⟩ ⟨evaluator, limit'⟩ (.one attrs 0 p e b s)) ∧
    (isDirect p = true → keepsOrder e = true → (∀ a ∈ attrs, a.contains Attribute.orderless = false) →
      matchOne ⟨evaluator, limit'⟩ attrs 0 p e b s = .ok (some c) t) ∧
    ((∀ k, Reaches p k → (k : Int) ≤ limit) → matchOne ⟨evaluator, limit'⟩ attrs 0 p e b s = .ok (some c) t) := by
  have found : Found ((Call.one attrs 0 p e b s).run ⟨evaluator, limit⟩) := found_listed.2 ⟨c, t, run⟩
  have same : matchOne ⟨evaluator, limit'⟩ attrs 0 p e b s = .ok (some c) t ∨
      Diverted ⟨evaluator, limit⟩ ⟨evaluator, limit'⟩ (.one attrs 0 p e b s) :=
    (same_or_diverted le found).imp_left fun ends => (same_of_listed ends).trans run
  refine ⟨(found_or_lost le found).imp_left found_listed.1, same, fun direct ordered unmarked => ?_, fun shallow => ?_⟩
  · exact same.resolve_right fun diverted => diverted.not_direct found ⟨direct, ordered, unmarked⟩
  · have alike : CutAlike limit limit' 0 0 (Reaches p) := fun k reached => by
      have := shallow k reached
      omega
    exact (matchOne_atDepth evaluator alike attrs e b ▸ run)

/-- The pattern `g[x_, f[x_]]`. -/
def twice : Value :=
  let x := call "Pattern" [sym "x", call "Blank" []]
  call "g" [x, call "f" [x]]

theorem cutoff_fail_safe_twice :
    ∃ c, matchOne (σ := Unit) ⟨none, 6⟩ none 0 twice (call "g" [int 1, call "f" [int 1]]) .empty () = .ok (some c) () ∧
      isDirect twice = true ∧
      matchOne (σ := Unit) ⟨none, defaultDepth⟩ none 0 twice (call "g" [int 1, call "f" [int 1]]) .empty () =
        .ok (some c) () := by
  have ran : returns (·.isSome)
      (matchOne (σ := Unit) ⟨none, 6⟩ none 0 twice (call "g" [int 1, call "f" [int 1]]) .empty ()) = true := by
    decide +kernel
  obtain ⟨r, t, run, some⟩ := returns_iff.1 ran
  obtain ⟨c, rfl⟩ := Option.isSome_iff_exists.1 some
  obtain ⟨_, _, direct, _⟩ := cutoff_fail_safe none (by decide : (6 : Int) ≤ defaultDepth) none twice
    (call "g" [int 1, call "f" [int 1]]) .empty run
  exact ⟨c, run, by decide, direct (by decide) (by decide) nofun⟩

/-- `Except[1]` matches 1 if there is no depth for the excluded pattern, and does not with more. If there is no depth
for the first alternative, `f[x : (_) | y_, x_]` matches `f[1, 2]`, and does not with more. -/
theorem cutoff_creates_match :
    let m : Int → Settings Unit := fun limit => ⟨none, limit⟩
    let except := call "Except" [int 1]
    let x := fun p => call "Pattern" [sym "x", p]
    let y := call "Pattern" [sym "y", call "Blank" []]
    let choice := call "Alternatives" [x (call "Alternatives" [call "Blank" []]), y]
    let p := call "f" [choice, x (call "Blank" [])]
    returns (·.isSome) (matchOne (m 0) none 0 except (int 1) .empty ()) = true ∧
      returns (·.isNone) (matchOne (m 128) none 0 except (int 1) .empty ()) = true ∧
      returns (·.isSome) (matchOne (m 4) none 0 p (call "f" [int 1, int 2]) .empty ()) = true ∧
      returns (·.isNone) (matchOne (m 128) none 0 p (call "f" [int 1, int 2]) .empty ()) = true := by
  decide +kernel

end Symbolic.Pattern
