import Symbolic.Proofs.Pattern.Quiet
import Symbolic.Proofs.Pattern.Steps

/-!
How far the order of values counts in an orderless search. For patterns that take one value
each, only the first of them can take any value; those after it take what is left in order. So
an orderless search goes through the arrangements that bring one value to the front
(`matchMany_orderless`), and finds a match exactly if one of them has a match in order
(`orderless_search`). For one or two patterns these are all arrangements; for three they are not.
-/
namespace Symbolic.Pattern

open Value Step

/-- The ways to bring one value to the front and leave the others in order. -/
def fronts : List Value → List (List Value)
  | [] => [[]]
  | e :: es => (picks (e :: es)).map fun pick => pick.1 :: pick.2

section Arrangements

variable {e : Value} {es others a : List Value}

theorem mem_picks : (e, others) ∈ picks es ↔ ∃ before after, es = before ++ e :: after ∧ others = before ++ after := by
  induction es generalizing others with
  | nil => simp [picks]
  | cons d es ih =>
    rw [picks, List.mem_cons, List.mem_map]
    constructor
    · rintro (here | ⟨pick, inside, same⟩)
      · cases here
        exact ⟨[], es, rfl, rfl⟩
      · cases same
        obtain ⟨before, after, rfl, rest⟩ := ih.1 inside
        exact ⟨d :: before, after, rfl, congrArg (d :: ·) rest⟩
    · rintro ⟨before, after, whole, rfl⟩
      cases before with
      | nil =>
        cases whole
        exact .inl rfl
      | cons c before =>
        cases whole
        exact .inr ⟨(e, before ++ after), ih.2 ⟨before, after, rfl, rfl⟩, rfl⟩

theorem mem_fronts_cons : e :: others ∈ fronts es ↔ (e, others) ∈ picks es := by
  cases es with
  | nil => simp [fronts, picks]
  | cons d es => simp [fronts]

theorem mem_fronts_nil : [] ∈ fronts es ↔ es = [] := by
  cases es with
  | nil => simp [fronts]
  | cons d es => simp [fronts]

theorem perm_of_mem_fronts (member : a ∈ fronts es) : a.Perm es := by
  cases a with
  | nil => rw [mem_fronts_nil.1 member]
  | cons e others => exact picks_perm (mem_fronts_cons.1 member)

/-- Of two values, either can come to the front. -/
theorem mem_fronts_of_perm (perm : a.Perm es) (short : a.length ≤ 2) : a ∈ fronts es := by
  cases a with
  | nil => exact mem_fronts_nil.2 perm.nil_eq.symm
  | cons e others =>
    obtain ⟨before, after, rfl⟩ := List.append_of_mem (perm.subset (List.mem_cons_self ..))
    have rest : others.Perm (before ++ after) := (perm.trans List.perm_middle).cons_inv
    refine mem_fronts_cons.2 (mem_picks.2 ⟨before, after, rfl, ?_⟩)
    cases others with
    | nil => exact rest.nil_eq
    | cons d more =>
      obtain rfl : more = [] := by simpa using short
      exact List.singleton_perm.1 rest

end Arrangements

section Search

variable {σ α β : Type} {all : Bool} {f : α → Step σ (List β)} {s t : σ}

theorem collect_map {γ : Type} (g : γ → α) (xs : List γ) :
    collect all f (xs.map g) = collect all (fun x => f (g x)) xs := by
  induction xs with
  | nil => rfl
  | cons x xs ih => rw [List.map_cons, collect, collect, ih]

theorem collect_one (x : α) : collect all f [x] = f x := by
  simp only [collect, pure_bind, List.append_nil, ite_self, bind_pure]

theorem collect_nothing (none : ∀ x, f x = pure []) (xs : List α) : collect all f xs = pure [] := by
  induction xs with
  | nil => rfl
  | cons x xs ih =>
    rw [collect, none, ih]
    cases all <;> rfl

/-- A search that has no effect finds something exactly if one of its choices does. -/
theorem collect_finds (quiet : ∀ x, (f x).Quiet) {xs : List α} {found : List β} (run : collect all f xs s = .ok found t) :
    found ≠ [] ↔ ∃ x ∈ xs, ∃ part t, f x s = .ok part t ∧ part ≠ [] := by
  induction xs generalizing found t with
  | nil =>
    obtain ⟨rfl, _⟩ := pure_ok.1 run
    simp
  | cons x xs ih =>
    obtain ⟨part, u, here, rest⟩ := bind_ok run
    obtain rfl : s = u := (quiet x).state here
    have first : (∃ other t, f x s = .ok other t ∧ other ≠ []) ↔ part ≠ [] := by
      simp [here]
    rw [List.exists_mem_cons_iff, first]
    split at rest
    · next enough =>
      obtain ⟨rfl, _⟩ := pure_ok.1 rest
      have some : part ≠ [] := by simpa using (Bool.and_eq_true_iff.1 enough).2
      simp [some]
    · obtain ⟨more, v, later, joined⟩ := bind_ok rest
      obtain ⟨rfl, _⟩ := pure_ok.1 joined
      rw [← ih later, ne_eq, List.append_eq_nil_iff]
      tauto

/-- If a search that has no effect fails, one of its choices fails in the same way. -/
theorem collect_fails (quiet : ∀ x, (f x).Quiet) {xs : List α} {h : Halt} (run : collect all f xs s = .error h t) :
    ∃ x ∈ xs, f x s = .error h t := by
  induction xs with
  | nil => cases run
  | cons x xs ih =>
    cases here : f x s with
    | error g u =>
      rw [collect, bind_of_error here] at run
      exact ⟨x, List.mem_cons_self .., run ▸ here⟩
    | ok part u =>
      obtain rfl : s = u := (quiet x).state here
      rw [collect, bind_of_ok here] at run
      split at run
      · cases run
      · cases later : collect all f xs s with
        | error g v =>
          rw [bind_of_error later] at run
          obtain ⟨y, member, failed⟩ := ih (run ▸ later)
          exact ⟨y, List.mem_cons_of_mem x member, failed⟩
        | ok more v =>
          rw [bind_of_ok later] at run
          cases run

variable {m : Settings σ} {depth : Nat} {ps es : List Value} {b : Bindings}

theorem matchMany_nil {orderless : Bool} :
    matchMany m all orderless depth [] es b = pure (if es.isEmpty then [b] else []) := by
  rw [matchMany.eq_def]

/-- An orderless search is the search in order through the arrangements that bring one value to the front. -/
theorem matchMany_orderless (single : ∀ p ∈ ps, role p = .single) :
    matchMany m all true depth ps es b = collect all (fun a => matchMany m all false depth ps a b) (fronts es) := by
  cases ps with
  | nil =>
    cases es with
    | nil => rw [fronts, collect_one, matchMany_nil, matchMany_nil]
    | cons e es =>
      rw [fronts, collect_map, collect_nothing fun pick => matchMany_nil, matchMany_nil]
      rfl
  | cons p rest =>
    have takes : role p = .single := single p (List.mem_cons_self ..)
    cases es with
    | nil =>
      rw [fronts, collect_one, matchMany_single takes, matchMany_eq, takes]
      rfl
    | cons e es =>
      simp only [fronts, collect_map, matchMany_single takes]
      rw [matchMany_eq, takes]
      rfl

theorem length_of_found (single : ∀ p ∈ ps, role p = .single) {found : List Bindings}
    (run : matchMany m all false depth ps es b s = .ok found t) (some : found ≠ []) : es.length = ps.length := by
  induction ps generalizing es b depth s with
  | nil =>
    obtain ⟨rfl, _⟩ := pure_ok.1 (matchMany_nil ▸ run)
    simpa using some
  | cons p rest ih =>
    obtain ⟨c, member⟩ := List.exists_mem_of_ne_nil found some
    obtain ⟨takes, later⟩ := List.forall_mem_cons.1 single
    obtain ⟨e, more, d, u, rfl, _, run⟩ := single_found takes run member
    rw [List.length_cons, List.length_cons, ih later run]

end Search

/-- A search in order finds a match. -/
def Finds {σ : Type} (m : Settings σ) (all : Bool) (depth : Nat) (ps es : List Value) (b : Bindings) (s : σ) : Prop :=
  ∃ found t, matchMany m all false depth ps es b s = .ok found t ∧ found ≠ []

/-- Without an evaluator, an orderless search with patterns that take one value each finds a match exactly if
there is one in order after some value has been brought to the front; that is a match of a
permutation of the values. With at most two patterns it finds one if any permutation has one. It
fails only as the search in order does for one of the arrangements. -/
theorem orderless_search {σ : Type} (m : Settings σ) (idle : m.evaluator = none) (all : Bool) (depth : Nat)
    (ps es : List Value) (b : Bindings) (s : σ) (single : ∀ p ∈ ps, role p = .single) :
    (∀ found t, matchMany m all true depth ps es b s = .ok found t →
      (found ≠ [] ↔ ∃ a ∈ fronts es, Finds m all depth ps a b s) ∧
      (found ≠ [] → ∃ a, a.Perm es ∧ Finds m all depth ps a b s) ∧
      (ps.length ≤ 2 → (found ≠ [] ↔ ∃ a, a.Perm es ∧ Finds m all depth ps a b s))) ∧
    ∀ h t, matchMany m all true depth ps es b s = .error h t →
      ∃ a ∈ fronts es, matchMany m all false depth ps a b s = .error h t := by
  have quiet : ∀ a, (matchMany m all false depth ps a b).Quiet :=
    fun a => (matching_quiet idle).2 all false depth ps a b
  rw [matchMany_orderless single]
  refine ⟨fun found t run => ?_, fun h t run => collect_fails quiet run⟩
  have searched : found ≠ [] ↔ ∃ a ∈ fronts es, Finds m all depth ps a b s := collect_finds quiet run
  have permuted : found ≠ [] → ∃ a, a.Perm es ∧ Finds m all depth ps a b s := by
    intro some
    obtain ⟨a, front, finds⟩ := searched.1 some
    exact ⟨a, perm_of_mem_fronts front, finds⟩
  refine ⟨searched, permuted, fun few => ⟨permuted, ?_⟩⟩
  rintro ⟨a, perm, finds⟩
  obtain ⟨part, u, ran, some⟩ := finds
  have short : a.length ≤ 2 := length_of_found single ran some ▸ few
  exact searched.2 ⟨a, mem_fronts_of_perm perm short, part, u, ran, some⟩

/-- The patterns `2, x_, y_` find `1, 2, 3` with the second value in front. -/
theorem orderless_search_middle :
    let m : Settings Unit := ⟨none, defaultDepth⟩
    let ps := [int 2, call "Pattern" [sym "x", call "Blank" []], call "Pattern" [sym "y", call "Blank" []]]
    ∃ found, matchMany m true true 0 ps [int 1, int 2, int 3] .empty () = .ok found () ∧ found ≠ [] ∧
      ∃ a ∈ fronts [int 1, int 2, int 3], Finds m true 0 ps a .empty () := by
  intro m ps
  have single : ∀ p ∈ ps, role p = .single := by
    simp [ps, role, segmentLength?, blankKind?, hasHead, second?, args, present?]
  have search := (orderless_search m rfl true 0 ps [int 1, int 2, int 3] .empty () single).1
  have ran : returns (!·.isEmpty) (matchMany m true true 0 ps [int 1, int 2, int 3] .empty ()) = true := by
    decide +kernel
  obtain ⟨found, t, run, tested⟩ := returns_iff.1 ran
  have some : found ≠ [] := by simpa using tested
  exact ⟨found, run, some, (search found t run).1.1 some⟩

/-- The patterns `1, 2, 3` do not find `3, 2, 1`, though they match it in another order. -/
theorem orderless_misses :
    let m : Settings Unit := ⟨none, defaultDepth⟩
    let ps := [int 1, int 2, int 3]
    let es := [int 3, int 2, int 1]
    (∀ p ∈ ps, role p = .single) ∧ matchMany m true true 0 ps es .empty () = .ok [] () ∧
      ∃ a, a.Perm es ∧ Finds m true 0 ps a .empty () := by
  intro m ps es
  have misses : returns (·.isEmpty) (matchMany m true true 0 ps es .empty ()) = true := by decide +kernel
  have finds : returns (!·.isEmpty) (matchMany m true false 0 ps ps .empty ()) = true := by decide +kernel
  obtain ⟨missed, t, run, empty⟩ := returns_iff.1 misses
  obtain ⟨found, u, ran, some⟩ := returns_iff.1 finds
  refine ⟨by simp [ps, role, segmentLength?, blankKind?, hasHead], ?_, ps, (List.reverse_perm es).trans (.refl _), found, u, ran, by simpa using some⟩
  rw [run, List.isEmpty_iff.1 empty]

end Symbolic.Pattern
