import Symbolic.Proofs.Pattern.Consumption
import Symbolic.Proofs.Pattern.Depth
import Symbolic.Proofs.Pattern.Orderless
import Symbolic.Proofs.Pattern.Rigid

/-!
A pattern that stands alone and the same pattern as the only one in a list. A value is matched against
a pattern, or a list of one value against a list of one pattern; the two searches are written
separately. They agree, but for one level of depth, on patterns that take one value and on
`Repeated` (`lone_agrees`). They do not agree on `RepeatedNull`, which alone matches everything, nor on
sequence blanks, which alone are taken literally.
-/
namespace Symbolic.Pattern

open Value Step

/-- A search has found something. -/
def Found {σ α : Type} (r : EStateM.Result Halt σ (List α)) : Prop := ∃ found t, r = .ok found t ∧ found ≠ []

section Search

variable {σ α β : Type} {all : Bool}

theorem found_listed {x : Step σ (Option α)} {s : σ} :
    Found ((Option.toList <$> x) s) ↔ ∃ c t, x s = .ok (some c) t := by
  rw [map_eq_pure_bind]
  constructor
  · rintro ⟨found, t, run, some⟩
    obtain ⟨r, u, ran, rest⟩ := bind_ok run
    obtain ⟨rfl, _⟩ := pure_ok.1 rest
    cases r with
    | none => exact absurd rfl some
    | some c => exact ⟨c, u, ran⟩
  · rintro ⟨c, t, ran⟩
    exact ⟨[c], t, bind_of_ok ran, by simp⟩

theorem collect_skip {f : α → Step σ (List β)} {x : α} (nothing : f x = pure []) (xs : List α) :
    collect all f (x :: xs) = collect all f xs := by
  rw [collect, nothing, pure_bind]
  cases all <;> simp

theorem threadAll_one (f : α → β → Step σ (Option β)) (x : α) (b : β) : threadAll f [x] b = f x b := by
  refine Eq.trans (bind_congr fun r => ?_) (bind_pure (f x b))
  cases r <;> rfl

end Search

section Lone

variable {σ : Type} {m : Settings σ} {all orderless : Bool} {depth n : Nat} {p q e : Value}
  {inner name c : Option Value} {b : Bindings}

theorem matchMany_lone_single (takes : role p = .single) :
    matchMany m all orderless depth [p] [e] b = (do return (← matchOne m none (depth + 1) p e b).toList) := by
  rw [matchMany_eq, takes]
  cases orderless with
  | false => exact option_congr rfl rfl fun c => matchMany_nil
  | true => exact (collect_one _).trans (option_congr rfl rfl fun c => matchMany_nil)

/-- Of the ways to cut one value off, only the one that takes it can lead to something. -/
theorem collect_lone {f : List Value × List Value → Step σ (List Bindings)} (short : n ≤ 1)
    (nothing : n = 0 → f ([], [e]) = pure []) : collect all f (cuts n 0 [e]) = f ([e], []) := by
  obtain rfl | rfl : n = 0 ∨ n = 1 := by omega
  · exact (collect_skip (nothing rfl) _).trans (collect_one _)
  · exact collect_one _

/-- A repeated pattern takes the one value if its inner pattern matches it. -/
theorem matchMany_lone_repeated (takes : role p = .repeated (some q) n) :
    matchMany m all orderless depth [p] [e] b = (do return (← matchOne m none (depth + 1) q e b).toList) := by
  have short : n ≤ 1 := by
    have tells := tells_role p
    rw [takes] at tells
    have length := tells.1
    split at length <;> omega
  rw [matchMany_eq, takes]
  refine (collect_lone short fun _ => matchMany_nil).trans ?_
  exact option_congr (threadAll_one ..) rfl fun c => matchMany_nil

/-- Alone, a repeated pattern is read from its head in the same way. -/
theorem shape_of_repeated (takes : role p = .repeated inner n) :
    shape (unwrapHold p) = if n = 0 then .repeatedNull inner else .repeated inner := by
  unfold role at takes
  repeat' split at takes
  all_goals cases takes
  · next repeated =>
    obtain ⟨as, t, rfl⟩ := call_of_hasHead repeated
    cases as <;> rfl
  · next null =>
    obtain ⟨as, t, rfl⟩ := call_of_hasHead null
    cases as <;> rfl

theorem segmentLength?_none {v : Value} (plain : segmentLength? v = none) :
    v.hasHead "BlankSequence" = false ∧ v.hasHead "BlankNullSequence" = false := by
  constructor
  all_goals
    refine Bool.eq_false_iff.2 fun headed => ?_
    obtain ⟨as, t, rfl⟩ := call_of_hasHead headed
    cases plain

theorem eq_of_equal_symbol {x : Symbol} {v : Value} (equal : (Value.symbol x).equal v = true) : v = .symbol x := by
  cases v <;> simp_all [Value.equal, same, number?]

/-- A symbol as the head of a compound pattern asks for that head. -/
theorem matchOne_otherHead {attrs : Option SymbolSet} {h : Symbol} {as : List Value}
    (form : shape (unwrapHold p) = .compound (.symbol h) as) (other : e.hasHead h.name = false) :
    matchOne m attrs depth p e b = pure none := by
  rw [matchOne_of_shape form]
  cases e with
  | expr k es t =>
    have distinct : (Value.symbol h).equal k = false := by
      refine Bool.eq_false_iff.2 fun equal => ?_
      rw [eq_of_equal_symbol equal] at other
      exact Bool.eq_false_iff.1 other (beq_self_eq_true h.name)
    have headed : matchOne m attrs (depth + 1) (.symbol h) k b = pure none := by
      rw [matchOne_comparison (v := .symbol h) (.inr rfl), distinct]
      split <;> rfl
    simp only [matchShape, headed]
    split <;> rfl
  | _ => split <;> rfl

/-- Alone, a sequence blank is an expression like others, and matches only what it would be matched to. -/
theorem matchOne_sequence {v : Value} {attrs : Option SymbolSet} (length : segmentLength? v = some n)
    (plain : segmentLength? e = none) : matchOne m attrs depth v e b = pure none := by
  obtain ⟨sequence, null⟩ := segmentLength?_none plain
  obtain ⟨_, headed | headed⟩ := segmentLength?_tells length
  · obtain ⟨as, t, rfl⟩ := call_of_hasHead headed
    have form : shape (unwrapHold (.expr (sym "BlankSequence") as t)) = .compound (sym "BlankSequence") as := by
      cases as <;> rfl
    exact matchOne_otherHead form sequence
  · obtain ⟨as, t, rfl⟩ := call_of_hasHead headed
    have form : shape (unwrapHold (.expr (sym "BlankNullSequence") as t)) = .compound (sym "BlankNullSequence") as := by
      cases as <;> rfl
    exact matchOne_otherHead form null

theorem matchOne_segment {attrs : Option SymbolSet} (takes : role p = .segment name n c)
    (plain : segmentLength? e = none) : matchOne m attrs depth p e b = pure none := by
  unfold role at takes
  repeat' split at takes
  all_goals cases takes
  · next length => exact matchOne_sequence length plain
  · next named _ inner second _ length =>
    obtain ⟨as, t, rfl⟩ := call_of_hasHead named
    have form : shape (unwrapHold (.expr (sym "Pattern") as t)) = .named (first? as) (some inner) := by
      cases as with
      | nil => cases second
      | cons a as => exact congrArg (Shape.named _) second
    rw [matchOne_of_shape form, matchShape, matchOne_sequence length plain]
    split <;> rfl

end Lone

/-- A value is matched by a pattern that stands alone. -/
def Matches {σ : Type} (m : Settings σ) (p e : Value) (b : Bindings) (s : σ) : Prop :=
  ∃ c t, matchOne m none 0 p e b s = .ok (some c) t

section Agreement

variable {σ : Type} {limit : Int} {all : Bool} {p q e : Value} {b : Bindings} {s : σ} {n : Nat}

theorem matchOne_inList (evaluator : Option (Value → Step σ Value)) (limit : Int) (p e : Value) (b : Bindings) :
    matchOne ⟨evaluator, limit⟩ none 1 p e b = matchOne ⟨evaluator, limit - 1⟩ none 0 p e b := by
  refine matchOne_atDepth evaluator (fun k _ => ?_) none e b
  omega

/-- Where no part of a pattern lies at the last level, that makes no difference. -/
theorem matchOne_shallow (evaluator : Option (Value → Step σ Value)) (shallow : ∀ k, Reaches p k → (k : Int) < limit)
    (e : Value) (b : Bindings) : matchOne ⟨evaluator, limit⟩ none 1 p e b = matchOne ⟨evaluator, limit⟩ none 0 p e b := by
  refine matchOne_atDepth evaluator (fun k reached => ?_) none e b
  have := shallow k reached
  omega

/-- A search that lists what one match finds has found something if there is a match. -/
theorem finds_iff {m : Settings σ} {x : Step σ (Option Bindings)}
    (lists : matchMany m all false 0 [p] [e] b = (do return (← x).toList)) :
    Finds m all 0 [p] [e] b s ↔ ∃ c t, x s = .ok (some c) t := by
  rw [Finds, lists, ← map_eq_pure_bind]
  exact found_listed

theorem finds_single (takes : role p = .single) :
    Finds ⟨none, limit⟩ all 0 [p] [e] b s ↔ Matches ⟨none, limit - 1⟩ p e b s := by
  rw [finds_iff (matchMany_lone_single takes), matchOne_inList, Matches]

theorem finds_repeated (takes : role p = .repeated (some q) n) :
    Finds ⟨none, limit⟩ all 0 [p] [e] b s ↔ Matches ⟨none, limit - 1⟩ q e b s := by
  rw [finds_iff (matchMany_lone_repeated takes), matchOne_inList, Matches]

theorem matches_repeated (takes : role p = .repeated (some q) 1) (room : 0 ≤ limit) :
    Matches ⟨none, limit⟩ p e b s ↔ Matches ⟨none, limit - 1⟩ q e b s := by
  have inside : matchOne (σ := σ) ⟨none, limit⟩ none 0 p e b = matchOne ⟨none, limit⟩ none 1 q e b := by
    rw [matchOne_eq, shape_of_repeated takes]
    exact if_neg (Int.not_lt.2 room)
  rw [Matches, inside, matchOne_inList, Matches]

/-- Alone, `RepeatedNull` matches whether its inner pattern does or not. -/
theorem matches_repeatedNull (takes : role p = .repeated (some q) 0) (room : 0 ≤ limit) :
    Matches ⟨none, limit⟩ p e b s ↔ ∃ r t, matchOne ⟨none, limit - 1⟩ none 0 q e b s = .ok r t := by
  have inside : matchOne (σ := σ) ⟨none, limit⟩ none 0 p e b =
      (do return (← matchOne ⟨none, limit⟩ none 1 q e b).or (some b)) := by
    rw [matchOne_eq, shape_of_repeated takes]
    exact if_neg (Int.not_lt.2 room)
  rw [Matches, inside, matchOne_inList]
  constructor
  · rintro ⟨c, t, run⟩
    obtain ⟨r, u, ran, _⟩ := bind_ok run
    exact ⟨r, u, ran⟩
  · rintro ⟨r, t, ran⟩
    rw [bind_of_ok ran]
    cases r with
    | none => exact ⟨b, t, rfl⟩
    | some c => exact ⟨c, t, rfl⟩

theorem empty_repeated (takes : role p = .repeated none n) :
    Finds ⟨none, limit⟩ all 0 [p] [e] b s ↔ Matches ⟨none, limit⟩ p e b s := by
  apply iff_of_false
  · rintro ⟨found, t, run, some⟩
    rw [matchMany_eq, takes] at run
    exact some (pure_ok.1 run).1.symm
  · rintro ⟨c, t, run⟩
    rw [matchOne_eq, shape_of_repeated takes] at run
    split at run
    · cases (pure_ok.1 run).1
    · split at run <;> cases (pure_ok.1 run).1

theorem not_matches_segment {name c : Option Value} (takes : role p = .segment name n c)
    (plain : segmentLength? e = none) : ¬ Matches ⟨none, limit⟩ p e b s := by
  rintro ⟨d, t, run⟩
  rw [matchOne_segment takes plain] at run
  cases (pure_ok.1 run).1

theorem acceptsAll_one {c : Option Value} : acceptsAll c [e] = .ok true ↔ accepts c e = .ok true := by
  rw [acceptsAll]
  cases accepts c e with
  | error err => simp [bind, Except.bind]
  | ok accepted => cases accepted <;> simp [acceptsAll, bind, Except.bind, pure, Except.pure]

/-- A sequence blank takes the one value if its head fits and its name can be bound to it. One that can
take nothing is first tried on nothing. -/
theorem finds_segment {name c : Option Value} (takes : role p = .segment name n c) :
    Finds ⟨none, limit⟩ all 0 [p] [e] b s ↔
      accepts c e = .ok true ∧ (∃ d, bindName b name (ofItems [e]) = .ok (some d)) ∧
        (n = 0 → ∃ r, bindName b name (ofItems []) = .ok r) := by
  constructor
  · rintro ⟨found, t, run, some⟩
    obtain ⟨d, member⟩ := List.exists_mem_of_ne_nil found some
    obtain ⟨front, back, d, u, v, part, whole, _, tested, bound, rest, inside⟩ := segment_found takes run member
    rw [matchMany_nil] at rest
    obtain ⟨rfl, _⟩ := pure_ok.1 rest
    cases back with
    | cons x back => cases inside
    | nil =>
      obtain rfl : front = [e] := by simpa using whole
      refine ⟨acceptsAll_one.1 tested, ⟨d, bound⟩, ?_⟩
      rintro rfl
      rw [matchMany_segment takes] at run
      obtain ⟨first, u, tried, _⟩ := bind_ok run
      obtain ⟨accepted, v, empty, tried⟩ := bind_ok tried
      cases (ofExcept_ok.1 empty).1
      obtain ⟨r, w, named, _⟩ := bind_ok tried
      exact ⟨r, (ofExcept_ok.1 named).1⟩
  · rintro ⟨tested, ⟨d, bound⟩, boundToo⟩
    have short : n ≤ 1 := by
      have tells := tells_role p
      rw [takes] at tells
      exact tells.1
    have search : matchMany (σ := σ) ⟨none, limit⟩ all false 0 [p] [e] b = pure [d] := by
      rw [matchMany_segment takes]
      refine (collect_lone short fun zero => ?_).trans ?_
      · obtain ⟨r, boundToo⟩ := boundToo zero
        simp only [acceptsAll, boundToo]
        cases r with
        | none => rfl
        | some c => exact matchMany_nil
      · simp only [acceptsAll_one.2 tested, bound]
        exact matchMany_nil
    exact ⟨[d], s, congrFun search s, by simp⟩

end Agreement

/-- Without an evaluator, a pattern that is no `Optional`, no sequence blank and no `RepeatedNull` matches a value
alone exactly if it matches the list of it, where no part of the pattern lies at the last level of depth. In
general it is one level deeper in a list if it takes one value, and at the same level if it is a
`Repeated`. A `RepeatedNull` in a list matches what its inner pattern does, but alone everything on
which that pattern ends without an error. A sequence blank in a list matches all values with its head to which its
name can be bound, but alone none other than sequence blanks. -/
theorem lone_agrees {σ : Type} (limit : Int) (all : Bool) (p e : Value) (b : Bindings) (s : σ) :
    (p.hasHead "Optional" = false → takesSegment p = false → (∀ q, role p ≠ .repeated (some q) 0) →
      (∀ k, Reaches p k → (k : Int) < limit) →
      (Finds ⟨none, limit⟩ all 0 [p] [e] b s ↔ Matches ⟨none, limit⟩ p e b s)) ∧
    (role p = .single → (Finds ⟨none, limit⟩ all 0 [p] [e] b s ↔ Matches ⟨none, limit - 1⟩ p e b s)) ∧
    (∀ q, role p = .repeated (some q) 1 → 0 ≤ limit →
      (Finds ⟨none, limit⟩ all 0 [p] [e] b s ↔ Matches ⟨none, limit⟩ p e b s)) ∧
    (∀ q, role p = .repeated (some q) 0 →
      (Finds ⟨none, limit⟩ all 0 [p] [e] b s ↔ Matches ⟨none, limit - 1⟩ q e b s) ∧
      (0 ≤ limit → (Matches ⟨none, limit⟩ p e b s ↔ ∃ r t, matchOne ⟨none, limit - 1⟩ none 0 q e b s = .ok r t))) ∧
    ∀ name n c, role p = .segment name n c →
      (Finds ⟨none, limit⟩ all 0 [p] [e] b s ↔
        accepts c e = .ok true ∧ (∃ d, bindName b name (ofItems [e]) = .ok (some d)) ∧
          (n = 0 → ∃ r, bindName b name (ofItems []) = .ok r)) ∧
      (segmentLength? e = none → ¬ Matches ⟨none, limit⟩ p e b s) := by
  have repeated : ∀ q, role p = .repeated (some q) 1 → 0 ≤ limit →
      (Finds ⟨none, limit⟩ all 0 [p] [e] b s ↔ Matches ⟨none, limit⟩ p e b s) :=
    fun q takes room => (finds_repeated takes).trans (matches_repeated takes room).symm
  refine ⟨fun mandatory one definite shallow => ?_, finds_single, repeated,
    fun q takes => ⟨finds_repeated takes, matches_repeatedNull takes⟩,
    fun name n c takes => ⟨finds_segment takes, not_matches_segment takes⟩⟩
  have tells := tells_role p
  cases takes : role p with
  | optional inner default =>
    rw [takes] at tells
    exact absurd tells (Bool.eq_false_iff.1 mandatory)
  | segment name n c => simp [takesSegment, takes] at one
  | single => rw [finds_iff (matchMany_lone_single takes), matchOne_shallow none shallow, Matches]
  | repeated inner n =>
    cases inner with
    | none => exact empty_repeated takes
    | some q =>
      have positive : n ≠ 0 := fun zero => definite q (zero ▸ takes)
      rw [takes] at tells
      obtain rfl : n = 1 := by
        have length := tells.1
        split at length <;> omega
      exact repeated q takes (Int.le_of_lt (shallow 0 (.here p)))

/-- The pattern `f[x_, 2 | 3]`. -/
def ofTwo : Value :=
  call "f" [call "Pattern" [sym "x", call "Blank" []], call "Alternatives" [int 2, int 3]]

theorem lone_agrees_ofTwo :
    (∀ k, Reaches ofTwo k → (k : Int) < defaultDepth) ∧
      Matches ⟨none, defaultDepth⟩ ofTwo (call "f" [int 1, int 3]) .empty () ∧
      Finds ⟨none, defaultDepth⟩ true 0 [ofTwo] [call "f" [int 1, int 3]] .empty () := by
  have shallow : ∀ k, Reaches ofTwo k → (k : Int) < defaultDepth := by
    intro k reached
    have bound : k < weight ofTwo := reached.lt_weight
    have size : weight ofTwo ≤ 128 := by decide
    rw [defaultDepth]
    omega
  have ran : returns (·.isSome)
      (matchOne ⟨none, defaultDepth⟩ none 0 ofTwo (call "f" [int 1, int 3]) .empty ()) = true := by
    decide +kernel
  have alone : Matches ⟨none, defaultDepth⟩ ofTwo (call "f" [int 1, int 3]) .empty () := by
    obtain ⟨r, t, run, some⟩ := returns_iff.1 ran
    obtain ⟨c, rfl⟩ := Option.isSome_iff_exists.1 some
    exact ⟨c, t, run⟩
  have single : role ofTwo = .single := rfl
  obtain ⟨agrees, _⟩ := lone_agrees defaultDepth true ofTwo (call "f" [int 1, int 3]) .empty ()
  exact ⟨shallow, alone, (agrees rfl rfl (by simp [single]) shallow).2 alone⟩

/-- Alone, `1...` matches 2 and `x__` does not match 5; as lists of one, the first does not and the second does.
A chain of alternatives as long as the depth limit is cut off only in a list. -/
theorem lone_disagrees :
    let m : Settings Unit := ⟨none, defaultDepth⟩
    let repeated := call "RepeatedNull" [int 1]
    let sequence := call "Pattern" [sym "x", call "BlankSequence" []]
    let deep := Nat.repeat (fun p => call "Alternatives" [p]) 128 (call "Blank" [])
    returns (·.isSome) (matchOne m none 0 repeated (int 2) .empty ()) = true ∧
      returns (·.isEmpty) (matchMany m true false 0 [repeated] [int 2] .empty ()) = true ∧
      returns (·.isNone) (matchOne m none 0 sequence (int 5) .empty ()) = true ∧
      returns (!·.isEmpty) (matchMany m true false 0 [sequence] [int 5] .empty ()) = true ∧
      returns (·.isSome) (matchOne m none 0 deep (int 5) .empty ()) = true ∧
      returns (·.isEmpty) (matchMany m true false 0 [deep] [int 5] .empty ()) = true := by
  decide +kernel

end Symbolic.Pattern
