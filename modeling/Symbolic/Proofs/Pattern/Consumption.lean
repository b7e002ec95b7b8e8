import Symbolic.Proofs.Pattern.Places
import Symbolic.Proofs.Pattern.Steps

/-!
How many values argument patterns take. A search over segments leaves enough values for the patterns
that come after, and passes over the cuts that leave less. What patterns need at least is
`leasts`: a match of them has that many values (`leasts_le_of_found`). The search counts more
than that in two places. An optional pattern counts as one value even if it can be left out, and
after a sequence blank so does a `RepeatedNull`. In all other cases a cut that is passed
over could not have led to a match (`pruning_admissible`).
-/
namespace Symbolic.Pattern

open Value

/-- Whether an optional pattern with the given parts can be left out. -/
def canSkip (inner : Value) (default : Option Value) : Bool :=
  default.isSome && (inner.hasHead "Pattern" && (first? inner.args).isSome || inner.hasHead "Blank")

/-- The least number of values that a pattern takes among arguments. -/
def least (p : Value) : Nat :=
  match _h : role p with
  | .optional (some q) default => if canSkip q default then 0 else least q
  | .segment _ n _ | .repeated _ n => n
  | .optional none _ | .single => 1
termination_by weight p
decreasing_by exact weight_optional_lt _h

def Role.least : Role → Nat
  | .optional (some q) default => if canSkip q default then 0 else Pattern.least q
  | .segment _ n _ | .repeated _ n => n
  | .optional none _ | .single => 1

theorem least_eq (p : Value) : least p = (role p).least := by
  rw [least]
  split
  all_goals
    next form =>
    rw [form]
    rfl

def leasts : List Value → Nat
  | [] => 0
  | p :: ps => least p + leasts ps

theorem leasts_cons (p : Value) (ps : List Value) : leasts (p :: ps) = least p + leasts ps := rfl

/-- Whether a pattern is an optional one that can take no value. -/
def isOmissible (p : Value) : Bool := p.hasHead "Optional" && least p == 0

/-! ### What is counted for a pattern -/

/-- What a role tells about the head of the pattern that it is read from, and about its length. -/
def Role.Tells (p : Value) : Role → Prop
  | .optional .. => p.hasHead "Optional" = true
  | .segment _ n _ => n ≤ 1 ∧ p.hasHead "Optional" = false ∧ p.hasHead "RepeatedNull" = false
  | .repeated _ n => n = (if p.hasHead "RepeatedNull" then 0 else 1) ∧ p.hasHead "Optional" = false
  | .single => p.hasHead "Optional" = false ∧ p.hasHead "RepeatedNull" = false

theorem segmentLength?_tells {v : Value} {n : Nat} (length : segmentLength? v = some n) :
    n ≤ 1 ∧ (v.hasHead "BlankSequence" = true ∨ v.hasHead "BlankNullSequence" = true) := by
  unfold segmentLength? blankKind? at length
  by_cases one : v.hasHead "Blank" = true
  · simp [one] at length
  · by_cases sequence : v.hasHead "BlankSequence" = true
    · simp only [one, sequence, if_false, if_true, Bool.false_eq_true, Option.some.injEq] at length
      exact ⟨by omega, .inl sequence⟩
    · by_cases null : v.hasHead "BlankNullSequence" = true
      · simp only [one, sequence, null, if_false, if_true, Bool.false_eq_true, Option.some.injEq] at length
        exact ⟨by omega, .inr null⟩
      · simp [one, sequence, null] at length

theorem tells_role (p : Value) : (role p).Tells p := by
  unfold role
  split
  · next n length =>
    obtain ⟨short, headed | headed⟩ := segmentLength?_tells length
    all_goals exact ⟨short, hasHead_of_ne headed (by decide), hasHead_of_ne headed (by decide)⟩
  · by_cases optional : p.hasHead "Optional" = true
    · rw [if_pos optional]
      exact optional
    · have mandatory : p.hasHead "Optional" = false := Bool.eq_false_iff.2 optional
      rw [if_neg optional]
      by_cases named : p.hasHead "Pattern" = true
      · have other : p.hasHead "RepeatedNull" = false := hasHead_of_ne named (by decide)
        rw [if_pos named]
        split
        · split
          · next n length => exact ⟨(segmentLength?_tells length).1, mandatory, other⟩
          · exact ⟨mandatory, other⟩
        · exact ⟨mandatory, other⟩
      · rw [if_neg named]
        by_cases repeated : p.hasHead "Repeated" = true
        · rw [if_pos repeated]
          have other : p.hasHead "RepeatedNull" = false := hasHead_of_ne repeated (by decide)
          exact ⟨by simp [other], mandatory⟩
        · rw [if_neg repeated]
          by_cases null : p.hasHead "RepeatedNull" = true
          · rw [if_pos null]
            exact ⟨by simp [null], mandatory⟩
          · rw [if_neg null]
            exact ⟨mandatory, Bool.eq_false_iff.2 null⟩

theorem least_le_one (p : Value) : least p ≤ 1 := by
  have tells := tells_role p
  rw [least_eq]
  cases form : role p with
  | optional inner default =>
    cases inner with
    | none => exact Nat.le_refl 1
    | some q =>
      have := weight_optional_lt form
      rw [Role.least]
      split
      · exact Nat.zero_le 1
      · exact least_le_one q
  | segment name n c =>
    rw [form] at tells
    exact tells.1
  | repeated inner n =>
    rw [form] at tells
    have bound := tells.1
    rw [Role.least]
    split at bound <;> omega
  | single => exact Nat.le_refl 1
termination_by weight p

/-- What the search counts for a pattern is what it takes at least, and one more if it can be omitted. -/
theorem counted_eq (p : Value) : (if !takesNothing p && !p.hasHead "RepeatedNull" then 1 else 0) =
    least p + if isOmissible p then 1 else 0 := by
  have tells := tells_role p
  have short := least_le_one p
  have account := least_eq p
  unfold isOmissible takesNothing
  cases form : role p with
  | optional inner default =>
    rw [form] at tells
    have other : p.hasHead "RepeatedNull" = false := hasHead_of_ne tells (by decide)
    have headed : p.hasHead "Optional" = true := tells
    by_cases none : least p = 0
    · simp [headed, other, none]
    · have one : least p = 1 := by omega
      simp [headed, other, one]
  | segment name n c =>
    rw [form] at tells account
    obtain ⟨bound, mandatory, other⟩ := tells
    have same : least p = n := account
    cases n with
    | zero => simp [mandatory, same]
    | succ k =>
      have zero : k = 0 := by omega
      simp [mandatory, other, same, zero]
  | repeated inner n =>
    rw [form] at tells account
    obtain ⟨length, mandatory⟩ := tells
    have same : least p = n := account
    by_cases null : p.hasHead "RepeatedNull" = true
    · rw [if_pos null] at length
      simp [null, mandatory, same, length]
    · rw [if_neg null] at length
      simp [null, mandatory, same, length]
  | single =>
    rw [form] at tells account
    obtain ⟨mandatory, other⟩ := tells
    have same : least p = 1 := account
    simp [mandatory, other, same]

theorem repeatedNull_of_takesNothing {p : Value} (nothing : takesNothing p = true) :
    p.hasHead "RepeatedNull" = false := by
  have tells := tells_role p
  unfold takesNothing at nothing
  split at nothing
  · next form =>
    rw [form] at tells
    exact tells.2.2
  · cases nothing

theorem needed_eq (ps : List Value) : needed ps = leasts ps + ps.countP isOmissible := by
  rw [needed, ← List.countP_eq_length_filter]
  induction ps with
  | nil => rfl
  | cons p ps ih =>
    have counted := counted_eq p
    rw [leasts_cons, List.countP_cons, List.countP_cons, ih]
    omega

/-- After a sequence blank, a `RepeatedNull` is counted as well. -/
theorem neededAfterSegment_eq (ps : List Value) :
    neededAfterSegment ps = needed ps + ps.countP (·.hasHead "RepeatedNull") := by
  rw [needed, neededAfterSegment, ← List.countP_eq_length_filter, ← List.countP_eq_length_filter]
  induction ps with
  | nil => rfl
  | cons p ps ih =>
    rw [List.countP_cons, List.countP_cons, List.countP_cons, ih]
    by_cases nothing : takesNothing p = true
    · have other := repeatedNull_of_takesNothing nothing
      simp [nothing, other]
    · by_cases null : p.hasHead "RepeatedNull" = true
      · simp [nothing, null]
        omega
      · simp [nothing, null]
        omega

/-! ### What a match takes -/

section Found

variable {σ : Type} {m : Settings σ} {all orderless : Bool} {depth n : Nat} {p q : Value} {rest es : List Value}
  {default : Option Value} {b s : Bindings} {found : List Bindings} {st st' : σ}

theorem canSkip_of_skipped {c : Bindings} (skipped : skipOptional b q default = .ok (some c)) :
    canSkip q default = true := by
  unfold skipOptional at skipped
  unfold canSkip
  cases default with
  | none => cases skipped
  | some v =>
    by_cases named : q.hasHead "Pattern" = true
    · cases name : first? q.args with
      | none => simp [named, name] at skipped
      | some x => simp [named]
    · by_cases blank : q.hasHead "Blank" = true
      · simp [blank]
      · simp [named, blank] at skipped

/-- What an optional pattern led to: a match with what it stands for, or one without it. -/
theorem optional_found (takes : role p = .optional (some q) default)
    (run : matchMany m all orderless depth (p :: rest) es b st = .ok found st') (member : s ∈ found) :
    (∃ part u, matchMany m all orderless (depth + 1) (q :: rest) es b st = .ok part u ∧ s ∈ part) ∨
      ∃ c part u v, skipOptional b q default = .ok (some c) ∧
        matchMany m all orderless (depth + 1) rest es c u = .ok part v ∧ s ∈ part := by
  rw [matchMany_eq, takes] at run
  obtain ⟨present, u, ran, more⟩ := Step.bind_ok run
  by_cases enough : (!all && !present.isEmpty) = true
  · rw [if_pos enough] at more
    obtain ⟨rfl, _⟩ := Step.pure_ok.1 more
    exact .inl ⟨present, u, ran, member⟩
  · rw [if_neg enough] at more
    obtain ⟨skipped, v, left, more⟩ := Step.bind_ok more
    obtain ⟨skips, rfl⟩ := Step.ofExcept_ok.1 left
    cases skipped with
    | none =>
      obtain ⟨rfl, _⟩ := Step.pure_ok.1 more
      exact .inl ⟨present, u, ran, member⟩
    | some c =>
      obtain ⟨absent, w, later, joined⟩ := Step.bind_ok more
      obtain ⟨rfl, _⟩ := Step.pure_ok.1 joined
      rcases List.mem_append.1 member with here | there
      · exact .inl ⟨present, u, ran, here⟩
      · exact .inr ⟨c, absent, u, w, skips, later, there⟩

/-- What a repeated pattern led to: some values in front, and a match of the rest. -/
theorem repeated_found (takes : role p = .repeated (some q) n)
    (run : matchMany m all orderless depth (p :: rest) es b st = .ok found st') (member : s ∈ found) :
    ∃ front back c u v part, front ++ back = es ∧ n ≤ front.length ∧
      matchMany m all orderless (depth + 1) rest back c u = .ok part v ∧ s ∈ part := by
  rw [matchMany_eq, takes] at run
  obtain ⟨⟨front, back⟩, cut, u, v, part, tried, inside⟩ := collect_found run member
  obtain ⟨whole, long⟩ := cuts_append cut
  obtain ⟨threaded, w, _, more⟩ := Step.bind_ok tried
  cases threaded with
  | none =>
    obtain ⟨rfl, _⟩ := Step.pure_ok.1 more
    cases inside
  | some c => exact ⟨front, back, c, w, v, part, whole, long, more, inside⟩

/-- What a pattern for one value led to, in order or not: a match of the rest with the other values. -/
theorem others_found (takes : role p = .single)
    (run : matchMany m all orderless depth (p :: rest) es b st = .ok found st') (member : s ∈ found) :
    ∃ e others c ordered u v part, (e :: others).Perm es ∧
      matchMany m all ordered (depth + 1) rest others c u = .ok part v ∧ s ∈ part := by
  cases orderless with
  | false =>
    obtain ⟨e, later, c, u, rfl, _, more⟩ := single_found takes run member
    exact ⟨e, later, c, false, u, st', found, .refl _, more, member⟩
  | true =>
    rw [matchMany_eq, takes] at run
    cases es with
    | nil =>
      obtain ⟨rfl, _⟩ := Step.pure_ok.1 run
      cases member
    | cons e later =>
      obtain ⟨⟨x, others⟩, pick, u, v, part, tried, inside⟩ := collect_found run member
      obtain ⟨first, w, _, more⟩ := Step.bind_ok tried
      cases first with
      | none =>
        obtain ⟨rfl, _⟩ := Step.pure_ok.1 more
        cases inside
      | some c => exact ⟨x, others, c, false, w, v, part, picks_perm pick, more, inside⟩

theorem leasts_le_of_found {orderless : Bool} {depth : Nat} {ps es : List Value} {b : Bindings}
    {found : List Bindings} {st st' : σ} (run : matchMany m all orderless depth ps es b st = .ok found st')
    (member : s ∈ found) :
    leasts ps ≤ es.length := by
  cases ps with
  | nil => exact Nat.zero_le _
  | cons p rest =>
    have smaller := weights_lt_cons p rest
    have account := least_eq p
    rw [leasts_cons]
    cases form : role p with
    | optional inner default =>
      cases inner with
      | none =>
        rw [matchMany_eq, form] at run
        obtain ⟨rfl, _⟩ := Step.pure_ok.1 run
        cases member
      | some q =>
        have inside : weights (q :: rest) < weights (p :: rest) := by
          have := weight_optional_lt form
          simp only [weights]
          omega
        rw [form, Role.least] at account
        rcases optional_found form run member with ⟨part, u, ran, here⟩ | ⟨c, part, u, v, skips, ran, there⟩
        · have bound := leasts_le_of_found ran here
          rw [leasts_cons] at bound
          split at account <;> omega
        · have bound := leasts_le_of_found ran there
          rw [if_pos (canSkip_of_skipped skips)] at account
          omega
    | segment name n c =>
      obtain ⟨front, back, d, u, v, part, rfl, long, _, _, ran, there⟩ := segment_found form run member
      have bound := leasts_le_of_found ran there
      rw [form, Role.least] at account
      rw [List.length_append]
      omega
    | repeated inner n =>
      cases inner with
      | none =>
        rw [matchMany_eq, form] at run
        obtain ⟨rfl, _⟩ := Step.pure_ok.1 run
        cases member
      | some q =>
        obtain ⟨front, back, c, u, v, part, rfl, long, ran, there⟩ := repeated_found form run member
        have bound := leasts_le_of_found ran there
        rw [form, Role.least] at account
        rw [List.length_append]
        omega
    | single =>
      obtain ⟨e, others, c, ordered, u, v, part, perm, ran, there⟩ := others_found form run member
      have bound := leasts_le_of_found ran there
      have length := perm.length_eq
      rw [form, Role.least] at account
      rw [List.length_cons] at length
      omega
termination_by weights ps

end Found

theorem exists_of_countP_ne {ps : List Value} {test : Value → Bool} (some : ps.countP test ≠ 0) :
    ∃ p ∈ ps, test p = true := by
  by_contra none
  push Not at none
  exact some (List.countP_eq_zero.2 none)

/-- A match has as many values as the search counts for its patterns, if optional patterns that can be left out
are not counted and, after a sequence blank, no `RepeatedNull` either. So if these values are what a
cut leaves behind, the cut is passed over only where there is such a pattern. -/
theorem pruning_admissible {σ : Type} (m : Settings σ) {all orderless : Bool} {depth : Nat} {ps es : List Value}
    {b : Bindings} {found : List Bindings} {st st' : σ}
    (run : matchMany m all orderless depth ps es b st = .ok found st') (some : found ≠ []) :
    needed ps ≤ es.length + ps.countP isOmissible ∧
    neededAfterSegment ps ≤ es.length + ps.countP isOmissible + ps.countP (·.hasHead "RepeatedNull") ∧
    ∀ (atLeast : Nat) (front : List Value), atLeast ≤ front.length →
      ((front, es) ∉ cuts atLeast (needed ps) (front ++ es) → ∃ p ∈ ps, isOmissible p = true) ∧
      ((front, es) ∉ cuts atLeast (neededAfterSegment ps) (front ++ es) →
        ∃ p ∈ ps, isOmissible p = true ∨ p.hasHead "RepeatedNull" = true) := by
  obtain ⟨s, member⟩ := List.exists_mem_of_ne_nil found some
  have enough : leasts ps ≤ es.length := leasts_le_of_found run member
  have counted := needed_eq ps
  have countedAfter := neededAfterSegment_eq ps
  refine ⟨by omega, by omega, fun atLeast front long => ⟨fun dropped => ?_, fun dropped => ?_⟩⟩
  · have short : es.length < needed ps := Nat.lt_of_not_le fun room => dropped (mem_cuts long room)
    exact exists_of_countP_ne (by omega)
  · have short : es.length < neededAfterSegment ps := Nat.lt_of_not_le fun room => dropped (mem_cuts long room)
    by_cases omissible : ps.countP isOmissible = 0
    · have repeated : ps.countP (·.hasHead "RepeatedNull") ≠ 0 := by omega
      obtain ⟨p, inside, null⟩ := exists_of_countP_ne repeated
      exact ⟨p, inside, .inr null⟩
    · obtain ⟨p, inside, optional⟩ := exists_of_countP_ne omissible
      exact ⟨p, inside, .inl optional⟩

/-- The patterns `x_:0, 2..., y_`, of which only the last has to take a value. -/
def leftOut : List Value :=
  [call "Optional" [call "Pattern" [sym "x", call "Blank" []], int 0], call "RepeatedNull" [int 2],
    call "Pattern" [sym "y", call "Blank" []]]

theorem pruning_admissible_leftOut :
    ∃ found, matchMany (σ := Unit) ⟨none, defaultDepth⟩ true false 0 leftOut [int 7] .empty () = .ok found () ∧
      found ≠ [] ∧ needed leftOut = 2 ∧ needed leftOut ≤ [int 7].length + leftOut.countP isOmissible ∧
      (([int 5], [int 7]) ∉ cuts 1 (neededAfterSegment leftOut) [int 5, int 7] →
        ∃ p ∈ leftOut, isOmissible p = true ∨ p.hasHead "RepeatedNull" = true) := by
  have ran : Step.returns (!·.isEmpty)
      (matchMany (σ := Unit) ⟨none, defaultDepth⟩ true false 0 leftOut [int 7] .empty ()) = true := by
    decide +kernel
  obtain ⟨found, t, run, tested⟩ := Step.returns_iff.1 ran
  have some : found ≠ [] := by simpa using tested
  obtain ⟨counted, _, cut⟩ := pruning_admissible ⟨none, defaultDepth⟩ run some
  exact ⟨found, run, some, by decide, counted, (cut 1 [int 5] (by decide)).2⟩

/-- The pattern `y_:0` matches no values at all, but counts as one; so `x__, y_:0` does not match one value. Nor
does `x__, 2...`, though `2...` matches no values. -/
theorem optional_overcounted :
    let m : Settings Unit := ⟨none, defaultDepth⟩
    let sequence := call "Pattern" [sym "x", call "BlankSequence" []]
    let optional := call "Optional" [call "Pattern" [sym "y", call "Blank" []], int 0]
    let repeated := call "RepeatedNull" [int 2]
    Step.returns (!·.isEmpty) (matchMany m true false 0 [optional] [] .empty ()) = true ∧ needed [optional] = 1 ∧
      Step.returns (·.isEmpty) (matchMany m true false 0 [sequence, optional] [int 1] .empty ()) = true ∧
      Step.returns (!·.isEmpty) (matchMany m true false 0 [repeated] [] .empty ()) = true ∧
      neededAfterSegment [repeated] = 1 ∧
      Step.returns (·.isEmpty) (matchMany m true false 0 [sequence, repeated] [int 1] .empty ()) = true := by
  decide +kernel

end Symbolic.Pattern
