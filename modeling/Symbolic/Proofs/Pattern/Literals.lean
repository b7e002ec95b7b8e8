import Symbolic.Proofs.Pattern.Cutoff

/-!
Literals as patterns. A value without pattern constructs is matched part by part against itself, and
all that can keep it from matching is the depth limit. Going into a head or an argument list costs one level
of depth, and so does going from one argument to the next. What a literal needs is therefore
its `span`, in which width counts as much as nesting: it matches itself exactly if this is
within the limit (`literal_self_match`).
-/
namespace Symbolic.Pattern

open Value Step

/-- The arguments of an expression as they are matched: flattened if its attributes say so. -/
def laidOut (h : Value) (as : List Value) (t : SymbolSet) : List Value :=
  if t.contains Attribute.flat then flatten h as else as

theorem weight_head_lt (h : Value) (as : List Value) (t : SymbolSet) : weight h < weight (.expr h as t) := by
  rw [weight]
  omega

theorem weights_laidOut_lt (h : Value) (as : List Value) (t : SymbolSet) :
    weights (laidOut h as t) + 1 < weight (.expr h as t) := by
  have flattened := weights_flatten_le h as
  have headed := weight_pos h
  rw [laidOut, weight]
  split <;> omega

mutual

def span : Value → Nat
  | .expr h as t => max (span h) (spans (laidOut h as t)) + 1
  | _ => 0
termination_by v => 2 * weight v
decreasing_by
  · simp only [weight]
    omega
  · have inside := weights_laidOut_lt h as t
    omega

/-- How many levels below an argument list its members are matched; each is one level deeper than the one before. -/
def spans : List Value → Nat
  | [] => 0
  | a :: as => max (span a) (spans as) + 1
termination_by as => 2 * weights as + 1
decreasing_by
  · simp only [weights]
    omega
  · exact after_lt a as

end

mutual

theorem span_lt_weight (e : Value) : span e < weight e := by
  cases e with
  | expr h as t =>
    have smaller := weight_head_lt h as t
    have inside := weights_laidOut_lt h as t
    have head := span_lt_weight h
    have args := spans_le_weights (laidOut h as t)
    rw [span]
    omega
  | _ => simp [span, weight]
termination_by 2 * weight e

theorem spans_le_weights (as : List Value) : spans as ≤ weights as := by
  cases as with
  | nil => simp [spans, weights]
  | cons a as =>
    have first := weight_le_of_mem (List.mem_cons_self (a := a) (l := as))
    have smaller := weights_lt_cons a as
    have here := span_lt_weight a
    have later := spans_le_weights as
    rw [spans, weights]
    omega
termination_by 2 * weights as + 1

end

/-- A value that stands for itself as a pattern, and that equals itself. -/
structure IsLiteral (e : Value) : Prop where
  plain : e.everywhere (!isConstruct ·) = true
  element : e.isElement = true
  free : e.isNaNFree = true

theorem hereditary_isLiteral : Hereditary IsLiteral where
  head literal := ⟨(hereditary_everywhere _).head literal.plain, (hereditary_everywhere _).head literal.element,
    (hereditary_everywhere _).head literal.free⟩
  arg literal a member := ⟨(hereditary_everywhere _).arg literal.plain a member,
    (hereditary_everywhere _).arg literal.element a member, (hereditary_everywhere _).arg literal.free a member⟩

theorem Hereditary.laidOut {W : Value → Prop} (hereditary : Hereditary W) {h : Value} {as : List Value} {t : SymbolSet}
    (holds : W (.expr h as t)) : ∀ a ∈ laidOut h as t, W a := by
  have parts := hereditary.arg holds
  rw [Pattern.laidOut]
  split
  · exact hereditary.flatten parts
  · exact parts

theorem IsLiteral.shape {h : Value} {as : List Value} {t : SymbolSet} (literal : IsLiteral (.expr h as t)) :
    shape (unwrapHold (.expr h as t)) = .compound h as := by
  have plain : isConstruct (.expr h as t) = false := by simpa using everywhere_here literal.plain
  have headed : h.canHead = true := (everywhere_expr.1 literal.element).1
  cases h with
  | symbol f => exact (plain_call plain).1
  | expr k bs u => exact shape_apply rfl
  | _ => cases headed

theorem IsLiteral.role {e : Value} (literal : IsLiteral e) : role e = .single := by
  have plain : isConstruct e = false := by simpa using everywhere_here literal.plain
  cases e with
  | expr h as t =>
    cases h with
    | symbol f => exact (plain_call plain).2.2
    | _ => rfl
  | _ => rfl

theorem IsLiteral.basic {e : Value} (literal : IsLiteral e) (whole : e.isExpr = false) :
    Pattern.shape (unwrapHold e) = .literal e := by
  have native : isNative e = true := everywhere_here literal.element
  cases e with
  | expr h as t => cases whole
  | tuple | list | set | table | bindings => cases native
  | _ => rfl

section Matching

variable {σ : Type} (m : Settings σ)

mutual

theorem matchOne_self (depth : Nat) {e : Value} (literal : IsLiteral e)
    (near : ((depth + span e : Nat) : Int) ≤ m.maxDepth) (b : Bindings) : matchOne m none depth e e b = pure (some b) := by
  cases e with
  | expr h as t =>
    have smaller := weight_head_lt h as t
    have inside := weights_laidOut_lt h as t
    rw [span] at near
    have headed := matchOne_self (depth + 1) (hereditary_isLiteral.head literal) (by omega) b
    have listed := matchMany_self (t.contains Attribute.orderless) (depth + 1)
      (hereditary_isLiteral.laidOut literal) (by omega) b
    rw [laidOut] at listed
    rw [matchOne_of_shape literal.shape, matchShape, if_neg (by omega)]
    simp only [headed, pure_bind, Option.getD_none, listed, List.head?_cons]
  | _ =>
    rw [matchOne_comparison (.inr (literal.basic rfl)), if_neg (by omega), if_pos (equal_self literal.free)]
termination_by 2 * weight e

theorem matchMany_self (orderless : Bool) (depth : Nat) {as : List Value} (literals : ∀ a ∈ as, IsLiteral a)
    (near : ((depth + spans as : Nat) : Int) ≤ m.maxDepth) (b : Bindings) :
    matchMany m false orderless depth as as b = pure [b] := by
  cases as with
  | nil => exact matchMany_nil
  | cons a as =>
    have first := weight_le_of_mem (List.mem_cons_self (a := a) (l := as))
    have smaller := weights_lt_cons a as
    obtain ⟨literal, literals⟩ := List.forall_mem_cons.1 literals
    rw [spans] at near
    have here := matchOne_self (depth + 1) literal (by omega) b
    have later := matchMany_self false (depth + 1) literals (by omega) b
    -- In any order too, each argument is first tried on itself.
    obtain ⟨others, tried⟩ : ∃ others, choices orderless as (a :: as) (role a) = ([a], as) :: others := by
      rw [literal.role]
      cases orderless <;> exact ⟨_, rfl⟩
    have attempted : attempt m orderless depth a as b ([a], as) = pure [b] := by
      rw [attempt, literal.role]
      exact (congrArg (· >>= _) ((threadAll_one ..).trans here)).trans later
    rw [matchMany_attempts (by simp [literal.role]), tried, collect, attempted]
    rfl
termination_by 2 * weights as + 1

end

mutual

theorem matchOne_cut (depth : Nat) {e : Value} (literal : IsLiteral e) (ordered : keepsOrder e = true)
    (deep : m.maxDepth < ((depth + span e : Nat) : Int)) (b : Bindings) : matchOne m none depth e e b = pure none := by
  cases e with
  | expr h as t =>
    have smaller := weight_head_lt h as t
    have inside := weights_laidOut_lt h as t
    rw [span] at deep
    rw [matchOne_of_shape literal.shape, matchShape]
    split
    · rfl
    have head := hereditary_isLiteral.head literal
    by_cases near : ((depth + 1 + span h : Nat) : Int) ≤ m.maxDepth
    · have headed := matchOne_self m (depth + 1) head near b
      have inOrder := contains_of_keepsOrder ordered
      have listed := matchMany_cut (depth + 1) (hereditary_isLiteral.laidOut literal)
        ((hereditary_everywhere _).laidOut ordered) (by omega) (by omega) b
      rw [laidOut] at listed
      simp only [headed, pure_bind, Option.getD_none, inOrder, listed, List.head?_nil]
    · have headed := matchOne_cut (depth + 1) head ((hereditary_everywhere _).head ordered) (by omega) b
      simp only [headed, pure_bind]
  | _ =>
    simp only [span, Nat.add_zero] at deep
    rw [matchOne_comparison (.inr (literal.basic rfl)), if_pos deep]
termination_by 2 * weight e

theorem matchMany_cut (depth : Nat) {as : List Value} (literals : ∀ a ∈ as, IsLiteral a)
    (ordered : ∀ a ∈ as, keepsOrder a = true) (near : (depth : Int) ≤ m.maxDepth)
    (deep : m.maxDepth < ((depth + spans as : Nat) : Int)) (b : Bindings) :
    matchMany m false false depth as as b = pure [] := by
  cases as with
  | nil =>
    rw [spans] at deep
    omega
  | cons a as =>
    have first := weight_le_of_mem (List.mem_cons_self (a := a) (l := as))
    have smaller := weights_lt_cons a as
    obtain ⟨literal, literals⟩ := List.forall_mem_cons.1 literals
    obtain ⟨here, later⟩ := List.forall_mem_cons.1 ordered
    rw [spans] at deep
    rw [matchMany_single literal.role]
    by_cases fits : ((depth + 1 + span a : Nat) : Int) ≤ m.maxDepth
    · have matched := matchOne_self m (depth + 1) literal fits b
      have rest := matchMany_cut (depth + 1) literals later (by omega) (by omega) b
      simp only [matched, pure_bind, rest]
    · have matched := matchOne_cut (depth + 1) literal here (by omega) b
      simp only [matched, pure_bind]
termination_by 2 * weights as + 1

end

end Matching

/-- A literal matches itself, with the bindings it is given, if its span is within the depth limit; if none of its
expressions is orderless, only then. A literal of no more parts than the limit allows levels always does. -/
theorem literal_self_match {σ : Type} (m : Settings σ) (b : Bindings) {e : Value} (element : e.isElement = true)
    (free : e.isNaNFree = true) (plain : e.everywhere (!isConstruct ·) = true) :
    ((span e : Int) ≤ m.maxDepth → matchOne m none 0 e e b = pure (some b)) ∧
    (m.maxDepth < span e → keepsOrder e = true → matchOne m none 0 e e b = pure none) ∧
    ((weight e : Int) ≤ m.maxDepth + 1 → matchOne m none 0 e e b = pure (some b)) := by
  have literal : IsLiteral e := ⟨plain, element, free⟩
  refine ⟨fun near => ?_, fun deep ordered => ?_, fun small => ?_⟩
  · exact matchOne_self m 0 literal (by omega) b
  · exact matchOne_cut m 0 literal ordered (by omega) b
  · have bound := span_lt_weight e
    exact matchOne_self m 0 literal (by omega) b

/-- The literal `f[f[1, "a"], g[2][3], b]`, where `f` is flat and orderless. -/
def mixed : Value :=
  let t := SymbolSet.ofList [Attribute.flat, Attribute.orderless]
  .expr (sym "f") [.expr (sym "f") [int 1, .text "a"] t, .expr (call "g" [int 2]) [int 3] .empty, sym "b"] t

theorem literal_self_match_mixed :
    span mixed = 7 ∧ matchOne (σ := Unit) ⟨none, 7⟩ none 0 mixed mixed .empty = pure (some .empty) ∧
      weight mixed = 12 ∧
      matchOne (σ := Unit) ⟨none, defaultDepth⟩ none 0 mixed mixed .empty = pure (some .empty) := by
  have spanned : span mixed = 7 := by decide +kernel
  have size : weight mixed = 12 := by decide +kernel
  obtain ⟨near, _, _⟩ :=
    literal_self_match (σ := Unit) ⟨none, 7⟩ .empty (e := mixed) (by decide) (by decide) (by decide)
  obtain ⟨_, _, small⟩ :=
    literal_self_match (σ := Unit) ⟨none, defaultDepth⟩ .empty (e := mixed) (by decide) (by decide) (by decide)
  exact ⟨spanned, near (by simp [spanned]), size, small (by simp [size, defaultDepth])⟩

/-- With the depth limit there is by default, `f` of 127 numbers matches itself and `f` of 128 does not, though both are
nested to the same depth. -/
theorem wide_literal_differs :
    let m : Settings Unit := ⟨none, defaultDepth⟩
    let wide : Nat → Value := fun n => call "f" ((List.range n).map fun i => int i)
    returns (·.isSome) (matchOne m none 0 (wide 127) (wide 127) .empty ()) = true ∧
      returns (·.isNone) (matchOne m none 0 (wide 128) (wide 128) .empty ()) = true := by
  decide +kernel

end Symbolic.Pattern
