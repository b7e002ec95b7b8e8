import Symbolic.Proofs.Pattern.Relation

/-!
Soundness of matching. Whatever the search for a match does on its way, the bindings that
it ends with relate the pattern to the value, and extend those that it began with.
-/
namespace Symbolic

open Value

/-- Whether no expression inside a value is flat or orderless, so that arguments stay in place. -/
def Value.isOrdered (v : Value) : Bool :=
  v.everywhere fun w => !w.attributes.contains Attribute.flat && !w.attributes.contains Attribute.orderless

namespace Pattern

/-- Values that matching takes as they stand: elements without a NaN whose arguments stay in place. -/
structure Settled (e : Value) : Prop where
  element : e.isElement = true
  free : e.isNaNFree = true
  ordered : e.isOrdered = true

theorem Settled.inOrder {h : Value} {as : List Value} {t : SymbolSet} (settled : Settled (.expr h as t)) :
    t.contains Attribute.flat = false ∧ t.contains Attribute.orderless = false := by
  simpa [attributes] using everywhere_here settled.ordered

theorem Settled.head {h : Value} {as : List Value} {t : SymbolSet} (settled : Settled (.expr h as t)) :
    Settled h :=
  ⟨(everywhere_expr.1 settled.element).2.1, (everywhere_expr.1 settled.free).2.1,
    (everywhere_expr.1 settled.ordered).2.1⟩

theorem Settled.args {h : Value} {as : List Value} {t : SymbolSet} (settled : Settled (.expr h as t)) :
    ∀ a ∈ as, Settled a := fun a member =>
  ⟨(everywhere_expr.1 settled.element).2.2 a member, (everywhere_expr.1 settled.free).2.2 a member,
    (everywhere_expr.1 settled.ordered).2.2 a member⟩

theorem Settled.equal_self {e : Value} (settled : Settled e) : e.equal e = true :=
  Value.equal_self settled.free

theorem equal_ofItems {es : List Value} (settled : ∀ e ∈ es, Settled e) :
    (ofItems es).equal (ofItems es) = true :=
  Value.equal_self (everywhere_expr.2 ⟨rfl, rfl, fun e member => (settled e member).free⟩)

/-! ### What blanks and names ask for -/

theorem headFits_of_accepts {cs : List Value} {e : Value} (run : accepts (first? cs) e = .ok true) :
    HeadFits true cs e := by
  intro c first
  by_cases absent : c = .null
  · exact .inl ⟨rfl, absent⟩
  · have present : first? cs = some c := by
      rw [first?, first, Option.bind_some]
      cases c <;> first | rfl | exact absurd rfl absent
    rw [present] at run
    obtain ⟨k, head, same⟩ := Except.bind_ok run
    exact .inr ⟨k, head, Except.ok.inj same⟩

theorem accepts_of_acceptsAll {c : Option Value} {es : List Value} (run : acceptsAll c es = .ok true) :
    ∀ e ∈ es, accepts c e = .ok true := by
  induction es with
  | nil => simp
  | cons x xs ih =>
    obtain ⟨first, here, rest⟩ := Except.bind_ok run
    cases first with
    | false => cases rest
    | true =>
      intro e member
      rcases List.mem_cons.1 member with rfl | member
      · exact here
      · exact ih rest e member

theorem bindName_ok {b c : Bindings} (name : Option Symbol) {e : Value} (self : e.equal e = true)
    (run : bindName b (name.map .symbol) e = .ok (some c)) :
    c.Extends b ∧ ∀ x, name = some x → c.Gives x e := by
  cases name with
  | none =>
    cases run
    exact ⟨.refl b, fun x impossible => by cases impossible⟩
  | some y =>
    have bound : b.bind y e = .ok c := by
      simp only [Option.map_some, bindName, Bindings.bindValue] at run
      split at run
      · next same => cases run; exact same
      · cases run
      · cases run
    obtain ⟨extends_, gives⟩ := Bindings.bind_ok self bound
    exact ⟨extends_, fun x same => Option.some.inj same ▸ gives⟩

/-! ### Shapes and roles of the patterns of the relation -/

/-- A compound pattern under a symbol is matched part by part, and takes one value. -/
theorem plain_call {f : Symbol} {as : List Value} {t : SymbolSet}
    (plain : isConstruct (.expr (.symbol f) as t) = false) :
    shape (unwrapHold (.expr (.symbol f) as t)) = .compound (.symbol f) as ∧
      segmentLength? (.expr (.symbol f) as t) = none ∧ role (.expr (.symbol f) as t) = .single := by
  simp only [isConstruct, hasHead, List.any_cons, List.any_nil, Bool.or_false, Bool.or_eq_false_iff,
    beq_eq_false_iff_ne] at plain
  refine ⟨?_, ?_, ?_⟩
  · cases as <;> simp [unwrapHold, shape, shapeOfCall, plain]
  · simp [segmentLength?, blankKind?, hasHead, plain]
  · simp [role, segmentLength?, blankKind?, hasHead, plain]

theorem shape_apply {h : Value} {as : List Value} {t : SymbolSet} (curried : h.isExpr = true) :
    shape (unwrapHold (.expr h as t)) = .compound h as := by
  cases h <;> first | rfl | cases curried

theorem shape_literal {v : Value} (basic : (v.isAtom || v.isSymbol) = true) :
    shape (unwrapHold v) = .literal v := by
  cases v <;> first | rfl | cases basic

theorem shape_blank (cs : List Value) (t : SymbolSet) :
    shape (unwrapHold (.expr (sym "Blank") cs t)) = .blank (first? cs) := by
  cases cs <;> rfl

theorem shape_name (x : Symbol) (t : SymbolSet) :
    shape (unwrapHold (.expr (sym "Pattern") [.symbol x, .null] t)) = .named (some (.symbol x)) none := rfl

theorem shape_named (x : Symbol) {q : Value} (t : SymbolSet) (present : q ≠ .null) :
    shape (unwrapHold (.expr (sym "Pattern") [.symbol x, q] t)) = .named (some (.symbol x)) (some q) := by
  cases q <;> first | rfl | exact absurd rfl present

theorem shape_alternatives (ps : List Value) (t : SymbolSet) :
    shape (unwrapHold (.expr (sym "Alternatives") ps t)) = .alternatives ps := by
  cases ps <;> rfl

theorem IsPattern.segmentLength? {p : Value} (pattern : IsPattern p) : segmentLength? p = none := by
  cases pattern with
  | literal basic => cases p <;> first | rfl | cases basic
  | verbatim | blank | named | alternatives => rfl
  | call plain => exact (plain_call plain).2.1
  | @apply h _ _ curried => cases h <;> first | rfl | cases curried

theorem IsPattern.role {p : Value} (pattern : IsPattern p) : role p = .single := by
  have whole := pattern.segmentLength?
  cases pattern with
  | literal basic => cases p <;> first | rfl | cases basic
  | verbatim | blank | alternatives => rfl
  | @named q x t inner =>
    rw [Pattern.role, whole]
    have part := inner.segmentLength?
    cases q <;> first | rfl | simp [hasHead, second?, present?, args, part]
  | call plain => exact (plain_call plain).2.2
  | @apply h _ _ curried => cases h <;> first | rfl | cases curried

theorem SequenceBlank.segmentLength? {q : Value} {n : Nat} {cs : List Value} (form : SequenceBlank q n cs) :
    segmentLength? q = some n ∧ q.args = cs ∧ q.present? = some q := by
  cases form with
  | sequence => exact ⟨rfl, rfl, rfl⟩
  | nullSequence => exact ⟨rfl, rfl, rfl⟩

theorem SegmentPattern.role {p : Value} {name : Option Symbol} {n : Nat} {cs : List Value}
    (form : SegmentPattern p name n cs) : role p = .segment (name.map .symbol) n (first? cs) := by
  cases form with
  | blank form =>
    obtain ⟨long, args, _⟩ := form.segmentLength?
    rw [Pattern.role, long, args]
    rfl
  | @named q _ _ x t form =>
    obtain ⟨long, args, present⟩ := form.segmentLength?
    have outer : Pattern.segmentLength? (.expr (sym "Pattern") [.symbol x, q] t) = none := rfl
    have other : (Value.expr (sym "Pattern") [.symbol x, q] t).hasHead "Optional" = false := rfl
    have named : (Value.expr (sym "Pattern") [.symbol x, q] t).hasHead "Pattern" = true := rfl
    have second : second? (Value.expr (sym "Pattern") [.symbol x, q] t).args = some q := present
    simp only [Pattern.role, outer, other, named, second, long, args, Bool.false_eq_true, if_false, if_true]
    rfl

theorem RelatesAll.one_parts {lax : Bool} {s : Bindings} {p : Value} {ps es : List Value}
    (related : RelatesAll lax s (p :: ps) es) (single : IsPattern p) :
    ∃ e later, es = e :: later ∧ Relates lax s p e ∧ RelatesAll lax s ps later := by
  cases related with
  | one _ here later => exact ⟨_, _, rfl, here, later⟩
  | segment form => cases single.role.symm.trans form.role

theorem RelatesAll.segment_parts {lax : Bool} {s : Bindings} {p : Value} {name : Option Symbol} {n : Nat}
    {cs ps es : List Value} (related : RelatesAll lax s (p :: ps) es) (form : SegmentPattern p name n cs) :
    ∃ front back, es = front ++ back ∧ (∀ x, name = some x → s.Gives x (ofItems front)) ∧
      RelatesAll lax s ps back := by
  cases related with
  | one single => cases single.role.symm.trans form.role
  | @segment _ other _ _ _ _ _ formToo _ _ bound later =>
    have named : other.map Value.symbol = name.map .symbol :=
      (Role.segment.inj (formToo.role.symm.trans form.role)).1
    obtain rfl : other = name := Option.map_injective (fun y z same => Value.symbol.inj same) named
    exact ⟨_, _, rfl, bound, later⟩

/-! ### Soundness -/

variable {σ : Type} {m : Settings σ}

theorem within_limit {depth : Nat} {x : Step σ (Option Bindings)} {s : Bindings} {st st' : σ}
    (run : (if (depth : Int) > m.maxDepth then return none else x) st = .ok (some s) st') :
    x st = .ok (some s) st' := by
  split at run
  · simp at run
  · exact run

theorem comparison_ok {same : Bool} {b s : Bindings} {st st' : σ}
    (run : (pure (if same then some b else none) : Step σ (Option Bindings)) st = .ok (some s) st') :
    same = true ∧ s = b := by
  cases same with
  | false => simp at run
  | true =>
    obtain ⟨same, _⟩ := Step.pure_ok.1 run
    exact ⟨rfl, (Option.some.inj same).symm⟩

mutual

/-- The bindings of a match relate the pattern to the value and extend those before it. -/
theorem matchOne_sound {p e : Value} {depth : Nat} {b s : Bindings} {st st' : σ} (pattern : IsPattern p)
    (settled : Settled e) (run : matchOne m none depth p e b st = .ok (some s) st') :
    Relates true s p e ∧ s.Extends b := by
  match p, pattern, run with
  | _, .literal basic, run =>
    rw [matchOne_comparison (.inr (shape_literal basic))] at run
    obtain ⟨same, rfl⟩ := comparison_ok (within_limit run)
    exact ⟨.literal basic same, .refl s⟩
  | _, .verbatim q t, run =>
    rw [matchOne_comparison (v := q) (.inl rfl)] at run
    obtain ⟨same, rfl⟩ := comparison_ok (within_limit run)
    exact ⟨.verbatim same, .refl s⟩
  | _, @IsPattern.blank cs t single, run =>
    rw [matchOne_of_shape (shape_blank cs t), matchShape] at run
    obtain ⟨accepted, u, tested, rest⟩ := Step.bind_ok (within_limit run)
    obtain ⟨tested, _⟩ := Step.ofExcept_ok.1 tested
    obtain ⟨rfl, rfl⟩ := comparison_ok rest
    exact ⟨.blank (headFits_of_accepts tested), .refl s⟩
  | _, @IsPattern.named q x t inner, run =>
    by_cases absent : q = .null
    · subst absent
      rw [matchOne_of_shape (shape_name x t), matchShape] at run
      obtain ⟨bound, _⟩ := Step.ofExcept_ok.1 (within_limit run)
      obtain ⟨extends_, gives⟩ := bindName_ok (some x) settled.equal_self bound
      exact ⟨.name rfl (gives x rfl), extends_⟩
    · rw [matchOne_of_shape (shape_named x t absent), matchShape] at run
      obtain ⟨result, u, matched, rest⟩ := Step.bind_ok (within_limit run)
      cases result with
      | none => simp at rest
      | some c =>
        obtain ⟨related, lower⟩ := matchOne_sound inner settled matched
        obtain ⟨bound, _⟩ := Step.ofExcept_ok.1 rest
        obtain ⟨upper, gives⟩ := bindName_ok (some x) settled.equal_self bound
        exact ⟨.named (related.mono upper) (gives x rfl), upper.trans lower⟩
  | _, @IsPattern.alternatives ps t choices, run =>
    rw [matchOne_of_shape (shape_alternatives ps t), matchShape] at run
    obtain ⟨q, choice, u, v, matched⟩ := firstOf_found (within_limit run)
    obtain ⟨related, extends_⟩ := matchOne_sound (choices q choice) settled matched
    exact ⟨.alternatives choice related, extends_⟩
  | _, @IsPattern.call f as t plain args, run =>
    exact compound_sound (plain_call plain).1 plain (.literal rfl) args settled run
  | _, @IsPattern.apply h as t curried head args, run =>
    have plain : isConstruct (.expr h as t) = false := by cases h <;> first | rfl | cases curried
    exact compound_sound (shape_apply curried) plain head args settled run
termination_by 2 * weight p
decreasing_by
  · simp only [weight, weights]; omega
  · have := weight_le_of_mem choice
    simp only [weight]; omega
  · simp only [weight]; omega
  · simp only [weight]; omega

theorem compound_sound {h e : Value} {as : List Value} {t : SymbolSet} {depth : Nat} {b s : Bindings}
    {st st' : σ} (form : shape (unwrapHold (.expr h as t)) = .compound h as)
    (plain : isConstruct (.expr h as t) = false) (head : IsPattern h) (args : ∀ a ∈ as, IsArgument a)
    (settled : Settled e) (run : matchOne m none depth (.expr h as t) e b st = .ok (some s) st') :
    Relates true s (.expr h as t) e ∧ s.Extends b := by
  rw [matchOne_of_shape form] at run
  have result := within_limit run
  cases e with
  | expr k es u =>
    rw [matchShape] at result
    obtain ⟨first, v, matched, rest⟩ := Step.bind_ok result
    cases first with
    | none => simp at rest
    | some c =>
      obtain ⟨found, w, many, last⟩ := Step.bind_ok rest
      obtain ⟨chosen, _⟩ := Step.pure_ok.1 last
      simp only [Option.getD_none, settled.inOrder, Bool.false_eq_true, if_false] at many
      obtain ⟨headRelated, lower⟩ := matchOne_sound head settled.head matched
      obtain ⟨argsRelated, upper⟩ := matchMany_sound args settled.args many s (List.mem_of_mem_head? chosen)
      exact ⟨.compound plain (headRelated.mono upper) argsRelated, upper.trans lower⟩
  | _ => simp [matchShape] at result
termination_by 2 * (weight h + weights as) + 1
decreasing_by
  · omega
  · have := weight_pos h
    omega

theorem matchMany_sound {all : Bool} {ps es : List Value} {depth : Nat} {b : Bindings} {found : List Bindings}
    {st st' : σ} (patterns : ∀ p ∈ ps, IsArgument p) (settled : ∀ e ∈ es, Settled e)
    (run : matchMany m all false depth ps es b st = .ok found st') :
    ∀ s ∈ found, RelatesAll true s ps es ∧ s.Extends b := by
  intro s member
  match ps, patterns, run with
  | [], _, run =>
    rw [matchMany.eq_def] at run
    obtain ⟨rfl, _⟩ := Step.pure_ok.1 run
    cases es with
    | nil =>
      obtain rfl : s = b := by simpa using member
      exact ⟨.nil, .refl s⟩
    | cons e es => simp at member
  | p :: rest, patterns, run =>
    cases patterns p (List.mem_cons_self ..) with
    | one pattern =>
      obtain ⟨e, later, c, u, rfl, matched, more⟩ := single_found pattern.role run member
      obtain ⟨here, lower⟩ := matchOne_sound pattern (settled e (by simp)) matched
      obtain ⟨there, upper⟩ := matchMany_sound (fun q inside => patterns q (by simp [inside]))
        (fun x inside => settled x (by simp [inside])) more s member
      exact ⟨.one pattern (here.mono upper) there, upper.trans lower⟩
    | segment form single =>
      obtain ⟨front, back, c, u, v, part, rfl, long, tested, named, more, inside⟩ := segment_found form.role run member
      have frontSettled : ∀ e ∈ front, Settled e := fun e here => settled e (by simp [here])
      obtain ⟨lower, gives⟩ := bindName_ok _ (equal_ofItems frontSettled) named
      obtain ⟨there, upper⟩ := matchMany_sound (fun q inside => patterns q (by simp [inside]))
        (fun x inside => settled x (by simp [inside])) more s inside
      refine ⟨.segment form long ?_ ?_ there, upper.trans lower⟩
      · exact fun e here => headFits_of_accepts (accepts_of_acceptsAll tested e here)
      · exact fun x same => (gives x same).mono upper
termination_by 2 * weights ps + 1
decreasing_by
  · simp only [weights]; omega
  · exact after_lt p rest
  · exact after_lt p rest

end

/-- Matching is sound: if a pattern matches an element without a NaN, none of whose expressions is flat
or orderless, then the bindings of the match relate the pattern to it, whatever they were before. An
absent inner pattern and an absent constraint stand for anything. -/
theorem match_relates (m : Settings σ) {p e : Value} {b s : Bindings} {st st' : σ} (pattern : IsPattern p)
    (element : e.isElement = true) (free : e.isNaNFree = true) (ordered : e.isOrdered = true)
    (run : matchOne m none 0 p e b st = .ok (some s) st') : Relates true s p e :=
  (matchOne_sound pattern ⟨element, free, ordered⟩ run).1

/-- The pattern `f[x_, y__, x_]`. -/
def repeatedName : Value :=
  call "f" [call "Pattern" [sym "x", call "Blank" []], call "Pattern" [sym "y", call "BlankSequence" []],
    call "Pattern" [sym "x", call "Blank" []]]

theorem repeatedName_isPattern : IsPattern repeatedName := by
  have single : IsArgument (call "Pattern" [sym "x", call "Blank" []]) :=
    .one (.named _ _ (.blank _ (by simp)))
  refine .call (by decide) fun a member => ?_
  simp only [List.mem_cons, List.not_mem_nil, or_false] at member
  rcases member with rfl | rfl | rfl
  · exact single
  · exact .segment (.named _ _ (.sequence [] _)) (by simp)
  · exact single

/-- `f[x_, y__, x_]` matches `f[1, a, g[2], 1]`, and is related to it by the bindings of the match. -/
theorem match_relates_repeatedName :
    ∃ s, matchOne (σ := Unit) ⟨none, defaultDepth⟩ none 0 repeatedName
        (call "f" [int 1, sym "a", call "g" [int 2], int 1]) .empty () = .ok (some s) () ∧
      Relates true s repeatedName (call "f" [int 1, sym "a", call "g" [int 2], int 1]) := by
  have found : Step.returns Option.isSome (matchOne (σ := Unit) ⟨none, defaultDepth⟩ none 0 repeatedName
      (call "f" [int 1, sym "a", call "g" [int 2], int 1]) .empty ()) = true := by
    decide +kernel
  obtain ⟨r, _, run, some⟩ := Step.returns_iff.1 found
  obtain ⟨s, rfl⟩ := Option.isSome_iff_exists.1 some
  exact ⟨s, run, match_relates _ repeatedName_isPattern (by decide) (by decide) (by decide) run⟩

/-- Taken as an atom, an absent inner pattern would equal only itself; yet `Pattern[x, None]` matches
`5`, and the two are not related once the absent pattern has to be. -/
theorem absent_inner_unrelated :
    IsPattern (call "Pattern" [sym "x", .null]) ∧
      ∃ s, matchOne (σ := Unit) ⟨none, defaultDepth⟩ none 0 (call "Pattern" [sym "x", .null]) (int 5)
          .empty () = .ok (some s) () ∧
        ¬ Relates false s (call "Pattern" [sym "x", .null]) (int 5) := by
  refine ⟨.named _ _ (.literal rfl), Bindings.empty.insert ⟨"x"⟩ (int 5), ?_, ?_⟩
  · have form : shape (unwrapHold (call "Pattern" [sym "x", .null])) = .named (some (sym "x")) none := rfl
    rw [matchOne_of_shape form, matchShape]
    rfl
  · intro related
    rcases related.named_parts.1 with inner | ⟨allowed, _⟩
    · cases inner with
      | literal _ same => simp [equal, number?, Value.same] at same
    · cases allowed

end Pattern
end Symbolic
