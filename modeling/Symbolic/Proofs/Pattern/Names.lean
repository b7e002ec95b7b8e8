import Symbolic.Proofs.Pattern.Enumeration

/-!
Which names a match binds, and to what. A pattern binds only names that occur in it, and only to
values that are as fit to be matched as the value it is matched against. Matching such values
never breaks off, unless two values of one name differ and one of them has no text.
-/
namespace Symbolic

namespace Step

variable {σ α β : Type} {st : σ} {cause : Prop} {Q R : α → Prop} {x : Step σ α}

/-- A computation leaves a state as it is. It comes to a result with a property, or it fails for lack of
a text, and then there is a cause. -/
def Ends (st : σ) (cause : Prop) (Q : α → Prop) (x : Step σ α) : Prop :=
  (∃ a, x st = .ok a st ∧ Q a) ∨ x st = .error (.failure .malformed) st ∧ cause

theorem Ends.pure {a : α} (holds : Q a) : (pure a : Step σ α).Ends st cause Q := .inl ⟨a, rfl, holds⟩

theorem Ends.none {Q : β → Prop} :
    (Pure.pure Option.none : Step σ (Option β)).Ends st cause fun found => ∀ r ∈ found, Q r :=
  .pure fun _ member => by cases member

theorem Ends.nil {Q : β → Prop} : (Pure.pure [] : Step σ (List β)).Ends st cause fun found => ∀ r ∈ found, Q r :=
  .pure fun _ member => by cases member

theorem Ends.bind {f : α → Step σ β} {R : β → Prop} (first : x.Ends st cause Q)
    (next : ∀ a, x st = .ok a st → Q a → (f a).Ends st cause R) : (x >>= f).Ends st cause R := by
  rcases first with ⟨a, ran, holds⟩ | ⟨failed, why⟩
  · have step : (x >>= f) st = f a st := bind_of_ok ran
    unfold Ends
    rw [step]
    exact next a ran holds
  · refine .inr ⟨?_, why⟩
    show EStateM.bind x f st = _
    rw [EStateM.bind, failed]

theorem Ends.mono (ends : x.Ends st cause Q) (implies : ∀ a, Q a → R a) : x.Ends st cause R :=
  ends.imp_left fun ⟨a, ran, holds⟩ => ⟨a, ran, implies a holds⟩

theorem Ends.of_ok {a : α} {st' : σ} (ends : x.Ends st cause Q) (ran : x st = .ok a st') : Q a := by
  rcases ends with ⟨r, same, holds⟩ | ⟨failed, _⟩
  · cases same.symm.trans ran
    exact holds
  · cases failed.symm.trans ran

end Step

namespace Pattern

open Value Step

/-- A name occurs in a pattern: matching the pattern can bind it. -/
inductive Names (x : Symbol) : Value → Prop
  | here (q : Value) (t : SymbolSet) : Names x (.expr (sym "Pattern") [.symbol x, q] t)
  | named {q : Value} (y : Symbol) (t : SymbolSet) (inner : Names x q) :
    Names x (.expr (sym "Pattern") [.symbol y, q] t)
  | choice {p : Value} {ps : List Value} (t : SymbolSet) (choice : p ∈ ps) (inner : Names x p) :
    Names x (.expr (sym "Alternatives") ps t)
  | head {h : Value} {as : List Value} {t : SymbolSet} (plain : isConstruct (.expr h as t) = false)
    (inner : Names x h) : Names x (.expr h as t)
  | arg {h a : Value} {as : List Value} {t : SymbolSet} (plain : isConstruct (.expr h as t) = false)
    (argument : a ∈ as) (inner : Names x a) : Names x (.expr h as t)

section Occurrence

variable {x y : Symbol} {h q : Value} {as : List Value} {t : SymbolSet}

theorem Names.of_named (names : Names x (.expr (sym "Pattern") [.symbol y, q] t)) : x = y ∨ Names x q := by
  generalize form : Value.expr (sym "Pattern") [.symbol y, q] t = p at names
  cases names with
  | here =>
    cases form
    exact .inl rfl
  | named z u inner =>
    cases form
    exact .inr inner
  | choice => simp at form
  | head plain | arg plain =>
    cases form
    cases plain

theorem Names.of_construct (names : Names x (.expr h as t)) (construct : isConstruct (.expr h as t) = true)
    (unnamed : h ≠ sym "Pattern") (single : h ≠ sym "Alternatives") : False := by
  generalize form : Value.expr h as t = p at names construct
  cases names with
  | here | named =>
    cases form
    exact unnamed rfl
  | choice =>
    cases form
    exact single rfl
  | head plain | arg plain =>
    rw [plain] at construct
    cases construct

theorem Names.of_plain (names : Names x (.expr h as t)) (plain : isConstruct (.expr h as t) = false) :
    Names x h ∨ ∃ a ∈ as, Names x a := by
  generalize form : Value.expr h as t = p at names plain
  cases names with
  | here | named | choice => cases plain
  | head _ inner =>
    cases form
    exact .inl inner
  | arg _ argument inner =>
    cases form
    exact .inr ⟨_, argument, inner⟩

end Occurrence

/-- A value that can be matched as it stands, and has a text unless there is a cause for it to have none. -/
structure Fair (cause : Prop) (v : Value) : Prop extends Settled v where
  text : v.isWritable = true ∨ cause

section Fair

variable {cause : Prop} {h : Value} {as es : List Value} {t : SymbolSet}

theorem Fair.head (fair : Fair cause (.expr h as t)) : Fair cause h :=
  ⟨fair.toSettled.head, fair.text.imp_left fun written => (isWritable_expr.1 written).1⟩

theorem Fair.args (fair : Fair cause (.expr h as t)) : ∀ a ∈ as, Fair cause a := fun a member =>
  ⟨fair.toSettled.args a member, fair.text.imp_left fun written => (isWritable_expr.1 written).2 a member⟩

theorem Fair.ofItems (fair : ∀ e ∈ es, Fair cause e) : Fair cause (ofItems es) := by
  refine ⟨⟨?_, ?_, ?_⟩, ?_⟩
  · exact everywhere_expr.2 ⟨rfl, rfl, fun e member => (fair e member).element⟩
  · exact everywhere_expr.2 ⟨rfl, rfl, fun e member => (fair e member).free⟩
  · exact everywhere_expr.2 ⟨rfl, rfl, fun e member => (fair e member).ordered⟩
  · by_cases why : cause
    · exact .inr why
    · exact .inl (isWritable_expr.2 ⟨rfl, fun e member => (fair e member).text.resolve_right why⟩)

end Fair

section Gains

variable {cause : Prop} {b c d : Bindings} {N M K : Symbol → Prop}

/-- All names have fair values. -/
def Known (cause : Prop) (b : Bindings) : Prop := ∀ x v, b.get? x = some v → Fair cause v

/-- What is bound was bound before, or is one of some names and has a fair value. -/
def Gains (cause : Prop) (N : Symbol → Prop) (b c : Bindings) : Prop :=
  ∀ x v, c.get? x = some v → b.get? x = some v ∨ N x ∧ Fair cause v

theorem Gains.refl (b : Bindings) : Gains cause N b b := fun _ _ found => .inl found

theorem Gains.trans (first : Gains cause N b c) (second : Gains cause M c d) (left : ∀ x, N x → K x)
    (right : ∀ x, M x → K x) : Gains cause K b d := by
  intro x v found
  rcases second x v found with before | ⟨new, fair⟩
  · exact (first x v before).imp_right fun ⟨new, fair⟩ => ⟨left x new, fair⟩
  · exact .inr ⟨right x new, fair⟩

theorem Gains.mono (gains : Gains cause N b c) (implies : ∀ x, N x → M x) : Gains cause M b c :=
  gains.trans (.refl c) implies implies

theorem Gains.known (gains : Gains cause N b c) (known : Known cause b) : Known cause c := by
  intro x v found
  rcases gains x v found with before | ⟨_, fair⟩
  · exact known x v before
  · exact fair

end Gains

variable {σ α β : Type} {m : Settings σ} {st : σ} {cause : Prop} {b : Bindings}

theorem gains_extend {v : Value} (fair : Fair cause v) (x : Symbol) (b : Bindings) :
    Gains cause (· = x) b (b.extend [(x, v)]) := by
  intro y u found
  rw [Bindings.get_extend_one, Option.or_eq_some_iff] at found
  refine found.imp_right fun ⟨_, here⟩ => ?_
  obtain ⟨rfl, rfl⟩ : y = x ∧ v = u := by simpa using here
  exact ⟨rfl, fair⟩

/-- Binding a name comes to an end: at worst it is refused, or the refusal cannot be put into words. -/
theorem bindName_ends {v : Value} (known : Known cause b) (name : Option Symbol) (fair : Fair cause v) :
    (ofExcept (bindName b (name.map .symbol) v) : Step σ _).Ends st cause
      fun r => ∀ c ∈ r, Gains cause (fun x => name = some x) b c := by
  cases name with
  | none =>
    refine .pure fun c member => ?_
    obtain rfl := Option.some.inj member
    exact .refl b
  | some x =>
    rw [Option.map_some]
    rcases bindName_cases b x fair.element with ⟨_, bound⟩ | ⟨old, found, _, refused | ⟨failed, clash⟩⟩
    · rw [bound]
      refine .pure fun c member => ?_
      obtain rfl := Option.some.inj member
      exact (gains_extend fair x b).mono fun y same => congrArg some same.symm
    · rw [refused]
      exact .none
    · rw [failed]
      refine .inr ⟨rfl, ?_⟩
      by_contra innocent
      rw [(known x old found).text.resolve_right innocent, fair.text.resolve_right innocent] at clash
      cases clash

theorem collect_ends {all : Bool} {f : α → Step σ (List β)} {xs : List α} {Q : β → Prop}
    (each : ∀ x ∈ xs, (f x).Ends st cause fun found => ∀ r ∈ found, Q r) :
    (collect all f xs).Ends st cause fun found => ∀ r ∈ found, Q r := by
  induction xs with
  | nil => exact .nil
  | cons x xs ih =>
    refine .bind (each x (List.mem_cons_self ..)) fun here _ holds => ?_
    split
    · exact .pure holds
    · refine .bind (ih fun y member => each y (List.mem_cons_of_mem x member)) fun later _ holdToo => .pure ?_
      intro r member
      rcases List.mem_append.1 member with old | new
      · exact holds r old
      · exact holdToo r new

theorem firstOf_ends {f : α → Step σ (Option β)} {xs : List α} {Q : β → Prop}
    (each : ∀ x ∈ xs, (f x).Ends st cause fun found => ∀ r ∈ found, Q r) :
    (firstOf f xs).Ends st cause fun found => ∀ r ∈ found, Q r := by
  induction xs with
  | nil => exact .none
  | cons x xs ih =>
    refine .bind (each x (List.mem_cons_self ..)) fun here _ holds => ?_
    cases here with
    | some r => exact .pure holds
    | none => exact ih fun y member => each y (List.mem_cons_of_mem x member)

/-- A computation that is run only below the depth limit, and comes to nothing otherwise. -/
theorem ends_limited {depth : Nat} {x : Step σ (Option β)} {Q : β → Prop}
    (ends : x.Ends st cause fun found => ∀ r ∈ found, Q r) :
    (if (depth : Int) > m.maxDepth then return none else x : Step σ (Option β)).Ends st cause
      fun found => ∀ r ∈ found, Q r := by
  split
  · exact .none
  · exact ends

theorem ends_test {test : Bool} {N : Symbol → Prop} :
    (pure (if test then some b else none) : Step σ (Option Bindings)).Ends st cause
      fun found => ∀ c ∈ found, Gains cause N b c := by
  refine .pure fun c member => ?_
  cases test with
  | false => cases member
  | true =>
    obtain rfl := Option.some.inj member
    exact .refl b

/-- Letting a segment pattern take the values in front: they may not fit, or the name may refuse them. -/
theorem ends_cut {cs front : List Value} {name : Option Symbol} {f : Bool → Step σ β} {g : Option Bindings → Step σ β}
    {Q : β → Prop} (known : Known cause b) (fair : ∀ e ∈ front, Fair cause e)
    (fitting : f true = ofExcept (bindName b (name.map .symbol) (ofItems front)) >>= g)
    (unfit : (f false).Ends st cause Q) (refused : (g none).Ends st cause Q)
    (bound : ∀ c, Gains cause (fun x => name = some x) b c → (g (some c)).Ends st cause Q) :
    (ofExcept (acceptsAll (first? cs) front) >>= f).Ends st cause Q := by
  obtain ⟨accepted, tested, _⟩ := acceptsAll_eq cs fun e member => (fair e member).element
  rw [tested]
  refine .bind (Q := (· = accepted)) (.pure rfl) fun accepted _ _ => ?_
  cases accepted with
  | false => exact unfit
  | true =>
    rw [fitting]
    refine .bind (bindName_ends known name (.ofItems fair)) fun found _ gain => ?_
    cases found with
    | none => exact refused
    | some c => exact bound c (gain c rfl)

mutual

/-- A match comes to an end, and binds only names of the pattern. -/
theorem matchOne_ends {p e : Value} {depth : Nat} {b : Bindings} (pattern : IsPattern p) (fair : Fair cause e)
    (known : Known cause b) :
    (matchOne m none depth p e b).Ends st cause fun found => ∀ c ∈ found, Gains cause (Names · p) b c := by
  match p, pattern with
  | _, .literal basic =>
    rw [matchOne_comparison (.inr (shape_literal basic))]
    exact ends_limited ends_test
  | _, .verbatim q t =>
    rw [matchOne_comparison (v := q) (.inl rfl)]
    exact ends_limited ends_test
  | _, @IsPattern.blank cs t single =>
    obtain ⟨accepted, tested, _⟩ := accepts_eq cs fair.element
    rw [matchOne_of_shape (shape_blank cs t), matchShape, tested]
    exact ends_limited ends_test
  | _, @IsPattern.named q x t inner =>
    have named : ∀ {c : Bindings}, Known cause c → Gains cause (Names · q) b c →
        (ofExcept (bindName c (some (.symbol x)) e) : Step σ _).Ends st cause fun found =>
          ∀ d ∈ found, Gains cause (Names · (.expr (sym "Pattern") [.symbol x, q] t)) b d := by
      intro c known gains
      refine (bindName_ends known (some x) fair).mono fun found more d member => ?_
      refine gains.trans (more d member) (fun y inside => .named x t inside) fun y same => ?_
      cases same
      exact .here q t
    by_cases absent : q = .null
    · subst absent
      rw [matchOne_of_shape (shape_name x t), matchShape]
      exact ends_limited (named known (.refl b))
    · rw [matchOne_of_shape (shape_named x t absent), matchShape]
      refine ends_limited (.bind (matchOne_ends inner fair known) fun found _ gain => ?_)
      cases found with
      | none => exact .none
      | some c => exact named ((gain c rfl).known known) (gain c rfl)
  | _, @IsPattern.alternatives ps t choices =>
    rw [matchOne_of_shape (shape_alternatives ps t), matchShape]
    refine ends_limited (firstOf_ends fun q choice => ?_)
    refine (matchOne_ends (choices q choice) fair known).mono fun found gain c member => ?_
    exact (gain c member).mono fun x inside => .choice t choice inside
  | _, @IsPattern.call f as t plain args =>
    exact compound_ends (plain_call plain).1 plain (.literal rfl) args fair known
  | _, @IsPattern.apply h as t curried head args =>
    have plain : isConstruct (.expr h as t) = false := by cases h <;> first | rfl | cases curried
    exact compound_ends (shape_apply curried) plain head args fair known
termination_by 2 * weight p
decreasing_by
  · simp only [weight, weights]; omega
  · have := weight_le_of_mem choice
    simp only [weight]; omega
  · simp only [weight]; omega
  · simp only [weight]; omega

theorem compound_ends {h e : Value} {as : List Value} {t : SymbolSet} {depth : Nat} {b : Bindings}
    (form : shape (unwrapHold (.expr h as t)) = .compound h as) (plain : isConstruct (.expr h as t) = false)
    (head : IsPattern h) (args : ∀ a ∈ as, IsArgument a) (fair : Fair cause e) (known : Known cause b) :
    (matchOne m none depth (.expr h as t) e b).Ends st cause
      fun found => ∀ c ∈ found, Gains cause (Names · (.expr h as t)) b c := by
  rw [matchOne_of_shape form]
  refine ends_limited ?_
  cases e with
  | expr k es u =>
    rw [matchShape]
    refine .bind (matchOne_ends head fair.head known) fun found _ gain => ?_
    cases found with
    | none => exact .none
    | some c =>
      simp only [Option.getD_none, fair.inOrder, Bool.false_eq_true, if_false]
      refine .bind (matchMany_ends args fair.args ((gain c rfl).known known)) fun found _ gains => .pure ?_
      intro d member
      refine (gain c rfl).trans (gains d (List.mem_of_mem_head? member)) (fun x => .head plain) fun x => ?_
      exact fun ⟨a, argument, inside⟩ => .arg plain argument inside
  | _ => exact .none
termination_by 2 * (weight h + weights as) + 1
decreasing_by
  · omega
  · have := weight_pos h
    omega

theorem matchMany_ends {all : Bool} {ps es : List Value} {depth : Nat} {b : Bindings}
    (patterns : ∀ p ∈ ps, IsArgument p) (fair : ∀ e ∈ es, Fair cause e) (known : Known cause b) :
    (matchMany m all false depth ps es b).Ends st cause
      fun found => ∀ c ∈ found, Gains cause (fun x => ∃ p ∈ ps, Names x p) b c := by
  match ps, patterns with
  | [], _ =>
    rw [matchMany.eq_def]
    refine .pure fun c member => ?_
    cases es with
    | nil =>
      obtain rfl : c = b := by simpa using member
      exact .refl c
    | cons e es => simp at member
  | p :: rest, patterns =>
    have patternsToo : ∀ q ∈ rest, IsArgument q := fun q member => patterns q (List.mem_cons_of_mem p member)
    -- The names of the first pattern come first, then those of the rest.
    have joined : ∀ {N : Symbol → Prop} {c : Bindings} {found : List Bindings}, Gains cause N b c →
        (∀ x, N x → Names x p) → (∀ d ∈ found, Gains cause (fun x => ∃ q ∈ rest, Names x q) c d) →
        ∀ d ∈ found, Gains cause (fun x => ∃ q ∈ p :: rest, Names x q) b d := by
      intro N c found gain inside gains d member
      refine gain.trans (gains d member) (fun x new => ⟨p, List.mem_cons_self .., inside x new⟩) fun x => ?_
      exact fun ⟨q, later, name⟩ => ⟨q, List.mem_cons_of_mem p later, name⟩
    cases patterns p (List.mem_cons_self ..) with
    | one pattern =>
      rw [matchMany_single pattern.role]
      cases es with
      | nil => exact .nil
      | cons e later =>
        refine .bind (matchOne_ends pattern (fair e (List.mem_cons_self ..)) known) fun found _ gain => ?_
        cases found with
        | none => exact .nil
        | some c =>
          have fairToo : ∀ d ∈ later, Fair cause d := fun d member => fair d (List.mem_cons_of_mem e member)
          refine (matchMany_ends patternsToo fairToo ((gain c rfl).known known)).mono fun found gains => ?_
          exact joined (gain c rfl) (fun x inside => inside) gains
    | @segment _ name n cs form single =>
      rw [matchMany_segment form.role]
      refine collect_ends fun cut member => ?_
      obtain ⟨front, back⟩ := cut
      obtain ⟨rfl, long⟩ := cuts_append member
      obtain ⟨inFront, behind⟩ := List.forall_mem_append.1 fair
      refine ends_cut known inFront rfl .nil .nil fun c gain => ?_
      refine (matchMany_ends patternsToo behind (gain.known known)).mono fun found gains => ?_
      refine joined gain (fun x named => ?_) gains
      cases form with
      | blank form => cases named
      | named y t form =>
        cases named
        exact .here _ t
termination_by 2 * weights ps + 1
decreasing_by
  · simp only [weights]; omega
  · exact after_lt p rest
  · exact after_lt p rest

end

end Pattern
end Symbolic
