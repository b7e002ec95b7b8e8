import Symbolic.Proofs.Pattern.Rigid

/-!
When matching is complete. Among its siblings a pattern goes back to every way to divide the
values; but into a pattern that is nested in another, or named, it does not return once that has
matched. So a match that exists is found, unless some part of the pattern lies too deep, or a nested
part can bind a name that is needed again in two ways that differ. Neither is the case for a rigid
pattern that is not too large, which matches just what it belongs together with.
-/
namespace Symbolic.Pattern

open Value Step

/-! ### The parts of a pattern -/

section Parts

variable {x : Symbol} {h q : Value} {as ps : List Value} {t : SymbolSet}

theorem IsPattern.inner (pattern : IsPattern (.expr (sym "Pattern") [.symbol x, q] t)) : IsPattern q := by
  generalize form : Value.expr (sym "Pattern") [.symbol x, q] t = p at pattern
  cases pattern with
  | literal basic =>
    subst form
    cases basic
  | named y u inner =>
    cases form
    exact inner
  | call plain =>
    cases form
    cases plain
  | apply u curried =>
    cases form
    cases curried
  | verbatim | blank | alternatives => simp at form

theorem IsPattern.choices (pattern : IsPattern (.expr (sym "Alternatives") ps t)) : ∀ p ∈ ps, IsPattern p := by
  generalize form : Value.expr (sym "Alternatives") ps t = p at pattern
  cases pattern with
  | literal basic =>
    subst form
    cases basic
  | alternatives u choices =>
    cases form
    exact choices
  | call plain =>
    cases form
    cases plain
  | apply u curried =>
    cases form
    cases curried
  | verbatim | blank | named => simp at form

theorem IsPattern.compound (pattern : IsPattern (.expr h as t)) (plain : isConstruct (.expr h as t) = false) :
    shape (unwrapHold (.expr h as t)) = .compound h as ∧ IsPattern h ∧ ∀ a ∈ as, IsArgument a := by
  generalize form : Value.expr h as t = p at pattern plain
  cases pattern with
  | literal basic =>
    subst form
    cases basic
  | verbatim | blank | named | alternatives => cases plain
  | call plain args =>
    cases form
    exact ⟨(plain_call plain).1, .literal rfl, args⟩
  | apply u curried head args =>
    cases form
    exact ⟨shape_apply curried, head, args⟩

end Parts

/-- Some part of a pattern, if that is matched at a depth, is matched beyond a limit. -/
inductive Exceeds (limit : Int) : Nat → Value → Prop
  | here {depth : Nat} {p : Value} (deep : limit < depth) : Exceeds limit depth p
  | named {depth : Nat} {x : Symbol} {q : Value} {t : SymbolSet} (inner : Exceeds limit (depth + 1) q) :
    Exceeds limit depth (.expr (sym "Pattern") [.symbol x, q] t)
  | choice {depth : Nat} {p : Value} {ps : List Value} {t : SymbolSet} (choice : p ∈ ps)
    (inner : Exceeds limit (depth + 1) p) : Exceeds limit depth (.expr (sym "Alternatives") ps t)
  | head {depth : Nat} {h : Value} {as : List Value} {t : SymbolSet} (plain : isConstruct (.expr h as t) = false)
    (inner : Exceeds limit (depth + 1) h) : Exceeds limit depth (.expr h as t)
  -- Each argument is one step deeper than the one before it.
  | arg {depth i : Nat} {h a : Value} {as : List Value} {t : SymbolSet}
    (plain : isConstruct (.expr h as t) = false) (place : as[i]? = some a) (single : IsPattern a)
    (inner : Exceeds limit (depth + 1 + i + 1) a) : Exceeds limit depth (.expr h as t)

theorem weight_add_le_of_getElem? {i : Nat} {a : Value} {as : List Value} (place : as[i]? = some a) :
    i + weight a ≤ weights as := by
  induction as generalizing i with
  | nil => cases place
  | cons b as ih =>
    cases i with
    | zero =>
      obtain rfl : b = a := by simpa using place
      simp only [weights]
      omega
    | succ i =>
      have later := ih (by simpa using place)
      have := weight_pos b
      simp only [weights]
      omega

theorem lt_of_exceeds {limit : Int} {depth : Nat} {p : Value} (deep : Exceeds limit depth p) :
    limit < depth + weight p := by
  induction deep with
  | @here depth p deep =>
    have := weight_pos p
    omega
  | named inner ih | head plain inner ih =>
    simp only [weight, weights] at ih ⊢
    omega
  | choice choice inner ih =>
    have := weight_le_of_mem choice
    simp only [weight] at ih ⊢
    omega
  | @arg depth i h a as t plain place single inner ih =>
    have := weight_add_le_of_getElem? place
    have := weight_pos h
    simp only [weight] at ih ⊢
    omega

/-- A pattern belongs together with a value in two ways, which give a name values that are not equal. -/
def Differ (x : Symbol) (q e : Value) : Prop :=
  ∃ s u v w, Relates true s q e ∧ Relates true u q e ∧ s.get? x = some v ∧ u.get? x = some w ∧ v.equal w = false

/-- Somewhere in a pattern a name that occurs again in what is matched later is left open by a nested
pattern: it differs between two ways in which that belongs together with a part of the value. -/
inductive Undecided : Value → Value → Prop
  | name {x : Symbol} {q e : Value} {t : SymbolSet} (first : Names x q) (ways : Differ x q e) :
    Undecided (.expr (sym "Pattern") [.symbol x, q] t) e
  | named {x : Symbol} {q e : Value} {t : SymbolSet} (inner : Undecided q e) :
    Undecided (.expr (sym "Pattern") [.symbol x, q] t) e
  | choice {p e : Value} {ps : List Value} {t : SymbolSet} (choice : p ∈ ps) (inner : Undecided p e) :
    Undecided (.expr (sym "Alternatives") ps t) e
  | head {x : Symbol} {h k a : Value} {as es : List Value} {t u : SymbolSet}
    (plain : isConstruct (.expr h as t) = false) (first : Names x h) (argument : a ∈ as) (again : Names x a)
    (ways : Differ x h k) : Undecided (.expr h as t) (.expr k es u)
  | inHead {h k : Value} {as es : List Value} {t u : SymbolSet} (plain : isConstruct (.expr h as t) = false)
    (inner : Undecided h k) : Undecided (.expr h as t) (.expr k es u)
  | arg {x : Symbol} {h k a c d : Value} {as es : List Value} {t u : SymbolSet}
    (plain : isConstruct (.expr h as t) = false) (order : [a, c].Sublist as) (first : Names x a) (again : Names x c)
    (member : d ∈ es) (ways : Differ x a d) : Undecided (.expr h as t) (.expr k es u)
  | inArg {h k a d : Value} {as es : List Value} {t u : SymbolSet} (plain : isConstruct (.expr h as t) = false)
    (argument : a ∈ as) (member : d ∈ es) (inner : Undecided a d) : Undecided (.expr h as t) (.expr k es u)

theorem not_differ_of_rigid {x : Symbol} {q e : Value} (rigid : isRigid q = true) (element : e.isElement = true)
    (names : Names x q) : ¬ Differ x q e := by
  rintro ⟨s, u, v, w, first, second, left, right, different⟩
  have share : Share s u x := second.share rigid element names first
  rw [share.equal left right] at different
  cases different

theorem decided_of_rigid {p e : Value} (rigid : isRigid p = true) (element : e.isElement = true) :
    ¬ Undecided p e := by
  intro undecided
  induction undecided with
  | name first ways => exact not_differ_of_rigid ((everywhere_expr.1 rigid).2.2 _ (by simp)) element first ways
  | named inner ih => exact ih ((everywhere_expr.1 rigid).2.2 _ (by simp)) element
  | choice => cases everywhere_here rigid
  | head plain first argument again ways =>
    exact not_differ_of_rigid (everywhere_expr.1 rigid).2.1 (everywhere_expr.1 element).2.1 first ways
  | inHead plain inner ih => exact ih (everywhere_expr.1 rigid).2.1 (everywhere_expr.1 element).2.1
  | arg plain order first again member ways =>
    have argument := order.subset (List.mem_cons_self ..)
    exact not_differ_of_rigid ((everywhere_expr.1 rigid).2.2 _ argument) ((everywhere_expr.1 element).2.2 _ member)
      first ways
  | inArg plain argument member inner ih =>
    exact ih ((everywhere_expr.1 rigid).2.2 _ argument) ((everywhere_expr.1 element).2.2 _ member)

section Completeness

variable {σ α β : Type} {m : Settings σ} {st : σ} {cause : Prop} {b c s : Bindings} {x : Symbol}

/-- The value of a name, if both bindings have one, is equal in both. -/
def Agree (b s : Bindings) (x : Symbol) : Prop := ∀ v w, b.get? x = some v → s.get? x = some w → w.equal v = true

/-- A name is bound to a value that it has in bindings with which the present ones agree. -/
theorem bindName_agrees {v : Value} {name : Option Symbol} (known : Known cause b) (fair : Fair cause v)
    (agree : ∀ x, name = some x → Agree b s x) (gives : ∀ x, name = some x → s.Gives x v) :
    ∃ c, bindName b (name.map .symbol) v = .ok (some c) ∧ Gains cause (fun x => name = some x) b c ∧
      ∀ x, Agree b s x → Agree c s x := by
  cases name with
  | none => exact ⟨b, rfl, .refl b, fun x agree => agree⟩
  | some x =>
    obtain ⟨w, there, same⟩ := gives x rfl
    rcases bindName_cases b x fair.element with ⟨_, bound⟩ | ⟨old, found, different, _⟩
    · refine ⟨_, bound, (gains_extend fair x b).mono fun y same => congrArg some same.symm, fun y agree => ?_⟩
      intro u z here thereToo
      rw [Bindings.get_extend_one, Option.or_eq_some_iff] at here
      rcases here with before | ⟨_, new⟩
      · exact agree u z before thereToo
      · obtain ⟨rfl, rfl⟩ : y = x ∧ v = u := by simpa using new
        obtain rfl : w = z := Option.some.inj (there.symm.trans thereToo)
        exact same
    · have alike : old.equal v = true :=
        equal_of_equal (known x old found).element (known x old found).free (agree x rfl old w found there) same
      rw [alike] at different
      cases different

theorem bindName_succeeds {v : Value} (known : Known cause b) (fair : Fair cause v) (gives : s.Gives x v)
    (agree : Agree b s x) :
    (ofExcept (bindName b (some (.symbol x)) v) : Step σ _).Ends st cause (·.isSome = true) := by
  have agrees : ∀ y, some x = some y → Agree b s y := fun y same => Option.some.inj same ▸ agree
  obtain ⟨c, bound, _⟩ := bindName_agrees known fair agrees fun y same => Option.some.inj same ▸ gives
  rw [Option.map_some] at bound
  rw [bound]
  exact .pure rfl

/-- A search over choices finds something if one choice leads to something and the others come to an end. -/
theorem collect_succeeds {all : Bool} {f : α → Step σ (List β)} {xs : List α} {x : α} (choice : x ∈ xs)
    (each : ∀ y ∈ xs, (f y).Ends st cause fun _ => True) (found : (f x).Ends st cause (· ≠ [])) :
    (collect all f xs).Ends st cause (· ≠ []) := by
  induction xs with
  | nil => cases choice
  | cons y ys ih =>
    have others : ∀ z ∈ ys, (f z).Ends st cause fun _ => True := fun z member => each z (List.mem_cons_of_mem y member)
    rcases List.mem_cons.1 choice with rfl | later
    · refine .bind found fun here _ some => ?_
      split
      · exact .pure some
      · have rest : (collect all f ys).Ends st cause fun _ => True :=
          (collect_ends (Q := fun _ => True) fun z member => (others z member).mono fun _ _ _ _ => trivial).mono
            fun _ _ => trivial
        exact .bind rest fun more _ _ => .pure (by simp [some])
    · refine .bind (each y (List.mem_cons_self ..)) fun here _ _ => ?_
      split
      · next enough => exact .pure (by rintro rfl; simp at enough)
      · exact .bind (ih later others) fun more _ some => .pure (by simp [some])

theorem firstOf_succeeds {f : α → Step σ (Option β)} {xs : List α} {x : α} (choice : x ∈ xs)
    (each : ∀ y ∈ xs, (f y).Ends st cause fun _ => True) (found : (f x).Ends st cause (·.isSome = true)) :
    (firstOf f xs).Ends st cause (·.isSome = true) := by
  induction xs with
  | nil => cases choice
  | cons y ys ih =>
    have others : ∀ z ∈ ys, (f z).Ends st cause fun _ => True := fun z member => each z (List.mem_cons_of_mem y member)
    rcases List.mem_cons.1 choice with rfl | later
    · refine .bind found fun here _ some => ?_
      cases here with
      | some r => exact .pure rfl
      | none => cases some
    · refine .bind (each y (List.mem_cons_self ..)) fun here _ _ => ?_
      cases here with
      | some r => exact .pure rfl
      | none => exact ih later others

/-- The values that patterns are taken to need are there where they belong together with some. -/
theorem needed_le_of_related {ps es : List Value} (related : RelatesAll true s ps es) :
    neededAfterSegment ps ≤ es.length := by
  induction ps generalizing es with
  | nil => exact Nat.zero_le _
  | cons p ps ih =>
    cases related with
    | one single here later =>
      rw [List.length_cons, Nat.add_comm]
      exact needed_cons_le (fun _ => Nat.one_pos) (ih later)
    | @segment _ _ n _ _ _ _ form long fits bound later =>
      rw [List.length_append]
      refine needed_cons_le (fun some => ?_) (ih later)
      rw [takesNothing, form.role] at some
      cases n with
      | zero => cases some
      | succ n => exact Nat.lt_of_lt_of_le n.succ_pos long

/-- What a match of a part has bound agrees with a way in which the whole belongs together, if it
leaves the name in question no choice. -/
theorem matched_agrees {q e : Value} {depth : Nat} (pattern : IsPattern q) (fair : Fair cause e)
    (known : Known cause b) (related : Relates true s q e) (ran : matchOne m none depth q e b st = .ok (some c) st) :
    Known cause c ∧ ∀ x, Agree b s x → (Names x q → ¬ Differ x q e) → Agree c s x := by
  have gains : Gains cause (Names · q) b c := (matchOne_ends pattern fair known).of_ok ran c rfl
  refine ⟨gains.known known, fun x before decided v w here there => ?_⟩
  rcases gains x v here with old | ⟨new, _⟩
  · exact before v w old there
  · -- Both ways in which the part belongs together with its value are at hand.
    by_contra different
    have found : Relates true c q e := (matchOne_sound pattern fair.toSettled ran).1
    exact decided new ⟨s, c, w, v, related, found, there, here, Bool.eq_false_iff.2 different⟩

mutual

/-- A pattern that belongs together with a value matches it, if it is not too deep and leaves nothing
undecided. -/
theorem matchOne_complete {p e : Value} {b : Bindings} {depth : Nat} (pattern : IsPattern p) (fair : Fair cause e)
    (known : Known cause b) (agree : ∀ x, Names x p → Agree b s x) (shallow : ¬ Exceeds m.maxDepth depth p)
    (decided : ¬ Undecided p e) : Relates true s p e → (matchOne m none depth p e b).Ends st cause (·.isSome = true)
  | .literal basic same => by
    rw [matchOne_comparison (.inr (shape_literal basic)), if_neg fun deep => shallow (.here deep), if_pos same]
    exact .pure rfl
  | @Relates.verbatim _ _ q _ t same => by
    rw [matchOne_comparison (v := q) (.inl rfl), if_neg fun deep => shallow (.here deep), if_pos same]
    exact .pure rfl
  | @Relates.blank _ _ cs _ t fits => by
    obtain ⟨accepted, tested, accepting⟩ := accepts_eq cs fair.element
    rw [matchOne_of_shape (shape_blank cs t), matchShape, if_neg fun deep => shallow (.here deep), tested,
      accepting.2 fits]
    exact .pure rfl
  | @Relates.named _ _ x q _ t inner bound => by
    by_cases absent : q = .null
    · subst absent
      rw [matchOne_of_shape (shape_name x t), matchShape, if_neg fun deep => shallow (.here deep)]
      exact bindName_succeeds known fair bound (agree x (.here _ t))
    · rw [matchOne_of_shape (shape_named x t absent), matchShape, if_neg fun deep => shallow (.here deep)]
      have first := matchOne_complete pattern.inner fair known (fun y inside => agree y (.named x t inside))
        (fun deep => shallow (.named deep)) (fun open_ => decided (.named open_)) inner
      refine .bind first fun found ran some => ?_
      cases found with
      | none => cases some
      | some c =>
        obtain ⟨known, agreeing⟩ := matched_agrees pattern.inner fair known inner ran
        have agreeHere : Agree c s x :=
          agreeing x (agree x (.here q t)) fun first ways => decided (.name first ways)
        exact bindName_succeeds known fair bound agreeHere
  | @Relates.name _ _ x _ t allowed bound => by
    rw [matchOne_of_shape (shape_name x t), matchShape, if_neg fun deep => shallow (.here deep)]
    exact bindName_succeeds known fair bound (agree x (.here _ t))
  | @Relates.alternatives _ _ ps p _ t choice inner => by
    rw [matchOne_of_shape (shape_alternatives ps t), matchShape, if_neg fun deep => shallow (.here deep)]
    refine firstOf_succeeds choice (fun q other => ?_) ?_
    · exact (matchOne_ends (pattern.choices q other) fair known).mono fun _ _ => trivial
    · exact matchOne_complete (pattern.choices p choice) fair known (fun x inside => agree x (.choice t choice inside))
        (fun deep => shallow (.choice choice deep)) (fun open_ => decided (.choice choice open_)) inner
  | @Relates.compound _ _ h k as es t u plain head args => by
    obtain ⟨form, headPattern, argPatterns⟩ := pattern.compound plain
    rw [matchOne_of_shape form, matchShape, if_neg fun deep => shallow (.here deep)]
    have first := matchOne_complete headPattern fair.head known (fun x inside => agree x (.head plain inside))
      (fun deep => shallow (.head plain deep)) (fun open_ => decided (.inHead plain open_)) head
    refine .bind first fun found ran some => ?_
    cases found with
    | none => cases some
    | some c =>
      obtain ⟨known, agreeing⟩ := matched_agrees headPattern fair.head known head ran
      simp only [Option.getD_none, fair.inOrder, Bool.false_eq_true, if_false]
      have agreeToo : ∀ a ∈ as, ∀ x, Names x a → Agree c s x := fun a argument x inside =>
        agreeing x (agree x (.arg plain argument inside)) fun first ways =>
          decided (.head plain first argument inside ways)
      have apart : as.Pairwise fun a c => ∀ d ∈ es, ∀ x, Names x a → Names x c → ¬ Differ x a d :=
        List.pairwise_iff_forall_sublist.2 fun order d member x first again ways =>
          decided (.arg plain order first again member ways)
      have rest : (matchMany m false false (depth + 1) as es c).Ends st cause (· ≠ []) :=
        matchMany_complete argPatterns fair.args known agreeToo
          (fun i a place single deep => shallow (.arg plain place single deep))
          (fun a argument d member open_ => decided (.inArg plain argument member open_)) apart args
      refine .bind rest fun found _ some => .pure ?_
      cases found with
      | nil => exact absurd rfl some
      | cons d found => rfl

theorem matchMany_complete {all : Bool} {ps es : List Value} {b : Bindings} {depth : Nat}
    (patterns : ∀ p ∈ ps, IsArgument p) (fair : ∀ e ∈ es, Fair cause e) (known : Known cause b)
    (agree : ∀ p ∈ ps, ∀ x, Names x p → Agree b s x)
    (shallow : ∀ (i : Nat) p, ps[i]? = some p → IsPattern p → ¬ Exceeds m.maxDepth (depth + i + 1) p)
    (decided : ∀ p ∈ ps, ∀ e ∈ es, ¬ Undecided p e)
    (apart : ps.Pairwise fun p q => ∀ e ∈ es, ∀ x, Names x p → Names x q → ¬ Differ x p e) :
    RelatesAll true s ps es → (matchMany m all false depth ps es b).Ends st cause (· ≠ [])
  | .nil => by
    rw [matchMany.eq_def]
    exact .pure (by simp)
  | @RelatesAll.one _ _ p e ps es single here later => by
    obtain ⟨_, patternsToo⟩ := List.forall_mem_cons.1 patterns
    obtain ⟨fairHere, fairToo⟩ := List.forall_mem_cons.1 fair
    obtain ⟨agreeHere, agreeToo⟩ := List.forall_mem_cons.1 agree
    obtain ⟨decidedHere, decidedToo⟩ := List.forall_mem_cons.1 decided
    obtain ⟨apartHere, apartToo⟩ := List.pairwise_cons.1 apart
    rw [matchMany_single single.role]
    have first : (matchOne m none (depth + 1) p e b).Ends st cause (·.isSome = true) :=
      matchOne_complete single fairHere known agreeHere (shallow 0 p rfl single)
        (decidedHere e (List.mem_cons_self ..)) here
    refine .bind first fun found ran some => ?_
    cases found with
    | none => cases some
    | some c =>
      obtain ⟨known, agreeing⟩ := matched_agrees single fairHere known here ran
      refine matchMany_complete patternsToo fairToo known ?_ ?_ ?_ ?_ later
      · exact fun q other x again => agreeing x (agreeToo q other x again) fun name ways =>
          apartHere q other e (List.mem_cons_self ..) x name again ways
      · intro i q place single
        rw [Nat.add_right_comm depth 1 i]
        exact shallow (i + 1) q place single
      · exact fun q other d member => decidedToo q other d (List.mem_cons_of_mem e member)
      · exact apartToo.imp fun apart d member => apart d (List.mem_cons_of_mem e member)
  | @RelatesAll.segment _ _ p name n cs ps front back form long fits bound later => by
    obtain ⟨_, patternsToo⟩ := List.forall_mem_cons.1 patterns
    obtain ⟨fairFront, fairBack⟩ := List.forall_mem_append.1 fair
    obtain ⟨agreeHere, agreeToo⟩ := List.forall_mem_cons.1 agree
    obtain ⟨_, decidedToo⟩ := List.forall_mem_cons.1 decided
    obtain ⟨_, apartToo⟩ := List.pairwise_cons.1 apart
    rw [matchMany_segment form.role]
    refine collect_succeeds (mem_cuts long (needed_le_of_related later)) (fun cut member => ?_) ?_
    · -- The other cuts may fail to match, but they come to an end.
      obtain ⟨head, tail⟩ := cut
      obtain ⟨same, _⟩ := cuts_append member
      obtain ⟨fairHead, fairTail⟩ := List.forall_mem_append.1 (same ▸ fair)
      refine ends_cut known fairHead rfl (.pure trivial) (.pure trivial) fun c gains => ?_
      exact (matchMany_ends patternsToo fairTail (gains.known known)).mono fun _ _ => trivial
    · obtain ⟨accepted, tested, accepting⟩ := acceptsAll_eq cs fun e member => (fairFront e member).element
      have agreeNamed : ∀ x, name = some x → Agree b s x := by
        rintro x rfl
        cases form with
        | named _ t form => exact agreeHere x (.here _ t)
      obtain ⟨c, named, gains, agreeing⟩ := bindName_agrees known (.ofItems fairFront) agreeNamed bound
      dsimp only
      rw [tested, accepting.2 fits, named]
      refine matchMany_complete patternsToo fairBack (gains.known known) ?_ ?_ ?_ ?_ later
      · exact fun q other x again => agreeing x (agreeToo q other x again)
      · intro i q place single
        rw [Nat.add_right_comm depth 1 i]
        exact shallow (i + 1) q place single
      · exact fun q other d member => decidedToo q other d (List.mem_append_right front member)
      · exact apartToo.imp fun apart d member => apart d (List.mem_append_right front member)

end

end Completeness

mutual

/-- What belongs together as it stands does so if absent parts ask for nothing. -/
theorem Relates.relax {lax : Bool} {s : Bindings} {p e : Value} : Relates lax s p e → Relates true s p e
  | .literal basic same => .literal basic same
  | .verbatim same => .verbatim same
  | .blank fits => .blank fun c first => (fits c first).imp_left fun absent => ⟨rfl, absent.2⟩
  | .named inner bound => .named inner.relax bound
  | .name _ bound => .name rfl bound
  | .alternatives choice inner => .alternatives choice inner.relax
  | .compound plain head args => .compound plain head.relax args.relax

theorem RelatesAll.relax {lax : Bool} {s : Bindings} {ps es : List Value} :
    RelatesAll lax s ps es → RelatesAll true s ps es
  | .nil => .nil
  | .one single here later => .one single here.relax later.relax
  | .segment form long fits bound later =>
    .segment form long (fun e member c first => (fits e member c first).imp_left fun absent => ⟨rfl, absent.2⟩) bound
      later.relax

end

section Examples

variable {lax : Bool} {s : Bindings} {x : Symbol} {e : Value} {ps front back : List Value}

theorem isPattern_blank (x : Symbol) : IsPattern (call "Pattern" [.symbol x, call "Blank" []]) :=
  .named x _ (.blank _ (by simp))

theorem isArgument_sequence (x : Symbol) : IsArgument (call "Pattern" [.symbol x, call "BlankSequence" []]) :=
  .segment (.named x _ (.sequence [] _)) (by simp)

theorem relates_call {f : String} {as es : List Value} (plain : isConstruct (call f as) = false)
    (args : RelatesAll lax s as es) : Relates lax s (call f as) (call f es) :=
  .compound plain (.literal rfl (equal_self rfl)) args

theorem relates_blank (bound : s.Gives x e) : Relates lax s (call "Pattern" [.symbol x, call "Blank" []]) e :=
  .named (.blank fun c first => by cases first) bound

theorem relates_sequence (long : 1 ≤ front.length) (bound : s.Gives x (ofItems front))
    (later : RelatesAll lax s ps back) :
    RelatesAll lax s (call "Pattern" [.symbol x, call "BlankSequence" []] :: ps) (front ++ back) := by
  refine .segment (.named x _ (.sequence [] _)) long (fun e _ c first => by cases first) ?_ later
  rintro _ ⟨⟩
  exact bound

end Examples

/-- The pattern `f[x__, g[x__, y_], y_]`. -/
def siblings : Value :=
  call "f" [call "Pattern" [sym "x", call "BlankSequence" []],
    call "g" [call "Pattern" [sym "x", call "BlankSequence" []], call "Pattern" [sym "y", call "Blank" []]],
    call "Pattern" [sym "y", call "Blank" []]]

theorem siblings_inner : IsPattern (call "g" [call "Pattern" [sym "x", call "BlankSequence" []],
    call "Pattern" [sym "y", call "Blank" []]]) := by
  refine .call (by decide) ?_
  simpa using ⟨isArgument_sequence ⟨"x"⟩, .one (isPattern_blank ⟨"y"⟩)⟩

theorem siblings_isPattern : IsPattern siblings := by
  refine .call (by decide) ?_
  simpa using ⟨isArgument_sequence ⟨"x"⟩, .one siblings_inner, .one (isPattern_blank ⟨"y"⟩)⟩

/-- A pattern that belongs together with an element, without a NaN and in order, matches it. It is not
found to match only if some part of it lies beyond the depth limit or a nested part leaves a name undecided;
and the search fails only if some number in the element is too long to have a text. -/
theorem match_complete {σ : Type} (m : Settings σ) {lax : Bool} {p e : Value} {s : Bindings} (pattern : IsPattern p)
    (element : e.isElement = true) (free : e.isNaNFree = true) (ordered : e.isOrdered = true)
    (related : Relates lax s p e) (st : σ) :
    (∃ c, matchOne m none 0 p e .empty st = .ok (some c) st) ∨
      (matchOne m none 0 p e .empty st = .ok none st ∧ (Exceeds m.maxDepth 0 p ∨ Undecided p e)) ∨
      (matchOne m none 0 p e .empty st = .error (.failure .malformed) st ∧ e.isWritable = false) := by
  have fair : Fair (e.isWritable = false) e := ⟨⟨element, free, ordered⟩, Bool.eq_false_or_eq_true _⟩
  have known : Known (e.isWritable = false) .empty := fun x v found => by cases found
  by_cases open_ : Exceeds m.maxDepth 0 p ∨ Undecided p e
  · have ends : (matchOne m none 0 p e .empty).Ends st (e.isWritable = false) _ := matchOne_ends pattern fair known
    rcases ends with ⟨found, ran, _⟩ | failed
    · cases found with
      | none => exact .inr (.inl ⟨ran, open_⟩)
      | some c => exact .inl ⟨c, ran⟩
    · exact .inr (.inr failed)
  · obtain ⟨shallow, decided⟩ := not_or.1 open_
    have agree : ∀ x, Names x p → Agree .empty s x := fun x _ v w found => by cases found
    have ends : (matchOne m none 0 p e .empty).Ends st (e.isWritable = false) (·.isSome = true) :=
      matchOne_complete pattern fair known agree shallow decided related.relax
    rcases ends with ⟨found, ran, some⟩ | failed
    · obtain ⟨c, rfl⟩ := Option.isSome_iff_exists.1 some
      exact .inl ⟨c, ran⟩
    · exact .inr (.inr failed)

/-- The first `x__` is tried with one value, which `g[1, 2, 3]` does not go with, and then with two. -/
theorem match_complete_siblings :
    ∃ c, matchOne (σ := Unit) ⟨none, defaultDepth⟩ none 0 siblings
      (call "f" [int 1, int 2, call "g" [int 1, int 2, int 3], int 3]) .empty () = .ok (some c) () := by
  let s := (Bindings.empty.insert ⟨"x"⟩ (ofItems [int 1, int 2])).insert ⟨"y"⟩ (int 3)
  have x : s.Gives ⟨"x"⟩ (ofItems [int 1, int 2]) := ⟨_, rfl, equal_self (by decide)⟩
  have y : s.Gives ⟨"y"⟩ (int 3) := ⟨_, rfl, equal_self (by decide)⟩
  have last : RelatesAll false s [call "Pattern" [sym "y", call "Blank" []]] [int 3] :=
    .one (isPattern_blank ⟨"y"⟩) (relates_blank y) .nil
  have inner : RelatesAll false s [call "Pattern" [sym "x", call "BlankSequence" []],
      call "Pattern" [sym "y", call "Blank" []]] [int 1, int 2, int 3] := relates_sequence (by decide) x last
  have related : Relates false s siblings (call "f" [int 1, int 2, call "g" [int 1, int 2, int 3], int 3]) :=
    relates_call (by decide) (relates_sequence (by decide) x
      (.one siblings_inner (relates_call (by decide) inner) last))
  rcases match_complete ⟨none, defaultDepth⟩ siblings_isPattern (by decide) (by decide) (by decide) related () with
    matched | ⟨_, deep | undecided⟩ | ⟨_, unwritten⟩
  · exact matched
  · exact absurd (lt_of_exceeds deep) (by decide)
  · exact absurd undecided (decided_of_rigid (by decide) (by decide))
  · exact absurd unwritten (by decide +kernel)

/-- The pattern `f[g[x__, y__], y__]`. -/
def nested : Value :=
  call "f" [call "g" [call "Pattern" [sym "x", call "BlankSequence" []],
      call "Pattern" [sym "y", call "BlankSequence" []]],
    call "Pattern" [sym "y", call "BlankSequence" []]]

theorem nested_inner : IsPattern (call "g" [call "Pattern" [sym "x", call "BlankSequence" []],
    call "Pattern" [sym "y", call "BlankSequence" []]]) := by
  refine .call (by decide) ?_
  simpa using ⟨isArgument_sequence ⟨"x"⟩, isArgument_sequence ⟨"y"⟩⟩

/-- `f[g[x__, y__], y__]` belongs together with `f[g[1, 2, 3], 3]`. But `g[x__, y__]` has then matched with two
values for `y`, and that is not taken back. -/
theorem nested_unmatched :
    IsPattern nested ∧ (∃ s, Relates false s nested (call "f" [call "g" [int 1, int 2, int 3], int 3])) ∧
      matchOne (σ := Unit) ⟨none, defaultDepth⟩ none 0 nested (call "f" [call "g" [int 1, int 2, int 3], int 3])
        .empty () = .ok none () := by
  refine ⟨?_, ?_, ?_⟩
  · refine .call (by decide) ?_
    simpa using ⟨.one nested_inner, isArgument_sequence ⟨"y"⟩⟩
  · let s := (Bindings.empty.insert ⟨"x"⟩ (ofItems [int 1, int 2])).insert ⟨"y"⟩ (ofItems [int 3])
    have x : s.Gives ⟨"x"⟩ (ofItems [int 1, int 2]) := ⟨_, rfl, equal_self (by decide)⟩
    have y : s.Gives ⟨"y"⟩ (ofItems [int 3]) := ⟨_, rfl, equal_self (by decide)⟩
    have last : RelatesAll false s [call "Pattern" [sym "y", call "BlankSequence" []]] [int 3] :=
      relates_sequence (by decide) y RelatesAll.nil
    have inner : RelatesAll false s [call "Pattern" [sym "x", call "BlankSequence" []],
        call "Pattern" [sym "y", call "BlankSequence" []]] [int 1, int 2, int 3] := relates_sequence (by decide) x last
    exact ⟨s, relates_call (by decide) (.one nested_inner (relates_call (by decide) inner) last)⟩
  · have found : Step.returns Option.isNone (matchOne (σ := Unit) ⟨none, defaultDepth⟩ none 0 nested
        (call "f" [call "g" [int 1, int 2, int 3], int 3]) .empty ()) = true := by
      decide +kernel
    obtain ⟨r, _, run, none⟩ := Step.returns_iff.1 found
    rw [run, Option.isNone_iff_eq_none.1 none]

end Symbolic.Pattern
