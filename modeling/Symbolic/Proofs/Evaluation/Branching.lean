import Symbolic.Proofs.Evaluation.Loops

/-!
Two ways to write a choice. `Which[test, value, …]` goes through its tests in one place. Written as
`If[test, value, If[test, value, …]]` every further test is reached one level deeper, and what is selected there is
evaluated once more on every level on the way back. Main statement: if the value that is selected comes to an atom
and nothing that is defined bears on the choice, the two end alike, unless a limit stops the second: they give what the
selected value comes to and leave the session in which it came to that. Neither looks at any other value, nor at a
test behind the first that is true.
-/
namespace Symbolic

open Value Session
open Step (starves cut)

structure Branch where
  test : Value
  value : Value

namespace Branch

def row : List Branch → List Value
  | [] => []
  | b :: bs => b.test :: b.value :: row bs

/-- The arguments of a conditional that has the further branches nested in it. -/
def ladder (b : Branch) : List Branch → List Value
  | [] => [b.test, b.value]
  | next :: more => [b.test, b.value, call "If" (ladder next more)]

/-- What some branches select: their tests are evaluated up to the first that is true, and then the value that belongs
to it. -/
inductive Selects (c : ContextId) : List Branch → Session → Value → Session → Prop
  | none {u : Session} : Selects c [] u nothing u
  | pass {b : Branch} {bs : List Branch} {n : Nat} {q r : Value} {u w x : Session}
    (tested : evaluate n c b.test u = .ok q w) (fails : q.isTrue = false) (later : Selects c bs w r x) :
    Selects c (b :: bs) u r x
  | take {b : Branch} {bs : List Branch} {n m : Nat} {q r : Value} {u w x : Session}
    (tested : evaluate n c b.test u = .ok q w) (holds : q.isTrue = true)
    (valued : evaluate m c b.value w = .ok r x) : Selects c (b :: bs) u r x

/-- Some branches have the same tests as others up to the first that is true, and the same value there. They may have
any other values, and anything behind that test. -/
inductive Concurs (c : ContextId) : List Branch → List Branch → Session → Prop
  | none {u : Session} : Concurs c [] [] u
  | pass {b : Branch} {v : Value} {bs ds : List Branch} {n : Nat} {q : Value} {u w : Session}
    (tested : evaluate n c b.test u = .ok q w) (fails : q.isTrue = false) (later : Concurs c bs ds w) :
    Concurs c (b :: bs) (⟨b.test, v⟩ :: ds) u
  | take {b : Branch} {bs ds : List Branch} {n : Nat} {q : Value} {u w : Session}
    (tested : evaluate n c b.test u = .ok q w) (holds : q.isTrue = true) : Concurs c (b :: bs) (b :: ds) u

end Branch

open Branch

/-- A choice between branches, of which there is at least one. -/
structure Choice where
  first : Branch
  others : List Branch

namespace Choice

def branches (d : Choice) : List Branch := d.first :: d.others

def asWhich (d : Choice) : Value := call "Which" (row d.branches)

def asIf (d : Choice) : Value := call "If" (ladder d.first d.others)

/-- The branches that a choice begun in a session gets to, with the session there. -/
inductive Gets (d : Choice) (s : Session) (c : ContextId) : List Branch → Session → Prop
  | begun : Gets d s c d.branches s.entered
  | passed {b : Branch} {bs : List Branch} {n : Nat} {q : Value} {u w : Session} (here : Gets d s c (b :: bs) u)
    (tested : evaluate n c b.test u = .ok q w) (fails : q.isTrue = false) : Gets d s c bs w

def heads : List String := ["Which", "If"]

/-- The names whose definitions could bear on a choice. -/
def names : List String := "Null" :: heads

/-- No test and no value of a choice is a sequence, nothing is defined about its names wherever it gets to, its heads
are given no attributes that bring arguments into another form, and the value that is selected comes to an atom. -/
structure Ordinary (d : Choice) (s : Session) (c : ContextId) : Prop where
  here : c < s.contexts.size
  standard : s.registry = Builtin.standard
  single : ∀ e ∈ row d.branches, e.argsOf? "Sequence" = none
  unarranged : ∀ f ∈ heads, s.Unarranged c f
  during : ∀ bs u, d.Gets s c bs u → ∀ f ∈ names, u.Undefined c f
  atomic : ∀ {b bs u w x n m q r}, d.Gets s c (b :: bs) u → evaluate n c b.test u = .ok q w → q.isTrue = true →
    evaluate m c b.value w = .ok r x → r.isAtom = true

end Choice

section Runs

variable {c : ContextId} {bs ds : List Branch} {b : Branch} {u w : Session} {r : Value} {n m : Nat}

theorem Branch.selects_of_firstTrue (run : Control.firstTrue (evaluate n) c (row bs) u = .ok r w) :
    Selects c bs u r w := by
  induction bs generalizing u with
  | nil =>
    obtain ⟨rfl, rfl⟩ := Step.pure_ok.1 run
    exact .none
  | cons b bs ih =>
    obtain ⟨q, x, tested, rest⟩ := Step.bind_ok run
    by_cases holds : q.isTrue = true
    · rw [if_pos holds] at rest
      exact .take tested holds rest
    · rw [if_neg holds] at rest
      exact .pass tested (Bool.eq_false_iff.2 holds) (ih rest)

theorem Branch.Selects.firstTrue (selects : Selects c bs u r w) :
    ∃ n, ∀ m, n ≤ m → Control.firstTrue (evaluate m) c (row bs) u = .ok r w := by
  induction selects with
  | none => exact ⟨0, fun _ _ => rfl⟩
  | @pass b bs n q r u w x tested fails later ih =>
    obtain ⟨k, enough⟩ := ih
    refine ⟨max n k, fun m most => ?_⟩
    rw [row, Control.firstTrue, Step.bind_of_ok (evaluate_more tested (by omega)), if_neg (Bool.eq_false_iff.1 fails)]
    exact enough m (by omega)
  | @take b bs n k q r u w x tested holds valued =>
    refine ⟨max n k, fun m most => ?_⟩
    rw [row, Control.firstTrue, Step.bind_of_ok (evaluate_more tested (by omega)), if_pos holds]
    exact evaluate_more valued (by omega)

theorem firstTrue_keeps (n : Nat) (c : ContextId) (bs : List Branch) :
    Keeps (Control.firstTrue (evaluate n) c (row bs)) := by
  induction bs with
  | nil => exact fun s => .refl s
  | cons b bs ih =>
    refine (evaluate_keeps n c b.test).bind fun q => ?_
    split
    · exact evaluate_keeps n c b.value
    · exact ih

theorem conditional_keeps (n : Nat) (c : ContextId) (e : Value) (b : Branch) (bs : List Branch) :
    Keeps (Control.conditional (evaluate n) c e (ladder b bs)) := by
  cases bs with
  | nil =>
    refine (evaluate_keeps n c b.test).bind fun q => ?_
    split
    · exact evaluate_keeps n c b.value
    · exact fun s => .refl s
  | cons next more =>
    refine (evaluate_keeps n c b.test).bind fun q => ?_
    split
    · exact evaluate_keeps n c b.value
    · exact evaluate_keeps n c _

theorem Branch.Concurs.firstTrue (concurs : Concurs c bs ds u) :
    Control.firstTrue (evaluate n) c (row ds) u = Control.firstTrue (evaluate n) c (row bs) u := by
  induction concurs with
  | none => rfl
  | pass tested fails _ ih =>
    refine Step.bind_congr rfl fun q x ran => ?_
    obtain ⟨rfl, rfl⟩ := evaluate_unique tested ran
    rw [if_neg (Bool.eq_false_iff.1 fails), if_neg (Bool.eq_false_iff.1 fails)]
    exact ih
  | take tested holds =>
    refine Step.bind_congr rfl fun q x ran => ?_
    obtain ⟨rfl, rfl⟩ := evaluate_unique tested ran
    rw [if_pos holds, if_pos holds]

/-- Where the test of a conditional is true, what is nested in it does not matter. -/
theorem Branch.conditional_taken {q : Value} {y : Session} (tested : evaluate n c b.test u = .ok q y)
    (holds : q.isTrue = true) (roomier : Roomier u w) (e : Value) :
    Control.conditional (evaluate m) c e (ladder b bs) w =
      (evaluate m c b.test >>= fun _ => evaluate m c b.value) w := by
  cases bs with
  | nil | cons =>
    refine Step.bind_congr rfl fun r x ran => ?_
    obtain ⟨rfl, -⟩ := evaluate_further tested roomier ran
    rw [if_pos holds]

theorem Branch.single_ladder (single : ∀ e ∈ row (b :: bs), e.argsOf? "Sequence" = none) :
    ∀ e ∈ ladder b bs, e.argsOf? "Sequence" = none := by
  have test := single b.test (by simp [row])
  have value := single b.value (by simp [row])
  have nested : ∀ more, (call "If" more).argsOf? "Sequence" = none := fun _ => rfl
  cases bs with
  | nil => simp [ladder, test, value]
  | cons next more => simp [ladder, test, value, nested]

theorem which_verbatim : Verbatim "Which" .which := ⟨rfl, by decide, by decide⟩

theorem if_verbatim : Verbatim "If" .ifThen := ⟨rfl, by decide, by decide⟩

theorem Choice.Gets.inside {d : Choice} {s : Session} (gets : d.Gets s c bs u) : s.Inside u := by
  induction gets with
  | begun => exact .begun
  | passed _ tested _ ih => exact ih.step tested

end Runs

section Ordinary

variable {second : Bool} {d : Choice} {s u w : Session} {c : ContextId} {b : Branch} {bs : List Branch} {a k : Nat}
  (ordinary : d.Ordinary s c)

include ordinary

theorem Choice.Ordinary.single_of_gets (gets : d.Gets s c bs u) : ∀ e ∈ row bs, e.argsOf? "Sequence" = none := by
  induction gets with
  | begun => exact ordinary.single
  | passed _ _ _ ih => exact fun e member => ih e (List.mem_cons_of_mem _ (List.mem_cons_of_mem _ member))

theorem Choice.Ordinary.selected (gets : d.Gets s c bs u) {r : Value} (selects : Selects c bs u r w) :
    r.isAtom = true ∨ r = nothing ∧ d.Gets s c [] w := by
  induction selects with
  | none => exact .inr ⟨rfl, gets⟩
  | pass tested fails _ ih => exact ih (gets.passed tested fails)
  | take tested holds valued => exact .inl (ordinary.atomic gets tested holds valued)

theorem Choice.Ordinary.selected_basic (gets : d.Gets s c bs u) {r : Value} {y : Session}
    (selects : Selects c bs u r y) : (r.isAtom || r.isSymbol) = true := by
  rcases ordinary.selected gets selects with atom | ⟨rfl, -⟩
  · rw [atom, Bool.true_or]
  · rfl

theorem Choice.Ordinary.selected_stays (gets : d.Gets s c bs u) {r : Value} {y : Session}
    (selects : Selects c bs u r y) (roomier : Roomier y w) {ev : Evaluator} {fuel : Nat} :
    Symbolic.evaluateWith ev (fuel + 1) c r w.counted.entered = .ok r w.counted.entered := by
  rcases ordinary.selected gets selects with atom | ⟨rfl, done⟩
  · exact evaluateWith_atom atom
  · exact (ordinary.during _ _ done "Null" (by decide)).evaluateWith_nothing roomier

theorem Choice.Ordinary.evaluateWith {f : String} {as : List Value} {op : Operation} {ev : Evaluator} {fuel : Nat}
    (gets : d.Gets s c bs u) (roomier : Roomier u w) (verbatim : Verbatim f op) (member : f ∈ Choice.heads)
    (single : ∀ e ∈ as, e.argsOf? "Sequence" = none) :
    Symbolic.evaluateWith ev (fuel + 1) c (call f as) w =
      (op.run ev (fuel + 1) c (call f as) >>= again ev c (call f as)) w :=
  gets.inside.evaluateWith roomier verbatim ordinary.standard ordinary.here (ordinary.unarranged f member)
    (ordinary.during bs u gets f (List.mem_cons_of_mem _ member)) single

/-- A conditional on the next level is in step with the row of its branches if what it does there is: what it selects
is evaluated once more. -/
theorem Choice.Ordinary.nested_inStep (gets : d.Gets s c (b :: bs) u) (roomier : Roomier u w)
    (within : InStep second (Control.conditional (evaluate (a + 2)) c (call "If" (ladder b bs)) (ladder b bs) w.entered)
      (Control.firstTrue (evaluate k) c (row (b :: bs)) u)) :
    InStep second (evaluate (a + 3) c (call "If" (ladder b bs)) w)
      (Control.firstTrue (evaluate k) c (row (b :: bs)) u) := by
  have deeper := roomier.below (gets.inside.inner roomier)
  refine InStep.descend (evaluateWith_keeps (a + 2) c _) (firstTrue_keeps k c _) roomier ?_
  rw [ordinary.evaluateWith gets deeper if_verbatim (by decide) (single_ladder (ordinary.single_of_gets gets)),
    ← bind_pure (Control.firstTrue (evaluate k) c _)]
  refine InStep.bind within fun r x y ran other roomy => ?_
  have depth : x.depth = w.depth + 1 := ((conditional_keeps (a + 2) c _ b bs).after ran).depth
  have selects := selects_of_firstTrue other
  exact again_inStep (differs_of_basic (ordinary.selected_basic gets selects)) (by omega) roomy
    (ordinary.selected_stays gets selects roomy)

theorem Choice.Ordinary.conditional_inStep (scant : ∀ i ≤ bs.length + 2, Scant second (a + i) k)
    (gets : d.Gets s c (b :: bs) u) (roomier : Roomier u w) (e : Value) :
    InStep second (Control.conditional (evaluate (a + bs.length + 2)) c e (ladder b bs) w)
      (Control.firstTrue (evaluate k) c (row (b :: bs)) u) := by
  induction bs generalizing b u w e with
  | nil =>
    refine InStep.bind (evaluate_inStep (scant 2 (by simp)) c b.test roomier) fun q x y _ _ roomy => ?_
    by_cases holds : q.isTrue = true
    · rw [if_pos holds, if_pos holds]
      exact evaluate_inStep (scant 2 (by simp)) c b.value roomy
    · rw [if_neg holds, if_neg holds]
      exact .ok roomy
  | cons next more ih =>
    have more_scant : Scant second (a + (more.length + 1) + 2) k := scant (more.length + 1 + 2) (by simp)
    refine InStep.bind (evaluate_inStep more_scant c b.test roomier) fun q x y _ tested roomy => ?_
    by_cases holds : q.isTrue = true
    · rw [if_pos holds, if_pos holds]
      exact evaluate_inStep more_scant c b.value roomy
    · rw [if_neg holds, if_neg holds]
      have later := gets.passed tested (Bool.eq_false_iff.2 holds)
      have inner := later.inside.inner roomy
      exact ordinary.nested_inStep later roomy
        (ih (fun i small => scant i (by rw [List.length_cons]; omega)) later (roomy.below inner) _)

theorem Choice.Ordinary.conditional_basic (gets : d.Gets s c (b :: bs) u) (roomier : Roomier u w) {e r : Value}
    {x : Session} (ran : Control.conditional (evaluate (a + bs.length + 2)) c e (ladder b bs) w = .ok r x) :
    (r.isAtom || r.isSymbol) = true := by
  have scant : ∀ i ≤ bs.length + 2, Scant false (a + i) (a + bs.length + 2) := by
    intro i small
    show a + i ≤ a + bs.length + 2
    omega
  have inStep := ordinary.conditional_inStep scant gets roomier e
  rw [ran] at inStep
  obtain ⟨y, roomy, other⟩ := inStep rfl rfl
  exact ordinary.selected_basic gets (selects_of_firstTrue other)

/-- A conditional with further ones nested in it comes to the same whatever stands in branches that are not
selected. -/
theorem Choice.Ordinary.conditional_congr {b' : Branch} {ds : List Branch} (concurs : Concurs c (b :: bs) (b' :: ds) u)
    (gets : d.Gets s c (b :: bs) u) (single : ∀ e ∈ row (b' :: ds), e.argsOf? "Sequence" = none)
    (roomier : Roomier u w) (e e' : Value) :
    Control.conditional (evaluate (a + bs.length + 2)) c e' (ladder b' ds) w =
      Control.conditional (evaluate (a + bs.length + 2)) c e (ladder b bs) w := by
  induction bs generalizing b b' ds u w e e' with
  | nil =>
    cases concurs with
    | take tested holds => rw [conditional_taken tested holds roomier, conditional_taken tested holds roomier]
    | pass tested fails later =>
      cases later
      refine Step.bind_congr rfl fun q x ran => ?_
      obtain ⟨rfl, -⟩ := evaluate_further tested roomier ran
      rw [if_neg (Bool.eq_false_iff.1 fails), if_neg (Bool.eq_false_iff.1 fails)]
  | cons next more ih =>
    cases concurs with
    | take tested holds => rw [conditional_taken tested holds roomier, conditional_taken tested holds roomier]
    | @pass _ v _ ds n q u y tested fails later =>
      obtain ⟨next', more', rfl⟩ : ∃ next' more', ds = next' :: more' := by cases later <;> exact ⟨_, _, rfl⟩
      refine Step.bind_congr rfl fun q x ran => ?_
      obtain ⟨rfl, roomy⟩ := evaluate_further tested roomier ran
      rw [if_neg (Bool.eq_false_iff.1 fails), if_neg (Bool.eq_false_iff.1 fails)]
      -- The further branches are reached one level down, where the two conditionals are different expressions.
      have there := gets.passed tested fails
      have below := roomy.below (there.inside.inner roomy)
      have others : ∀ e ∈ row (next' :: more'), e.argsOf? "Sequence" = none := fun e member =>
        single e (List.mem_cons_of_mem _ (List.mem_cons_of_mem _ member))
      refine deeper_congr (m := Symbolic.evaluateWith (evaluate (a + more.length + 2)) (a + more.length + 2) c _)
        (n := Symbolic.evaluateWith (evaluate (a + more.length + 2)) (a + more.length + 2) c _) ?_
      rw [ordinary.evaluateWith there below if_verbatim (by decide) (single_ladder others),
        ordinary.evaluateWith there below if_verbatim (by decide) (single_ladder (ordinary.single_of_gets there))]
      refine Step.bind_congr (ih later there others below _ _) fun r z came => ?_
      have basic := ordinary.conditional_basic there below came
      rw [again_new (differs_of_basic basic), again_new (differs_of_basic basic)]

theorem Choice.Ordinary.evaluateWith_asWhich {ev : Evaluator} {fuel : Nat} :
    Symbolic.evaluateWith ev (fuel + 1) c d.asWhich s.entered =
      (Control.firstTrue ev c (row d.branches) >>= again ev c d.asWhich) s.entered :=
  ordinary.evaluateWith .begun (.refl _) which_verbatim (by decide) ordinary.single

theorem Choice.Ordinary.evaluateWith_asIf {ev : Evaluator} {fuel : Nat} :
    Symbolic.evaluateWith ev (fuel + 1) c d.asIf s.entered =
      (Control.conditional ev c d.asIf (ladder d.first d.others) >>= again ev c d.asIf) s.entered :=
  ordinary.evaluateWith .begun (.refl _) if_verbatim (by decide) (single_ladder ordinary.single)

theorem Choice.Ordinary.inStep (scant : ∀ i ≤ d.others.length + 2, Scant second (a + i) (k + 1)) :
    InStep second (evaluate (a + d.others.length + 3) c d.asIf s) (evaluate (k + 2) c d.asWhich s) := by
  refine InStep.deeper (.refl s) ?_
  rw [ordinary.evaluateWith_asIf, ordinary.evaluateWith_asWhich]
  refine InStep.bind (ordinary.conditional_inStep scant .begun (.refl _) _) fun r x y _ other roomy => ?_
  have basic := ordinary.selected_basic .begun (selects_of_firstTrue other)
  rw [again_new (e := d.asIf) (differs_of_basic basic), again_new (e := d.asWhich) (differs_of_basic basic)]
  exact InStep.bind (countReplacement_inStep roomy) fun _ _ _ _ _ roomier =>
    evaluate_inStep (scant (d.others.length + 2) (by omega)) c r roomier

theorem Choice.Ordinary.asWhich_congr {e : Choice} (concurs : Concurs c d.branches e.branches s.entered)
    (single : ∀ v ∈ row e.branches, v.argsOf? "Sequence" = none) (n : Nat) :
    evaluate (n + 2) c e.asWhich s = evaluate (n + 2) c d.asWhich s := by
  refine deeper_congr ?_
  have other : Symbolic.evaluateWith (evaluate (n + 1)) (n + 1) c e.asWhich s.entered =
      (Control.firstTrue (evaluate (n + 1)) c (row e.branches) >>= again (evaluate (n + 1)) c e.asWhich) s.entered :=
    ordinary.evaluateWith .begun (.refl _) which_verbatim (by decide) single
  rw [ordinary.evaluateWith_asWhich, other]
  refine Step.bind_congr concurs.firstTrue fun r y came => ?_
  have basic := ordinary.selected_basic .begun (selects_of_firstTrue came)
  rw [again_new (e := e.asWhich) (differs_of_basic basic), again_new (e := d.asWhich) (differs_of_basic basic)]

theorem Choice.Ordinary.asIf_congr {e : Choice} (concurs : Concurs c d.branches e.branches s.entered)
    (single : ∀ v ∈ row e.branches, v.argsOf? "Sequence" = none) (n : Nat) :
    evaluate (n + d.others.length + 3) c e.asIf s = evaluate (n + d.others.length + 3) c d.asIf s := by
  refine deeper_congr ?_
  have other : Symbolic.evaluateWith (evaluate (n + d.others.length + 2)) (n + d.others.length + 2) c e.asIf s.entered =
      (Control.conditional (evaluate (n + d.others.length + 2)) c e.asIf (ladder e.first e.others) >>=
        again (evaluate (n + d.others.length + 2)) c e.asIf) s.entered :=
    ordinary.evaluateWith .begun (.refl _) if_verbatim (by decide) (single_ladder single)
  rw [ordinary.evaluateWith_asIf, other]
  refine Step.bind_congr (ordinary.conditional_congr concurs .begun single (.refl _) _ _) fun r y came => ?_
  have basic := ordinary.conditional_basic .begun (.refl _) came
  rw [again_new (e := e.asIf) (differs_of_basic basic), again_new (e := d.asIf) (differs_of_basic basic)]

/-- Whatever the nested conditionals end in, unless a limit stops them, the choice in a row ends in as well. -/
theorem Choice.Ordinary.which_endsAs {n : Nat} (uncut : cut (evaluate n c d.asIf s) = false)
    (ended : starves (evaluate n c d.asIf s) = false) :
    ∃ m, EndsAs (evaluate n c d.asIf s) (evaluate m c d.asWhich s) := by
  have longer : evaluate (n + d.others.length + 3) c d.asIf s = evaluate n c d.asIf s :=
    Prolongs.more (m := fun n => evaluate n c d.asIf) (fun n => evaluate_prolongs n c d.asIf) (by omega) ended
  have inStep : InStep false (evaluate (n + d.others.length + 3) c d.asIf s)
      (evaluate (n + d.others.length + 1 + 2) c d.asWhich s) :=
    ordinary.inStep fun i small => by
      show n + i ≤ n + d.others.length + 1 + 1
      omega
  rw [longer] at inStep
  exact ⟨_, (inStep uncut ended).endsAs.1⟩

/-- Whatever the choice in a row ends in, the nested conditionals end in as well, unless a limit stops them. -/
theorem Choice.Ordinary.if_alike (unlimited : ∀ n, cut (evaluate n c d.asIf s) = false) {m : Nat}
    (ended : starves (evaluate m c d.asWhich s) = false) :
    ∃ n, Alike (evaluate n c d.asIf s) (evaluate m c d.asWhich s) := by
  have longer : evaluate (m + 2) c d.asWhich s = evaluate m c d.asWhich s :=
    Prolongs.more (m := fun n => evaluate n c d.asWhich) (fun n => evaluate_prolongs n c d.asWhich) (by omega) ended
  have inStep : InStep true (evaluate (m + 1 + d.others.length + 3) c d.asIf s) (evaluate (m + 2) c d.asWhich s) :=
    ordinary.inStep fun i small => by
      show m + 1 ≤ m + 1 + i
      omega
  rw [longer] at inStep
  exact ⟨_, inStep (unlimited _) ended⟩

/-- A limit that does not stop the nested conditionals does not stop the choice in a row. -/
theorem Choice.Ordinary.which_uncut (unlimited : ∀ n, cut (evaluate n c d.asIf s) = false) (m : Nat) :
    cut (evaluate m c d.asWhich s) = false := by
  cases out : starves (evaluate m c d.asWhich s) with
  | true =>
    obtain ⟨t, stopped⟩ := Step.eq_of_starves out
    rw [stopped]
    rfl
  | false =>
    obtain ⟨n, w, -, other⟩ := ordinary.if_alike unlimited out
    rw [other, Step.cut_ending]
    exact unlimited n

/-- The choice in a row gives what its branches select, and leaves the session in which they selected it. -/
theorem Choice.Ordinary.which_gives {r : Value} {y : Session} (selects : Selects c d.branches s.entered r y)
    (unlimited : ∀ n, cut (evaluate n c d.asWhich s) = false) :
    ∃ n, evaluate n c d.asWhich s = .ok r (y.recount s.depth (y.iterations + 1)) := by
  obtain ⟨n, enough⟩ := selects.firstTrue
  refine ⟨n + 3, ?_⟩
  have uncut := unlimited (n + 3)
  rw [evaluate, deeper_eq] at uncut ⊢
  by_cases exceeded : (s.depth + 1 : Int) > s.recursionLimit
  · rw [if_pos exceeded] at uncut
    cases uncut
  · have came := enough (n + 2) (by omega)
    have depth : y.depth = s.depth + 1 := ((firstTrue_keeps (n + 2) c _).after came).depth
    have basic := ordinary.selected_basic .begun selects
    rw [if_neg exceeded, ordinary.evaluateWith_asWhich, Step.bind_of_ok came] at uncut ⊢
    rw [Step.cut_ending] at uncut
    have again : Symbolic.again (evaluate (n + 2)) c d.asWhich r y = .ok r y.counted :=
      again_stays (differs_of_basic basic) (by omega) (ordinary.selected_stays .begun selects (.refl y)) uncut
    rw [again]
    refine congrArg (EStateM.Result.ok r) ?_
    simp only [exited, counted, Session.recount, depth, Nat.add_sub_cancel]

end Ordinary

/-! ### Choices that select something -/

namespace Choice

variable {d : Choice} {s : Session} {c : ContextId} {fuel : Nat}

/-- Whether the branches select an atom or nothing, nothing being said about the names of a choice on the way. -/
def inspect (c : ContextId) (fuel : Nat) : List Branch → Session → Bool
  | [], s => names.all s.isSilent
  | b :: bs, s => names.all s.isSilent && Step.checks (fun q t =>
      if q.isTrue then Step.returns isAtom (evaluate fuel c b.value t) else inspect c fuel bs t)
      (evaluate fuel c b.test s)

/-- An inspection sees every branch that the choice gets to. -/
theorem Gets.inspected {bs : List Branch} {u : Session} (gets : d.Gets s c bs u)
    (seen : inspect c fuel d.branches s.entered = true) : inspect c fuel bs u = true := by
  induction gets with
  | begun => exact seen
  | passed _ tested fails ih =>
    obtain ⟨_, _, known, next⟩ := Step.checks_iff.1 (Bool.and_eq_true_iff.1 ih).2
    obtain ⟨rfl, rfl⟩ := evaluate_unique known tested
    rwa [if_neg (Bool.eq_false_iff.1 fails)] at next

theorem silent_of_inspect {bs : List Branch} {u : Session} (seen : inspect c fuel bs u = true) {f : String}
    (member : f ∈ names) : u.Silent c f := by
  cases bs with
  | nil => exact silent_of_isSilent (List.all_eq_true.1 seen f member) c
  | cons => exact silent_of_isSilent (List.all_eq_true.1 (Bool.and_eq_true_iff.1 seen).1 f member) c

theorem ordinary_of_inspect (fuel : Nat) (here : c < s.contexts.size) (standard : s.registry = Builtin.standard)
    (single : ∀ e ∈ row d.branches, e.argsOf? "Sequence" = none)
    (seen : inspect c fuel d.branches s.entered = true) : d.Ordinary s c where
  here := here
  standard := standard
  single := single
  unarranged f member :=
    (silent_of_inspect seen (List.mem_cons_of_mem _ member)).unarranged.of_contexts (t := s) rfl
  during bs u gets f member := (silent_of_inspect (gets.inspected seen) member).toUndefined
  atomic gets tested holds valued := by
    obtain ⟨_, _, known, next⟩ := Step.checks_iff.1 (Bool.and_eq_true_iff.1 (gets.inspected seen)).2
    obtain ⟨rfl, rfl⟩ := evaluate_unique known tested
    rw [if_pos holds] at next
    obtain ⟨_, _, found, atom⟩ := Step.returns_iff.1 next
    obtain ⟨rfl, -⟩ := evaluate_unique found valued
    exact atom

end Choice

/-- If its branches select something and no limit stops the nested conditionals, both ways to write a choice give what
is selected and leave the session in which it was selected, but for the count of replacements. Also where a test or
the selected value fails, the two end alike unless a limit stops the second. Both are the same runs whatever the
values are that are not selected, and whatever stands behind the first test that is true. -/
theorem which_is_nested_if {d : Choice} {s : Session} {c : ContextId} (ordinary : d.Ordinary s c) :
    (∀ r u, Selects c d.branches s.entered r u → (∀ n, cut (evaluate n c d.asIf s) = false) →
      (∃ n i, evaluate n c d.asWhich s = .ok r (u.recount s.depth i)) ∧
      ∃ n i, evaluate n c d.asIf s = .ok r (u.recount s.depth i)) ∧
    (∀ n, cut (evaluate n c d.asIf s) = false → starves (evaluate n c d.asIf s) = false →
      ∃ m, EndsAs (evaluate n c d.asIf s) (evaluate m c d.asWhich s)) ∧
    ((∀ n, cut (evaluate n c d.asIf s) = false) → ∀ m, starves (evaluate m c d.asWhich s) = false →
      ∃ n, EndsAs (evaluate m c d.asWhich s) (evaluate n c d.asIf s)) ∧
    ∀ e : Choice, Concurs c d.branches e.branches s.entered → (∀ v ∈ row e.branches, v.argsOf? "Sequence" = none) →
      ∃ k, ∀ n ≥ k, evaluate n c e.asWhich s = evaluate n c d.asWhich s ∧
        evaluate n c e.asIf s = evaluate n c d.asIf s := by
  have back : (∀ n, cut (evaluate n c d.asIf s) = false) → ∀ m, starves (evaluate m c d.asWhich s) = false →
      ∃ n, EndsAs (evaluate m c d.asWhich s) (evaluate n c d.asIf s) := by
    intro unlimited m ended
    obtain ⟨n, alike⟩ := ordinary.if_alike unlimited ended
    exact ⟨n, alike.endsAs.2⟩
  refine ⟨fun r u selects unlimited => ?_, fun n => ordinary.which_endsAs, back, fun e concurs single => ?_⟩
  · obtain ⟨m, gives⟩ := ordinary.which_gives selects (ordinary.which_uncut unlimited)
    refine ⟨⟨m, _, gives⟩, ?_⟩
    obtain ⟨n, i, other⟩ := back unlimited m (by rw [gives]; rfl)
    rw [gives] at other
    exact ⟨n, i, other⟩
  · refine ⟨d.others.length + 3, fun n enough => ?_⟩
    obtain ⟨k, rfl⟩ := Nat.exists_eq_add_of_le' enough
    exact ⟨ordinary.asWhich_congr concurs single (k + d.others.length + 1), ordinary.asIf_congr concurs single k⟩

/-- The second of three branches is selected, after the first test has assigned; the value of the first branch would
fail and the test of the third would not end. -/
theorem which_is_nested_if_assigning :
    let x := sym "x"
    let before := call "CompoundExpression" [call "Set" [x, int 1], sym "False"]
    let second : Branch := ⟨call "SameQ" [x, int 1], call "Plus" [x, int 4]⟩
    let d : Choice := ⟨⟨before, int 9⟩, [second, ⟨sym "True", int 8⟩]⟩
    let e : Choice := ⟨⟨before, call "Module" [ofItems [call "Set" [int 1, int 2]], x]⟩,
      [second, ⟨call "While" [sym "True", int 0], int 8⟩]⟩
    d.Ordinary Session.initial globalId ∧
    (∃ u, Selects globalId d.branches Session.initial.entered (int 5) u ∧
      (∃ n i, evaluate n globalId d.asWhich Session.initial = .ok (int 5) (u.recount 0 i)) ∧
      ∃ n i, evaluate n globalId d.asIf Session.initial = .ok (int 5) (u.recount 0 i)) ∧
    ∃ k, ∀ n ≥ k, evaluate n globalId e.asWhich Session.initial = evaluate n globalId d.asWhich Session.initial ∧
      evaluate n globalId e.asIf Session.initial = evaluate n globalId d.asIf Session.initial := by
  intro x before second d e
  have ordinary : d.Ordinary Session.initial globalId :=
    Choice.ordinary_of_inspect 12 (by decide) rfl (by decide) (by decide +kernel)
  obtain ⟨returns, -, -, same⟩ := which_is_nested_if ordinary
  refine ⟨ordinary, ?_, same e ?_ (by decide)⟩
  · have selected : Step.returns (·.int? == some 5)
        (Control.firstTrue (evaluate 12) globalId (row d.branches) Session.initial.entered) = true := by
      decide +kernel
    obtain ⟨r, u, came, five⟩ := Step.returns_iff.1 selected
    obtain rfl := int?_eq_some.1 (beq_iff_eq.1 five)
    have nested : Step.returns (fun _ => true) (evaluate 20 globalId d.asIf Session.initial) = true := by
      decide +kernel
    obtain ⟨q, t, run, -⟩ := Step.returns_iff.1 nested
    have selects := selects_of_firstTrue came
    exact ⟨u, selects, returns _ u selects (uncut_of_result run)⟩
  · have tested : Step.checks (fun q t => !q.isTrue && Step.returns isTrue (evaluate 12 globalId second.test t))
        (evaluate 12 globalId before Session.initial.entered) = true := by
      decide +kernel
    obtain ⟨q, t, first, next⟩ := Step.checks_iff.1 tested
    obtain ⟨fails, holds⟩ := Bool.and_eq_true_iff.1 next
    obtain ⟨p, v, ran, here⟩ := Step.returns_iff.1 holds
    exact .pass first (by simpa using fails) (.take ran here)

/-- Each of the attributes that bring arguments into another form tells the two choices apart if a head is given it. -/
theorem arranged_choices_differ :
    let marked := fun f a : String =>
      Session.initial.updateContext globalId fun ctx => ctx.setAttributes (sym f) [sym a]
    let listed : Choice := ⟨⟨sym "True", int 5⟩, [⟨ofItems [int 1], int 6⟩]⟩
    let second : Choice := ⟨⟨sym "False", int 1⟩, [⟨sym "True", int 2⟩]⟩
    let single : Choice := ⟨⟨sym "True", int 5⟩, []⟩
    (Step.returns (same (ofItems [int 5])) (evaluate 20 globalId listed.asWhich (marked "Which" "Listable")) = true ∧
      Step.returns (same (int 5)) (evaluate 20 globalId listed.asIf (marked "Which" "Listable")) = true) ∧
    (Step.returns (same (int 2)) (evaluate 20 globalId second.asWhich (marked "If" "Flat")) = true ∧
      Step.returns (same (sym "True")) (evaluate 20 globalId second.asIf (marked "If" "Flat")) = true) ∧
    Step.returns (same (int 5)) (evaluate 20 globalId single.asWhich (marked "If" "Orderless")) = true ∧
      Step.returns (same nothing) (evaluate 20 globalId single.asIf (marked "If" "Orderless")) = true := by
  decide +kernel

end Symbolic
