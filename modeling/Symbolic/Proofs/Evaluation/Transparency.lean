import Symbolic.Proofs.Evaluation.Fuel
import Symbolic.Proofs.Evaluation.Restoration
import Symbolic.Proofs.Evaluation.Room
import Symbolic.Proofs.Evaluation.Sequences

/-!
Arguments in a sequence and arguments by themselves. Where nothing is said about sequences and a head does
not hold its arguments, `h[…, Sequence[x, …], …]` is evaluated as `h[…, x, …]` is: the arguments of the
sequence are evaluated one level deeper, and what they come to is spliced. Main statement: what the first
comes to, the second comes to as well, with the same contexts and the same definitions, if no row of
arguments comes to values that are the same as the arguments without being identical with them. Such values
are dropped, and this is noticed where they are spliced.
-/
namespace Symbolic

open Value Session
open Arithmetic (inline)
open Step (starves verdict? ended Reaches reaches_ok reaches_failure reaches_outOfFuel)

/-! ### Runs side by side -/

/-- What the first of two runs comes to, unless it is cut off, is made from what the second comes to, which
ends in the same session with more room. -/
def Mirrors {α β : Type} (g : β → α) (r : EStateM.Result Halt Session α) (q : EStateM.Result Halt Session β) : Prop :=
  Reaches r fun o u => ∃ p w, o = p.map g ∧ Roomier w u ∧ q = ended w p

section Mirroring

theorem Step.starves_ended {σ α : Type} (s : σ) (o : Except Error α) : starves (ended s o) = false := by
  cases o <;> rfl

theorem Step.starves_of_verdict {σ α : Type} {r : EStateM.Result Halt σ α} {o : Except Error α}
    (come : verdict? r = some o) : starves r = false := by
  rw [Step.eq_ended come]
  exact Step.starves_ended _ o

variable {α β γ δ : Type} {g : β → α} {f : δ → γ} {s t u : Session}

theorem Mirrors.of_eases {m : Eval α} (eases : Eases m) (roomier : Roomier t s) : Mirrors id (m s) (m t) := by
  refine (eases s t roomier).mono ?_
  rintro o u ⟨w, roomy, ran⟩
  exact ⟨o, w, by cases o <;> rfl, roomy, ran⟩

theorem Mirrors.bind {m : Eval α} {n : Eval β} {k : α → Eval γ} {l : β → Eval δ} (first : Mirrors g (m s) (n t))
    (next : ∀ b u w, m s = .ok (g b) u → n t = .ok b w → Roomier w u → Mirrors f (k (g b) u) (l b w)) :
    Mirrors f ((m >>= k) s) ((n >>= l) t) := by
  cases ran : m s with
  | ok a u =>
    rw [ran, Mirrors, reaches_ok] at first
    obtain ⟨p, w, made, roomier, other⟩ := first
    cases p with
    | error e => cases made
    | ok b =>
      cases made
      rw [Step.bind_of_ok ran, Step.bind_of_ok other]
      exact next b u w ran other roomier
  | error h u =>
    rw [Step.bind_of_error ran]
    cases h with
    | outOfFuel => exact reaches_outOfFuel
    | failure e =>
      refine reaches_failure.2 fun unlimited => ?_
      rw [ran, Mirrors, reaches_failure] at first
      obtain ⟨p, w, made, roomier, other⟩ := first unlimited
      cases p with
      | ok b => cases made
      | error e =>
        cases made
        exact ⟨.error e, w, rfl, roomier, Step.bind_of_error other⟩

theorem Mirrors.after {m : Eval α} {k : α → Eval γ} {l : α → Eval δ}
    (next : ∀ a u, m s = .ok a u → Mirrors f (k a u) (l a u)) : Mirrors f ((m >>= k) s) ((m >>= l) s) := by
  cases ran : m s with
  | ok a u =>
    rw [Step.bind_of_ok ran, Step.bind_of_ok ran]
    exact next a u ran
  | error h u =>
    rw [Step.bind_of_error ran, Step.bind_of_error ran]
    cases h with
    | outOfFuel => exact reaches_outOfFuel
    | failure e => exact reaches_failure.2 fun _ => ⟨.error e, u, rfl, .refl u, rfl⟩

theorem Mirrors.exited {r : EStateM.Result Halt Session α} {q : EStateM.Result Halt Session β}
    (nested : Mirrors g r q) : Mirrors g (Step.ending exited r) (Step.ending exited q) := by
  refine Step.reaches_ending.2 (nested.mono ?_)
  rintro o u ⟨p, w, made, roomier, other⟩
  refine ⟨p, w.exited, made, roomier.exited, ?_⟩
  rw [other]
  cases p <;> rfl

theorem Mirrors.deeper {m : Eval α} {n : Eval β} (nested : Mirrors g (m s.entered) (n s.entered)) :
    Mirrors g (deeper m s) (deeper n s) := by
  rw [Mirrors, deeper_eq, deeper_eq]
  split
  · exact reaches_failure.2 fun unlimited => by cases unlimited
  · exact nested.exited

/-- What is done inside an evaluation comes to the same one level further up. -/
theorem Eases.up {m : Eval α} (eases : Eases m) (keeps : Keeps m) (inner : 0 < s.depth) :
    Reaches (m s.entered) fun o u => ∃ w, Roomier w u.exited ∧ m s = ended w o := by
  intro o come
  obtain ⟨w, ⟨d, -, i, fewer, rfl⟩, above⟩ := eases s.entered s (Roomier.below (.refl s) inner) o come
  have deep := (keeps s.entered).depth
  have back := (keeps s).depth
  rw [above, Step.final_ended] at back
  refine ⟨_, ⟨d, ?_, i, fewer, rfl⟩, above⟩
  simp only [Session.recount, entered, exited] at back deep ⊢
  omega

end Mirroring

/-! ### Expressions whose head does not hold its arguments -/

/-- What stays of a row of arguments once their values are known: they stay if their values are the same. -/
def settled (as bs : List Value) : List Value := if sameItems bs as then as else bs

theorem settled_self (as : List Value) : settled as as = as := ite_self as

/-- Values are the same as the arguments only if they are identical with them. -/
def Discerned (as bs : List Value) : Prop := sameItems bs as = true → bs = as

theorem Discerned.settled {as bs : List Value} (discerned : Discerned as bs) : settled as bs = bs := by
  unfold Symbolic.settled
  split
  · next same => exact (discerned same).symm
  · rfl

/-- The head that takes the place of a head. -/
def newHead (ev : Evaluator) (fuel : Nat) (c : ContextId) (h : Value) : Eval Value := do
  let k ← evaluateHead ev fuel c h
  if k.differs h then Step.ofExcept ((k.build [] .empty).map fun _ => k) else pure h

/-- The head under attributes, of which `HoldAllComplete` holds it too. -/
def headUnder (ev : Evaluator) (fuel : Nat) (c : ContextId) (attrs : SymbolSet) (h : Value) : Eval Value :=
  if attrs.contains Attribute.holdAllComplete then pure h else newHead ev fuel c h

/-- Evaluates an expression under attributes from where its head is known: the arguments that are not held are
evaluated, and what comes of them is brought in order and goes on. -/
def evaluateOn (ev : Evaluator) (fuel : Nat) (c : ContextId) (attrs : SymbolSet) (as : List Value) (t : SymbolSet)
    (k : Value) : Eval Value := do
  let bs ← evaluateArgs ev c attrs as
  let e ← Step.ofExcept (arrange attrs (.expr k (settled as bs) t))
  evaluateArranged ev fuel c attrs e

def evaluateBy (ev : Evaluator) (fuel : Nat) (c : ContextId) (attrs : SymbolSet) (h : Value) (as : List Value)
    (t : SymbolSet) : Eval Value := do
  let k ← headUnder ev fuel c attrs h
  evaluateOn ev fuel c attrs as t k

namespace Compositional

variable {ι : Type} {P : ∀ α : Type, (ι → Eval α) → Prop} (compositional : Compositional P) (ev : ι → Evaluator)
  (calls : ∀ c v, P Value fun i => ev i c v)

include compositional calls

/-- Evaluating a head has a compositional property if nested evaluations and searches through definitions
have it. -/
theorem newHead (fuel : ι → Nat) (search : ∀ c l e, P (Option Value) fun i => applyFrom (ev i) c l e (fuel i) 0)
    (c : ContextId) (h : Value) : P Value fun i => Symbolic.newHead (ev i) (fuel i) c h := by
  have admissible := compositional.admissible
  refine compositional.bind (compositional.tracks.evaluateHead (fun c _ v _ => calls c v) trivial
    (fun c _ l _ e _ => search c l e) False.elim) fun k => ?_
  exact Tracks.choose (admissible.ofExcept _) (admissible.pure h)

theorem newHead_of_stops (stops : ∀ α, P α fun _ => throw .outOfFuel) (n : Nat) (c : ContextId) (h : Value) :
    P Value fun i => Symbolic.newHead (ev i) n c h :=
  compositional.newHead ev calls (fun _ => n)
    (fun _ _ _ => compositional.tracks.applyFrom (fun c _ v _ => calls c v) (fun α _ => stops α) trivial False.elim
      False.elim n 0) c h

end Compositional

section Expressions

variable {ev : Evaluator} {fuel : Nat} {c : ContextId} {s : Session} {attrs t : SymbolSet} {h : Value}
  {as bs : List Value}

theorem evaluateAll_append :
    evaluateAll ev c (as ++ bs) = do return (← evaluateAll ev c as) ++ (← evaluateAll ev c bs) := by
  induction as with
  | nil => simp [evaluateAll]
  | cons a as ih => simp [evaluateAll, ih]

theorem evaluateAll_length {u : Session} (run : evaluateAll ev c as s = .ok bs u) : bs.length = as.length := by
  have pairs : List.Forall₂ (fun _ _ => True) as bs :=
    (evaluateAll_ok (Q := fun _ => True) (fun _ _ _ _ _ _ _ => ⟨trivial, trivial⟩) trivial run).2
  exact pairs.length_eq.symm

theorem evaluateParts_eq : evaluateParts ev fuel c attrs h as t = do
    let k ← headUnder ev fuel c attrs h
    let bs ← evaluateArgs ev c attrs as
    return .expr k (settled as bs) t := by
  by_cases complete : attrs.contains Attribute.holdAllComplete = true
  · simp only [evaluateParts, headUnder, complete, if_true]
    rfl
  · simp only [evaluateParts, headUnder, complete, Bool.false_eq_true, if_false, newHead, bind_assoc]
    congr 1
    funext k
    by_cases new : k.differs h = true
    · simp only [new, if_true]
      unfold build
      split <;> rfl
    · simp only [new, Bool.false_eq_true, if_false]
      rfl

/-- The attributes that apply to an expression are those under which it is evaluated. -/
theorem evaluateWith_eq :
    evaluateWith ev fuel c (.expr h as t) s = evaluateBy ev fuel c (s.effectiveAttributes c h t) h as t s := by
  rw [evaluateWith, Step.bind_get, evaluateParts_eq, evaluateBy]
  simp only [evaluateOn, bind_assoc, pure_bind]

theorem evaluateWith_unheld (unheld : ∀ a ∈ Attribute.holding, (s.effectiveAttributes c h t).contains a = false) :
    evaluateWith ev fuel c (.expr h as t) s =
      (do
        let k ← newHead ev fuel c h
        let bs ← evaluateAll ev c as
        let e ← Step.ofExcept (arrange (s.effectiveAttributes c h t) (.expr k (settled as bs) t))
        evaluateArranged ev fuel c (s.effectiveAttributes c h t) e : Eval Value) s := by
  have complete := unheld Attribute.holdAllComplete (by decide)
  rw [evaluateWith_eq, evaluateBy, headUnder, if_neg (Bool.eq_false_iff.1 complete)]
  simp only [evaluateOn, evaluateArgs_unheld unheld]

/-- Expressions that are spliced to the same are brought in order in the same way. -/
theorem arrange_congr (unheld : ∀ a ∈ Attribute.holding, attrs.contains a = false) {v w : Value}
    (same : v.spliceSequences = w.spliceSequences) : arrange attrs v = arrange attrs w := by
  have complete := unheld Attribute.holdAllComplete (by decide)
  have sequence := unheld Attribute.sequenceHold (by decide)
  simp only [arrange, complete, sequence, Bool.or_self, Bool.false_eq_true, if_false, same]

theorem newHead_unset {f : String} (unset : ∀ l, s.definitions? c (sym f) .own = some l → s.definitionsOf l = []) :
    newHead ev (fuel + 1) c (sym f) s = .ok (sym f) s := by
  have head : evaluateHead ev (fuel + 1) c (sym f) s = .ok (sym f) s := evaluateSymbol_unset unset
  rw [newHead, Step.bind_of_ok head, differs_self rfl]
  rfl

/-- A call that nothing is said about, before and after its arguments are evaluated, comes to the call of what they
come to, with sequences spliced. -/
theorem evaluateWith_unsaid {f : String} {xs : List Value} (silent : s.Silent c f) (unbuilt : s.builtin? (sym f) = none)
    (after : ∀ ys w, evaluateAll ev c xs s = .ok ys w → w.Silent c f ∧ w.builtin? (sym f) = none) :
    evaluateWith ev (fuel + 1) c (call f xs) s =
      ((fun ys => call f (inline "Sequence" (settled xs ys))) <$> evaluateAll ev c xs) s := by
  have attrs : s.effectiveAttributes c (sym f) ⟨[], List.Pairwise.nil⟩ = .empty := by
    simp only [Session.effectiveAttributes, silent.unmarked, unbuilt]
    rfl
  have unheld : ∀ a ∈ Attribute.holding,
      (s.effectiveAttributes c (sym f) ⟨[], List.Pairwise.nil⟩).contains a = false := by
    rw [attrs]
    decide
  have unthreaded : SymbolSet.empty.contains Attribute.listable = false := by decide
  have whole : evaluateWith ev (fuel + 1) c (call f xs) s = _ := evaluateWith_unheld unheld
  rw [Step.bind_of_ok (newHead_unset (silent.undefined .own)), attrs] at whole
  rw [map_eq_pure_bind]
  refine whole.trans ?_
  cases ran : evaluateAll ev c xs s with
  | error e w => rw [Step.bind_of_error ran, Step.bind_of_error ran]
  | ok ys w =>
    obtain ⟨still, absent⟩ := after ys w ran
    have built : ∀ as, runBuiltin ev (fuel + 1) c (call f as) w = .ok (call f as) w := by
      intro as
      simp only [runBuiltin]
      rw [Step.bind_get, absent]
      rfl
    rw [Step.bind_of_ok ran, Step.bind_of_ok ran, arrange_spliced (by decide)]
    exact evaluateArranged_silent still unthreaded (built _)

end Expressions

/-! ### A sequence and its arguments -/

namespace Session

/-- Neither definitions nor a builtin speak about sequences, and no attributes are given to them. -/
structure Unsequenced (s : Session) (c : ContextId) : Prop extends Silent s c "Sequence" where
  unbuilt : s.builtin? (sym "Sequence") = none

theorem Unsequenced.of_contents {s t : Session} {c : ContextId} (unsequenced : s.Unsequenced c)
    (contexts : t.contexts = s.contexts) (lists : t.lists = s.lists) (registry : t.registry = s.registry) :
    t.Unsequenced c where
  toSilent := unsequenced.toSilent.of_contents contexts lists
  unbuilt := by
    rw [builtin?, registry]
    exact unsequenced.unbuilt

end Session

/-- Evaluates the head of an expression and then some arguments. -/
def evaluateRow (fuel : Nat) (c : ContextId) (h : Value) (as : List Value) : Eval (List Value) := do
  let _ ← newHead (evaluate fuel) fuel c h
  evaluateAll (evaluate fuel) c as

/-- Inside the evaluation of an expression its head and some arguments come to values, and this ends in a
session. -/
def Session.RowComes (s : Session) (c : ContextId) (h : Value) (as bs : List Value) (u : Session) : Prop :=
  ∃ fuel, evaluateRow fuel c h as s.entered = .ok bs u

section Sequences

variable {ev : Evaluator} {n fuel : Nat} {c : ContextId} {s : Session} {xs : List Value}

/-- What a sequence comes to is the sequence of what its arguments come to, spliced. -/
def sequenceOf (xs ys : List Value) : Value := call "Sequence" (inline "Sequence" (settled xs ys))

theorem evaluateWith_sequence (before : s.Unsequenced c)
    (after : ∀ ys w, evaluateAll ev c xs s = .ok ys w → w.Unsequenced c) :
    evaluateWith ev (fuel + 1) c (call "Sequence" xs) s = (sequenceOf xs <$> evaluateAll ev c xs) s :=
  evaluateWith_unsaid before.toSilent before.unbuilt fun ys w ran =>
    ⟨(after ys w ran).toSilent, (after ys w ran).unbuilt⟩

section Rows

variable (n : Nat) (c : ContextId) (as : List Value)

theorem evaluateAll_eases : Eases (evaluateAll (evaluate n) c as) :=
  compositional_eases.evaluateAll (fun _ => evaluate n) (evaluate_eases n) c as

theorem evaluateAll_keeps : Keeps (evaluateAll (evaluate n) c as) :=
  compositional_keeps.evaluateAll (fun _ => evaluate n) (evaluate_keeps n) c as

theorem evaluateAll_prolongs : Prolongs fun i => evaluateAll (evaluate (n + i.toNat)) c as :=
  compositional_prolongs.evaluateAll (fun i => evaluate (n + i.toNat)) (evaluate_prolongs n) c as

theorem newHead_keeps (h : Value) : Keeps (newHead (evaluate n) n c h) :=
  compositional_keeps.newHead_of_stops (fun _ => evaluate n) (evaluate_keeps n) (fun _ s => .refl s) n c h

theorem evaluateRow_keeps (h : Value) : Keeps (evaluateRow n c h as) :=
  (newHead_keeps n c h).bind fun _ => evaluateAll_keeps n c as

theorem evaluateRow_prolongs (h : Value) : Prolongs fun i => evaluateRow (n + i.toNat) c h as := by
  refine Prolongs.bind ?_ fun _ => evaluateAll_prolongs n c as
  exact compositional_prolongs.newHead (fun i => evaluate (n + i.toNat)) (evaluate_prolongs n) (fun i => n + i.toNat)
    (fun c l e => applyFrom_prolongs (evaluate_prolongs n) c l e n 0) c h

end Rows

/-- What a row comes to passes the tests that a run of it passes. -/
theorem Session.RowComes.tested {s u : Session} {c : ContextId} {h : Value} {as bs : List Value}
    (comes : s.RowComes c h as bs u) {n : Nat} {p : List Value → Session → Bool}
    (passed : Step.returns id ((do return p (← evaluateRow n c h as) (← get) : Eval Bool) s.entered) = true) :
    p bs u = true := by
  obtain ⟨k, run⟩ := comes
  obtain ⟨r, w, ran, yes⟩ := Step.returns_iff.1 passed
  obtain ⟨ds, v, row, rest⟩ := Step.bind_ok ran
  cases rest
  have same : evaluateRow k c h as s.entered = evaluateRow n c h as s.entered :=
    Prolongs.agree (m := fun n => evaluateRow n c h as) (fun n => evaluateRow_prolongs n c as h) (by rw [run]; rfl)
      (by rw [row]; rfl)
  rw [run, row] at same
  cases same
  exact yes

/-- What a sequence comes to is made from what its arguments come to by themselves, one level further up. -/
theorem evaluate_sequence (inner : 0 < s.depth) (before : s.Unsequenced c)
    (after : ∀ ys w, evaluateAll (evaluate (n + 2)) c xs s = .ok ys w → w.Unsequenced c) :
    Mirrors (sequenceOf xs) (evaluate (n + 2) c (call "Sequence" xs) s) (evaluateAll (evaluate (n + 2)) c xs s) := by
  have longer : ∀ {o w}, evaluateAll (evaluate (n + 1)) c xs s = ended w o →
      evaluateAll (evaluate (n + 2)) c xs s = ended w o := by
    intro o w ran
    have fueled : starves (evaluateAll (evaluate (n + 1)) c xs s) = false := by rw [ran, Step.starves_ended]
    exact (evaluateAll_prolongs (n + 1) c xs s fueled).trans ran
  have eased := (evaluateAll_eases (n + 1) c xs).up (evaluateAll_keeps (n + 1) c xs) inner
  have nested : evaluateWith (evaluate (n + 1)) (n + 1) c (call "Sequence" xs) s.entered =
      (sequenceOf xs <$> evaluateAll (evaluate (n + 1)) c xs) s.entered := by
    refine evaluateWith_sequence (before.of_contents rfl rfl rfl) fun ys u ran => ?_
    rw [ran, reaches_ok] at eased
    obtain ⟨_, ⟨d, -, i, -, rfl⟩, above⟩ := eased
    exact (after ys _ (longer above)).of_contents rfl rfl rfl
  refine Reaches.deeper ?_
  rw [nested, map_eq_pure_bind]
  refine eased.bind ?_ ?_
  · rintro ys u ⟨w, roomier, above⟩
    exact reaches_ok.2 ⟨.ok ys, w, rfl, roomier, longer above⟩
  · rintro e u ⟨w, roomier, above⟩
    exact ⟨.error e, w, rfl, roomier, longer above⟩

end Sequences

/-! ### The whole expression -/

/-- The values of a row of arguments, of which some stand in a sequence, are told apart from the arguments: in the
sequence, in the row with the sequence and in the row without it. -/
structure ToldApart (pre xs post ps ys qs : List Value) : Prop where
  within : Discerned xs ys
  around : Discerned (pre ++ call "Sequence" xs :: post) (ps ++ call "Sequence" (inline "Sequence" ys) :: qs)
  flat : Discerned (pre ++ xs ++ post) (ps ++ ys ++ qs)

theorem ToldApart.of_exact {pre xs post ps ys qs : List Value} (args : ∀ a ∈ pre ++ xs ++ post, a.isExact = true)
    (values : ∀ b ∈ ps ++ ys ++ qs, b.isExact = true) : ToldApart pre xs post ps ys qs := by
  have flat : Discerned (pre ++ xs ++ post) (ps ++ ys ++ qs) := eq_of_sameItems values args
  simp only [List.forall_mem_append] at args values
  have called : ∀ {as : List Value}, (∀ a ∈ as, a.isExact = true) → (call "Sequence" as).isExact = true := fun each =>
    everywhere_expr.2 ⟨rfl, rfl, each⟩
  have spliced : ∀ v ∈ inline "Sequence" ys, v.isExact = true := by
    intro v member
    obtain ⟨y, within, inside⟩ := List.mem_flatMap.1 member
    have precise := values.1.2 y within
    cases found : y.argsOf? "Sequence" with
    | none =>
      rw [found, Option.getD_none, List.mem_singleton] at inside
      exact inside ▸ precise
    | some as =>
      obtain ⟨t, rfl⟩ := eq_of_argsOf found
      rw [found, Option.getD_some] at inside
      exact (everywhere_expr.1 precise).2.2 v inside
  refine ⟨eq_of_sameItems values.1.2 args.1.2, eq_of_sameItems ?_ ?_, flat⟩
  · exact List.forall_mem_append.2 ⟨values.1.1, List.forall_mem_cons.2 ⟨called spliced, values.2⟩⟩
  · exact List.forall_mem_append.2 ⟨args.1.1, List.forall_mem_cons.2 ⟨called args.1.2, args.2⟩⟩

section Whole

variable {s : Session} {c : ContextId} {h : Value} {t : SymbolSet} {pre xs post : List Value}

theorem splice_sequenceOf {k : Value} {ps ys qs : List Value} (apart : ToldApart pre xs post ps ys qs) :
    spliceSequences (.expr k (settled (pre ++ call "Sequence" xs :: post) (ps ++ sequenceOf xs ys :: qs)) t) =
      spliceSequences (.expr k (settled (pre ++ xs ++ post) (ps ++ ys ++ qs)) t) := by
  have one : inline "Sequence" [call "Sequence" (inline "Sequence" ys)] = inline "Sequence" ys := inline_singleton
  rw [sequenceOf, apart.within.settled, apart.around.settled, apart.flat.settled]
  show Value.expr k (inline "Sequence" _) t = .expr k (inline "Sequence" _) t
  rw [List.append_cons, inline_append, inline_append, inline_append, inline_append, one]

theorem evaluate_mirrors (unheld : ∀ a ∈ Attribute.holding, (s.effectiveAttributes c h t).contains a = false)
    (unsequenced : ∀ as ∈ [pre, pre ++ xs], ∀ bs u, s.RowComes c h as bs u → u.Unsequenced c)
    (apart : ∀ ps ys qs u, s.RowComes c h (pre ++ xs ++ post) (ps ++ ys ++ qs) u → ps.length = pre.length →
      ys.length = xs.length → ToldApart pre xs post ps ys qs) (n : Nat) :
    Mirrors id (evaluate (n + 3) c (.expr h (pre ++ call "Sequence" xs :: post) t) s)
      (evaluate (n + 3) c (.expr h (pre ++ xs ++ post) t) s) := by
  have same : s.entered.effectiveAttributes c h t = s.effectiveAttributes c h t :=
    effectiveAttributes_withFrame (k := s.entered.frame)
  refine Mirrors.deeper ?_
  rw [evaluateWith_unheld (by rwa [same]), evaluateWith_unheld (by rwa [same]), same]
  -- The runs are one and the same up to where the sequence stands.
  refine Mirrors.after fun k u head => ?_
  simp only [evaluateAll_append, evaluateAll, bind_assoc, pure_bind]
  refine Mirrors.after fun ps v first => ?_
  have inner : 0 < v.depth := by
    rw [((evaluateAll_keeps (n + 2) c pre).after first).depth, ((newHead_keeps (n + 2) c h).after head).depth]
    exact Nat.succ_pos _
  have before : v.Unsequenced c := unsequenced pre (by simp) ps v ⟨n + 2, (Step.bind_of_ok head).trans first⟩
  have both : ∀ {ys w}, evaluateAll (evaluate (n + 2)) c xs v = .ok ys w →
      evaluateAll (evaluate (n + 2)) c (pre ++ xs) u = .ok (ps ++ ys) w := by
    intro ys w second
    rw [evaluateAll_append, Step.bind_of_ok first, Step.bind_of_ok second]
    rfl
  have after : ∀ ys w, evaluateAll (evaluate (n + 2)) c xs v = .ok ys w → w.Unsequenced c := fun ys w second =>
    unsequenced (pre ++ xs) (by simp) (ps ++ ys) w ⟨n + 2, (Step.bind_of_ok head).trans (both second)⟩
  refine (evaluate_sequence inner before after).bind fun ys w w' _ second roomier => ?_
  refine (Mirrors.of_eases (evaluateAll_eases (n + 2) c post) roomier).bind fun qs x x' _ third roomier => ?_
  have row : s.RowComes c h (pre ++ xs ++ post) (ps ++ ys ++ qs) x' := by
    refine ⟨n + 2, (Step.bind_of_ok head).trans ?_⟩
    rw [evaluateAll_append, Step.bind_of_ok (both second), Step.bind_of_ok third]
    rfl
  -- From here on both go on with the same expression.
  have told := apart ps ys qs x' row (evaluateAll_length first) (evaluateAll_length second)
  simp only [id_eq]
  rw [arrange_congr unheld (splice_sequenceOf told)]
  refine Mirrors.of_eases ((compositional_eases.admissible.ofExcept _).bind fun e => ?_) roomier
  exact compositional_eases.evaluateArranged_of_stops (fun _ => evaluate (n + 2)) (evaluate_eases (n + 2))
    (fun _ => .stop .outOfFuel) (n + 2) c _ e

end Whole

/-- Let the head of an expression not hold its arguments, let nothing be said about sequences where one of its
arguments, `Sequence[xs]`, is evaluated, and let the values be told apart from the arguments. Unless the evaluation
of the expression is cut off, the expression with `xs` in place of this argument comes to the same, be it a value
or a failure, with some fuel and so with any fuel that is enough, and leaves the same session up to the count
of replacements. -/
theorem sequence_transparent {s : Session} {c : ContextId} {h : Value} {t : SymbolSet} {pre xs post : List Value}
    (unheld : ∀ a ∈ Attribute.holding, (s.effectiveAttributes c h t).contains a = false)
    (unbuilt : s.builtin? (sym "Sequence") = none)
    (silent : ∀ as ∈ [pre, pre ++ xs], ∀ bs u, s.RowComes c h as bs u → u.Silent c "Sequence")
    (apart : ∀ ps ys qs u, s.RowComes c h (pre ++ xs ++ post) (ps ++ ys ++ qs) u → ps.length = pre.length →
      ys.length = xs.length → ToldApart pre xs post ps ys qs) (fuel : Nat) :
    Reaches (evaluate fuel c (.expr h (pre ++ call "Sequence" xs :: post) t) s) fun o u =>
      ∃ i, (∃ n, evaluate n c (.expr h (pre ++ xs ++ post) t) s = ended (u.recount u.depth i) o) ∧
        ∀ n, starves (evaluate n c (.expr h (pre ++ xs ++ post) t) s) = false →
          evaluate n c (.expr h (pre ++ xs ++ post) t) s = ended (u.recount u.depth i) o := by
  intro o come
  have unsequenced : ∀ as ∈ [pre, pre ++ xs], ∀ bs u, s.RowComes c h as bs u → u.Unsequenced c := by
    rintro as member bs u ⟨n, run⟩
    refine ⟨silent as member bs u ⟨n, run⟩, ?_⟩
    rw [builtin?, ((evaluateRow_keeps n c as h).after run).registry]
    exact unbuilt
  have longer : evaluate (fuel + 3) c (.expr h (pre ++ call "Sequence" xs :: post) t) s = _ :=
    Prolongs.more (m := fun n => evaluate n c _) (fun n => evaluate_prolongs n c _) (Nat.le_add_right fuel 3)
      (Step.starves_of_verdict come)
  have mirrors := evaluate_mirrors unheld unsequenced apart fuel
  rw [longer] at mirrors
  obtain ⟨p, w, made, ⟨d, -, i, -, rfl⟩, ran⟩ := mirrors o come
  obtain rfl : o = p := made.trans (by cases p <;> rfl)
  have here := (evaluate_keeps fuel c (.expr h (pre ++ call "Sequence" xs :: post) t) s).depth
  have there := (evaluate_keeps (fuel + 3) c (.expr h (pre ++ xs ++ post) t) s).depth
  rw [ran, Step.final_ended] at there
  obtain rfl : d = _ := there.trans here.symm
  refine ⟨i, ⟨fuel + 3, ran⟩, fun n fueled => ?_⟩
  have enough : starves (evaluate (fuel + 3) c (.expr h (pre ++ xs ++ post) t) s) = false := by
    rw [ran, Step.starves_ended]
  exact (Prolongs.agree (m := fun n => evaluate n c _) (fun n => evaluate_prolongs n c _) fueled enough).trans ran

/-- An argument that assigns a value to `x` stands before the sequence, whose arguments have this value in them. -/
theorem sequence_transparent_assignment :
    let pre := [call "Set" [sym "x", int 2]]
    let xs := [sym "x", call "Plus" [sym "x", int 1]]
    let v := call "f" [int 2, int 2, int 3, int 2]
    ∃ u i n, evaluate 9 0 (call "f" (pre ++ call "Sequence" xs :: [sym "x"])) Session.initial = .ok v u ∧
      evaluate n 0 (call "f" (pre ++ xs ++ [sym "x"])) Session.initial = .ok v (u.recount u.depth i) := by
  intro pre xs v
  have args : ∀ a ∈ pre ++ xs ++ [sym "x"], a.isExact = true := by decide +kernel
  have silent : ∀ as ∈ [pre, pre ++ xs], ∀ bs u, Session.initial.RowComes 0 (sym "f") as bs u →
      u.Silent 0 "Sequence" := by
    have tests : ∀ as ∈ [pre, pre ++ xs], Step.returns id ((do
        let _ ← evaluateRow 9 0 (sym "f") as
        return (← get).isSilent "Sequence" : Eval Bool) Session.initial.entered) = true := by decide +kernel
    exact fun as member bs u comes =>
      silent_of_isSilent (comes.tested (p := fun _ u => u.isSilent "Sequence") (tests as member)) 0
  have apart : ∀ ps ys qs u, Session.initial.RowComes 0 (sym "f") (pre ++ xs ++ [sym "x"]) (ps ++ ys ++ qs) u →
      ps.length = pre.length → ys.length = xs.length → ToldApart pre xs [sym "x"] ps ys qs := by
    intro ps ys qs u comes _ _
    have test : Step.returns id ((do
        let bs ← evaluateRow 9 0 (sym "f") (pre ++ xs ++ [sym "x"])
        let _ ← get
        return bs.all isExact : Eval Bool) Session.initial.entered) = true := by decide +kernel
    exact .of_exact args (List.all_eq_true.1 (comes.tested (p := fun bs _ => bs.all isExact) test))
  have unbuilt : Session.initial.builtin? (sym "Sequence") = none := (find_standard "Sequence").trans rfl
  have transparent := sequence_transparent (t := ⟨[], List.Pairwise.nil⟩) (by decide +kernel) unbuilt silent apart 9
  have come : Step.returns (fun r => r.isExact && r.same v)
      (evaluate 9 0 (call "f" (pre ++ call "Sequence" xs :: [sym "x"])) Session.initial) = true := by decide +kernel
  obtain ⟨r, u, run, tested⟩ := Step.returns_iff.1 come
  obtain ⟨precise, alike⟩ := Bool.and_eq_true_iff.1 tested
  obtain rfl := eq_of_same precise (by decide +kernel) alike
  rw [run, reaches_ok] at transparent
  obtain ⟨i, ⟨n, other⟩, -⟩ := transparent
  exact ⟨u, i, n, run, other⟩

/-- A named pattern for integers. -/
def someInteger (x : String) : Value := call "Pattern" [sym x, call "Blank" [sym "Integer"]]

/-- Here `f[1]` comes to `f[True]`, which is the same, and `h` tells them apart. -/
def likening : Session :=
  let s := Session.initial.define 0 (sym "f") .down [⟨call "f" [someInteger "x"], call "g" [sym "x"], .null⟩]
  let s := s.define 0 (sym "g") .down [⟨call "g" [int 1], call "f" [.bool true], .null⟩]
  s.define 0 (sym "h") .down [⟨call "h" [int 2, call "f" [someInteger "x"]], sym "x", .null⟩]

/-- In a sequence `f[1]` stays, since its value is the same, and by itself it does not. -/
theorem sequence_keeps_argument :
    Step.returns (same (int 1))
      (evaluate 9 0 (call "h" [call "Plus" [int 1, int 1], call "Sequence" [call "f" [int 1]]]) likening) = true ∧
    Step.returns (same (call "h" [int 2, call "f" [.bool true]]))
      (evaluate 9 0 (call "h" [call "Plus" [int 1, int 1], call "f" [int 1]]) likening) = true := by
  decide +kernel

end Symbolic
