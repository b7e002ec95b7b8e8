import Symbolic.Proofs.Flattening
import Symbolic.Proofs.Normalization
import Symbolic.Proofs.Evaluation.Ground
import Symbolic.Proofs.Evaluation.Steps

/-!
How far sequences are spliced. A pass splices the sequences that stand among the arguments of an expression
and leaves those that stood in them, so a row of arguments needs as many passes as sequences are nested in
it (`sequenceDepths`). Where nothing else is done on the arguments, which is so under `Hold`, an evaluation
makes one pass. Main statement: after `n` passes, and so after `n` evaluations of `Hold`, no sequence is
left exactly if they are nested at most `n` deep.
-/
namespace Symbolic

open Pattern (flatten)
open Arithmetic (inline)

namespace Value

section Nesting

mutual

/-- How deep sequences are nested in an argument: 0 if it is none. -/
def sequenceDepth : Value → Nat
  | .expr (.symbol s) as _ => if s.name == "Sequence" then sequenceDepths as + 1 else 0
  | _ => 0

def sequenceDepths : List Value → Nat
  | [] => 0
  | a :: as => max (sequenceDepth a) (sequenceDepths as)

end

/-- The sequences among the arguments are spliced again and again, a given number of times. -/
def spliceTimes : Nat → List Value → List Value
  | 0, as => as
  | n + 1, as => spliceTimes n (inline "Sequence" as)

variable {a : Value} {as bs : List Value} {name : String} {n : Nat}

theorem sequenceDepth_of_none (other : a.argsOf? "Sequence" = none) : sequenceDepth a = 0 := by
  unfold argsOf? at other
  unfold sequenceDepth
  split
  · next s as t =>
    split
    · next named => simp [named] at other
    · rfl
  · rfl

theorem eq_of_argsOf (found : a.argsOf? name = some bs) : ∃ t, a = .expr (sym name) bs t := by
  unfold argsOf? at found
  split at found
  · next s as t =>
    split at found
    · next named =>
      cases found
      obtain ⟨x⟩ := s
      obtain rfl : x = name := beq_iff_eq.1 named
      exact ⟨t, rfl⟩
    · cases found
  · cases found

theorem sequenceDepth_of_some (found : a.argsOf? "Sequence" = some bs) :
    sequenceDepth a = sequenceDepths bs + 1 := by
  obtain ⟨t, rfl⟩ := eq_of_argsOf found
  rw [sequenceDepth, if_pos (beq_self_eq_true _)]

theorem isHeadedBy_sym : a.isHeadedBy (sym name) = (a.argsOf? name).isSome := by
  cases a with
  | expr h as t =>
    have equal : h.equal (sym name) = h.same (sym name) := by simp [Value.equal, number?]
    rw [isHeadedBy, equal, Bool.eq_iff_iff, same_symbol_iff]
    cases h with
    | symbol s =>
      obtain ⟨x⟩ := s
      simp [argsOf?]
    | _ => simp [argsOf?]
  | _ => rfl

theorem opened_of_none (other : a.argsOf? name = none) : opened (sym name) a = [a] := by
  rw [opened, isHeadedBy_sym, other]
  rfl

theorem opened_of_some (found : a.argsOf? name = some bs) : opened (sym name) a = flatten (sym name) bs := by
  rw [opened, isHeadedBy_sym, found]
  obtain ⟨t, rfl⟩ := eq_of_argsOf found
  rfl

theorem inline_cons : inline name (a :: as) = (a.argsOf? name).getD [a] ++ inline name as := List.flatMap_cons

theorem flatten_append : flatten (sym name) (as ++ bs) = flatten (sym name) as ++ flatten (sym name) bs := by
  induction as with
  | nil => rfl
  | cons a as ih => rw [List.cons_append, flatten_cons, flatten_cons, ih, List.append_assoc]

theorem flatten_inline : flatten (sym name) (inline name as) = flatten (sym name) as := by
  induction as with
  | nil => rfl
  | cons a as ih =>
    rw [inline_cons, flatten_append, ih, flatten_cons]
    cases found : a.argsOf? name with
    | none => rw [Option.getD_none, flatten_cons, opened_of_none found]; rfl
    | some bs => rw [Option.getD_some, opened_of_some found]

theorem sequenceDepths_append : sequenceDepths (as ++ bs) = max (sequenceDepths as) (sequenceDepths bs) := by
  induction as with
  | nil => simp [sequenceDepths]
  | cons a as ih => rw [List.cons_append, sequenceDepths, ih, sequenceDepths, Nat.max_assoc]

theorem sequenceDepths_inline : sequenceDepths (inline "Sequence" as) = sequenceDepths as - 1 := by
  induction as with
  | nil => rfl
  | cons a as ih =>
    have first : sequenceDepths ((a.argsOf? "Sequence").getD [a]) = sequenceDepth a - 1 := by
      cases found : a.argsOf? "Sequence" with
      | none => simp [sequenceDepths, sequenceDepth_of_none found]
      | some bs => simp [sequenceDepth_of_some found]
    rw [inline_cons, sequenceDepths_append, first, ih, sequenceDepths]
    omega

theorem sequenceDepths_eq_zero : sequenceDepths as = 0 ↔ ∀ a ∈ as, a.argsOf? "Sequence" = none := by
  induction as with
  | nil => simp [sequenceDepths]
  | cons a as ih =>
    rw [sequenceDepths, List.forall_mem_cons, ← ih]
    cases found : a.argsOf? "Sequence" with
    | none => simp [sequenceDepth_of_none found]
    | some bs => simp [sequenceDepth_of_some found]

theorem sequenceDepths_spliceTimes : sequenceDepths (spliceTimes n as) = sequenceDepths as - n := by
  induction n generalizing as with
  | zero => rfl
  | succ n ih => rw [spliceTimes, ih, sequenceDepths_inline]; omega

theorem flatten_spliceTimes : flatten (sym "Sequence") (spliceTimes n as) = flatten (sym "Sequence") as := by
  induction n generalizing as with
  | zero => rfl
  | succ n ih => rw [spliceTimes, ih, flatten_inline]

/-- No sequence is left after some passes exactly if sequences are nested no deeper than that. -/
theorem unsequenced_spliceTimes :
    (∀ a ∈ spliceTimes n as, a.isHeadedBy (sym "Sequence") = false) ↔ sequenceDepths as ≤ n := by
  rw [← Nat.sub_eq_zero_iff_le, ← sequenceDepths_spliceTimes, sequenceDepths_eq_zero]
  simp [isHeadedBy_sym]

theorem spliceTimes_eq_flatten : spliceTimes n as = flatten (sym "Sequence") as ↔ sequenceDepths as ≤ n := by
  constructor
  · intro same
    rw [← unsequenced_spliceTimes, same]
    exact flatten_other
  · intro shallow
    rw [← flatten_spliceTimes (n := n), flatten_of_other (unsequenced_spliceTimes.2 shallow)]

theorem sequenceDepths_congr (same : sameItems as bs = true)
    (each : ∀ a ∈ as, ∀ b, a.same b = true → sequenceDepth a = sequenceDepth b) :
    sequenceDepths as = sequenceDepths bs := by
  induction as generalizing bs with
  | nil =>
    cases bs with
    | nil => rfl
    | cons => simp [sameItems] at same
  | cons a as ih =>
    cases bs with
    | nil => simp [sameItems] at same
    | cons b bs =>
      obtain ⟨here, there⟩ := Bool.and_eq_true_iff.1 (by simpa only [sameItems] using same)
      obtain ⟨first, others⟩ := List.forall_mem_cons.1 each
      rw [sequenceDepths, sequenceDepths, first b here, ih there others]

theorem sequenceDepth_of_same {b : Value} (same : a.same b = true) : sequenceDepth a = sequenceDepth b := by
  induction a using byArgs generalizing b with
  | step a each =>
    cases found : b.argsOf? "Sequence" with
    | none => rw [sequenceDepth_of_none found, sequenceDepth_of_none ((argsOf?_iff_of_same same).2 found)]
    | some bs =>
      obtain ⟨t, rfl⟩ := eq_of_argsOf found
      obtain ⟨h, as, rfl, head, items⟩ := same_expr same
      rw [same_symbol_iff.1 head, sequenceDepth, sequenceDepth,
        sequenceDepths_congr items fun a member b => each a member]

/-- A second pass changes nothing exactly if sequences are nested at most one deep. -/
theorem respliced_equal {h : Value} {t : SymbolSet} :
    equal (.expr h (spliceTimes 2 as) t) (.expr h (spliceTimes 1 as) t) = true ↔ sequenceDepths as ≤ 1 := by
  have equal : equal (.expr h (spliceTimes 2 as) t) (.expr h (spliceTimes 1 as) t) =
    same (.expr h (spliceTimes 2 as) t) (.expr h (spliceTimes 1 as) t) := by simp [Value.equal, number?]
  rw [equal]
  constructor
  · intro alike
    obtain ⟨_, _, ⟨⟩, -, items⟩ := same_expr alike
    have depths := sequenceDepths_congr items fun a _ b => sequenceDepth_of_same
    rw [sequenceDepths_spliceTimes, sequenceDepths_spliceTimes] at depths
    omega
  · intro shallow
    rw [spliceTimes_eq_flatten.2 shallow, spliceTimes_eq_flatten.2 (Nat.le_succ_of_le shallow)]
    exact same_refl _

end Nesting

end Value

open Value Session

namespace Session

/-- In a context of the session nothing is said about calls of a name: it has neither definitions nor
attributes, and no symbol has definitions about the calls that it is an argument of. Lists of definitions
may be there if they are empty. -/
structure Silent (s : Session) (c : ContextId) (f : String) : Prop where
  undefined : ∀ k l, s.definitions? c (sym f) k = some l → s.definitionsOf l = []
  upward : ∀ x l, s.definitions? c (sym x) .up = some l → s.definitionsOf l = []
  unmarked : s.attributesOf c (sym f) = []

variable {s t : Session} {c : ContextId} {f : String}

theorem Silent.of_contents (silent : s.Silent c f) (contexts : t.contexts = s.contexts) (lists : t.lists = s.lists) :
    t.Silent c f where
  undefined k l found := by
    rw [definitionsOf, lists]
    exact silent.undefined k l ((nearest_congr contexts.symm _ c).trans found)
  upward x l found := by
    rw [definitionsOf, lists]
    exact silent.upward x l ((nearest_congr contexts.symm _ c).trans found)
  unmarked := by
    rw [attributesOf, nearest_congr contexts]
    exact silent.unmarked

/-- Whether no context holds anything about calls of a name. -/
def isSilent (s : Session) (f : String) : Bool :=
  s.contexts.all fun ctx =>
    (Context.find? (sym f) ctx.entries).isNone && (Context.find? (sym f) ctx.attributes).isNone &&
      ctx.entries.all fun e => (e.2.list? .up).isNone

theorem silent_of_isSilent (tested : s.isSilent f = true) (c : ContextId) : s.Silent c f := by
  have each : ∀ {b : ContextId} {ctx : Context}, s.contexts[b]? = some ctx →
      Context.find? (sym f) ctx.entries = none ∧ Context.find? (sym f) ctx.attributes = none ∧
        ∀ e ∈ ctx.entries, e.2.list? .up = none := by
    intro b ctx found
    have test := Array.all_eq_true'.1 tested ctx (Array.mem_of_getElem? found)
    simpa only [Bool.and_eq_true, Option.isNone_iff_eq_none, List.all_eq_true, and_assoc] using test
  refine ⟨fun k l found => ?_, fun x l found => ?_, ?_⟩
  · obtain ⟨b, ctx, here, held⟩ := Ground.nearest_mem found
    rw [Context.entry, (each here).1] at held
    cases held
  · obtain ⟨b, ctx, here, held⟩ := Ground.nearest_mem found
    rw [Context.entry] at held
    cases stored : Context.find? (sym x) ctx.entries with
    | none =>
      rw [stored] at held
      cases held
    | some e =>
      obtain ⟨key, member⟩ := Context.find_mem stored
      rw [stored, Option.getD_some, (each here).2.2 _ member] at held
      cases held
  · rw [attributesOf]
    cases found : s.nearest (fun ctx => Context.find? (sym f) ctx.attributes) c with
    | none => rfl
    | some as =>
      obtain ⟨b, ctx, here, held⟩ := Ground.nearest_mem found
      rw [(each here).2.1] at held
      cases held

theorem Bare.silent (bare : s.Bare c) (f : String) : s.Silent c f where
  undefined := bare.undefined (sym f)
  upward x := bare.undefined (sym x) .up
  unmarked := bare.unmarked (sym f)

end Session

section Calls

variable {ev : Evaluator} {fuel : Nat} {c : ContextId} {s : Session} {f : String} {as : List Value}

/-- Without other attributes that change the arguments, a pass is all that is done to bring them in order. -/
theorem arrange_spliced {attrs t : SymbolSet} {h : Value}
    (plain : ∀ a ∈ [Attribute.holdAllComplete, Attribute.sequenceHold, Attribute.flat, Attribute.orderless],
      attrs.contains a = false) :
    arrange attrs (.expr h as t) = .ok (.expr h (inline "Sequence" as) t) := by
  simp only [List.forall_mem_cons] at plain
  obtain ⟨complete, sequence, flat, orderless, -⟩ := plain
  simp only [arrange, complete, sequence, flat, orderless, Bool.or_self, Bool.false_eq_true, if_false]
  rfl

theorem applyDefinitions_unset {k : DefinitionKind} {v e : Value}
    (unset : ∀ l, s.definitions? c v k = some l → s.definitionsOf l = []) :
    applyDefinitions ev (fuel + 1) c k v e s = .ok none s := by
  rw [applyDefinitions, Step.bind_get]
  cases found : s.definitions? c v k with
  | none => rfl
  | some l => exact applyFrom_empty (unset l found)

theorem firstChange_unset {e : Value} {places : List (DefinitionKind × Value)}
    (unset : ∀ p ∈ places, ∀ l, s.definitions? c p.2 p.1 = some l → s.definitionsOf l = []) :
    firstChange ev (fuel + 1) c e places s = .ok none s := by
  induction places with
  | nil => rfl
  | cons p places ih =>
    obtain ⟨here, others⟩ := List.forall_mem_cons.1 unset
    exact (Step.bind_of_ok (applyDefinitions_unset here)).trans (ih others)

theorem evaluateSymbol_unset (unset : ∀ l, s.definitions? c (sym f) .own = some l → s.definitionsOf l = []) :
    evaluateSymbol ev (fuel + 1) c (sym f) s = .ok (sym f) s :=
  Step.bind_of_ok (applyDefinitions_unset unset)

theorem evaluate_unset (unset : ∀ l, s.definitions? c (sym f) .own = some l → s.definitionsOf l = [])
    (room : (s.depth + 1 : Int) ≤ s.recursionLimit) (fuel : Nat) :
    evaluate (fuel + 2) c (sym f) s = .ok (sym f) s.entered.exited := by
  have inside : ∀ l, s.entered.definitions? c (sym f) .own = some l → s.entered.definitionsOf l = [] := fun l found =>
    unset l ((nearest_congr (s := s) (t := s.entered) rfl _ c).trans found)
  have itself : evaluateWith (evaluate (fuel + 1)) (fuel + 1) c (sym f) s.entered = .ok (sym f) s.entered :=
    evaluateSymbol_unset inside
  rw [evaluate, deeper_eq, if_neg (by omega), itself]
  rfl

/-- The definitions that can apply to a call are those of symbols about what they are an argument of, and those of
calls of its name. -/
theorem mem_sources {p : DefinitionKind × Value} (member : p ∈ sources (call f as)) :
    (∃ y, p = (.up, sym y)) ∨ p = (.down, sym f) := by
  rcases List.mem_append.1 member with up | head
  · obtain ⟨a, -, found⟩ := List.mem_filterMap.1 up
    obtain ⟨v, there, rfl⟩ := Option.map_eq_some_iff.1 found
    unfold subject? at there
    split at there
    · cases there
      exact .inl ⟨_, rfl⟩
    · cases there
      exact .inl ⟨_, rfl⟩
    · cases there
  · exact .inr (List.mem_singleton.1 head)

/-- A head without definitions of its own stays, and so do arguments that are all held. -/
theorem evaluateParts_held {attrs t : SymbolSet} (complete : attrs.contains Attribute.holdAllComplete = false)
    (all : attrs.contains Attribute.holdAll = true)
    (unset : ∀ l, s.definitions? c (sym f) .own = some l → s.definitionsOf l = []) :
    evaluateParts ev (fuel + 1) c attrs (sym f) as t s = .ok (.expr (sym f) as t) s := by
  have head : evaluateHead ev (fuel + 1) c (sym f) s = .ok (sym f) s := evaluateSymbol_unset unset
  have unchanged : (sym f).differs (sym f) = false := differs_self rfl
  simp only [evaluateParts, evaluateArgs, complete, all, Bool.or_true, Bool.false_eq_true, if_false, if_true]
  rw [Step.bind_of_ok head]
  simp only [unchanged, Bool.false_eq_true, if_false, pure_bind, ite_self]
  rfl

theorem firstChange_call (upward : ∀ y l, s.definitions? c (sym y) .up = some l → s.definitionsOf l = [])
    (downward : ∀ l, s.definitions? c (sym f) .down = some l → s.definitionsOf l = []) :
    firstChange ev (fuel + 1) c (call f as) (sources (call f as)) s = .ok none s := by
  refine firstChange_unset fun p member => ?_
  rcases mem_sources member with ⟨y, rfl⟩ | rfl
  · exact upward y
  · exact downward

/-- Nothing takes the place of a call that its builtin leaves as it is. -/
theorem evaluateArranged_silent {attrs : SymbolSet} (silent : s.Silent c f)
    (unthreaded : attrs.contains Attribute.listable = false)
    (built : runBuiltin ev (fuel + 1) c (call f as) s = .ok (call f as) s) :
    evaluateArranged ev (fuel + 1) c attrs (call f as) s = .ok (call f as) s := by
  have same : replaceOnce ev (fuel + 1) c (call f as) s = .ok (call f as) s :=
    (Step.bind_of_ok (firstChange_call silent.upward (silent.undefined .down))).trans built
  simp only [evaluateArranged, unthreaded, Bool.false_and, Bool.false_eq_true, if_false]
  rw [Step.bind_of_ok same, differs_self rfl]
  rfl

end Calls

section Holding

variable {ev : Evaluator} {fuel : Nat} {c : ContextId} {s : Session} {as : List Value}

theorem runBuiltin_hold (standard : s.registry = Builtin.standard) :
    runBuiltin ev fuel c (call "Hold" as) s = .ok (call "Hold" as) s :=
  runBuiltin_named .hold standard rfl

theorem evaluate_hold (standard : s.registry = Builtin.standard) (silent : s.Silent c "Hold")
    (room : (s.depth + 1 : Int) ≤ s.recursionLimit) :
    evaluate (fuel + 2) c (call "Hold" as) s = .ok (call "Hold" (inline "Sequence" as)) s.entered.exited := by
  have inner : s.entered.Silent c "Hold" := silent.of_contents rfl rfl
  have registry : s.entered.registry = Builtin.standard := standard
  have unthreaded : (markings "Hold").contains Attribute.listable = false := by decide
  rw [evaluate, deeper_eq, if_neg (by omega), evaluateWith_unmarked registry inner.unmarked,
    Step.bind_of_ok (evaluateParts_held (by decide) (by decide) (inner.undefined .own)), arrange_spliced (by decide)]
  exact congrArg _ (evaluateArranged_silent inner unthreaded (runBuiltin_hold registry))

/-- Evaluated again and again, a call of `Hold` has a pass made over its arguments each time. -/
theorem evaluateTimes_hold (standard : s.registry = Builtin.standard) (silent : s.Silent c "Hold")
    (room : (s.depth + 1 : Int) ≤ s.recursionLimit) (n : Nat) :
    ∃ d i, evaluateTimes (fuel + 2) c n (call "Hold" as) s = .ok (call "Hold" (spliceTimes n as)) (s.recount d i) := by
  induction n generalizing s as with
  | zero => exact ⟨s.depth, s.iterations, rfl⟩
  | succ n ih =>
    have after : s.entered.exited.Silent c "Hold" := silent.of_contents rfl rfl
    have later : ∃ d i, evaluateTimes (fuel + 2) c n (call "Hold" (inline "Sequence" as)) s.entered.exited =
        .ok (call "Hold" (spliceTimes n (inline "Sequence" as))) (s.recount d i) := ih standard after room
    obtain ⟨d, i, rest⟩ := later
    exact ⟨d, i, (Step.bind_of_ok (evaluate_hold standard silent room)).trans rest⟩

end Holding

/-- Splicing keeps the head and the attributes of an expression and makes one pass over its arguments. A number of
passes comes to what is left with every sequence replaced by its contents at every depth, and so to arguments
among which there is no sequence, exactly if sequences are nested at most that deep; so a second pass changes
nothing exactly if they are nested at most one deep. A call of `Hold` that nothing is said about has a pass made
over its arguments each time it is evaluated, and nothing else. -/
theorem splicing_passes (h : Value) (as : List Value) (t : SymbolSet) {s : Session} {c : ContextId}
    (standard : s.registry = Builtin.standard) (silent : s.Silent c "Hold")
    (room : (s.depth + 1 : Int) ≤ s.recursionLimit) (fuel : Nat) :
    spliceSequences (.expr h as t) = .expr h (spliceTimes 1 as) t ∧
    (∀ n, spliceTimes n as = flatten (sym "Sequence") as ↔ sequenceDepths as ≤ n) ∧
    (∀ n, (∀ a ∈ spliceTimes n as, a.isHeadedBy (sym "Sequence") = false) ↔ sequenceDepths as ≤ n) ∧
    (equal (spliceSequences (spliceSequences (.expr h as t))) (spliceSequences (.expr h as t)) = true ↔
      sequenceDepths as ≤ 1) ∧
    (∀ n, ∃ d i, evaluateTimes (fuel + 2) c n (call "Hold" as) s =
      .ok (call "Hold" (spliceTimes n as)) (s.recount d i)) ∧
    (equal (call "Hold" (spliceTimes 2 as)) (call "Hold" (spliceTimes 1 as)) = true ↔ sequenceDepths as ≤ 1) :=
  ⟨rfl, fun _ => spliceTimes_eq_flatten, fun _ => unsequenced_spliceTimes, respliced_equal,
    evaluateTimes_hold standard silent room, respliced_equal⟩

/-- Where a sequence stands in a sequence, two passes are enough, and one is not. -/
theorem splicing_passes_nested :
    let as := [call "Sequence" [call "Sequence" [int 1], int 2], int 3]
    Session.initial.registry = Builtin.standard ∧ Session.initial.Silent globalId "Hold" ∧
      spliceTimes 2 as = flatten (sym "Sequence") as ∧ spliceTimes 1 as ≠ flatten (sym "Sequence") as ∧
      ∃ d i, evaluateTimes 2 globalId 2 (call "Hold" as) Session.initial =
        .ok (call "Hold" [int 1, int 2, int 3]) (Session.initial.recount d i) := by
  intro as
  have silent := initial_bare.silent "Hold"
  have depths : sequenceDepths as = 2 := by decide +kernel
  obtain ⟨-, passes, -, -, held, -⟩ := splicing_passes (sym "f") as .empty rfl silent (by decide) 0
  refine ⟨rfl, silent, (passes 2).2 (by omega), fun same => ?_, held 2⟩
  have shallow := (passes 1).1 same
  omega

/-- A sequence in a sequence is left, and goes with the next pass. -/
theorem nested_sequence_left :
    spliceSequences (call "f" [call "Sequence" [call "Sequence" [int 1, int 2]]]) =
      call "f" [call "Sequence" [int 1, int 2]] ∧
    Step.returns (same (call "Hold" [call "Sequence" [int 1, int 2]]))
      (evaluateTimes 2 0 1 (call "Hold" [call "Sequence" [call "Sequence" [int 1, int 2]]]) Session.initial) = true ∧
    Step.returns (same (call "Hold" [int 1, int 2]))
      (evaluateTimes 2 0 2 (call "Hold" [call "Sequence" [call "Sequence" [int 1, int 2]]]) Session.initial) = true :=
  ⟨rfl, by decide +kernel, by decide +kernel⟩

end Symbolic
