import Symbolic.Proofs.Evaluation.Outcome
import Symbolic.Proofs.Evaluation.Transparency

/-!
Heads that are threaded over lists. A call of such a head is threaded one level at a time, and each time the evaluator
goes on with a list of calls. Main statement: with nested lists of one rectangular shape among its arguments, whatever
the depth and the lengths, a call comes to a nested list of that shape, in which each entry is what the call of the
entries at its index comes to, with the other arguments repeated. Arguments in a sequence are arguments
before any of this is done, so the shape is asked of them and not of the sequence.
-/
namespace Symbolic

open Value Session
open Arithmetic (inline)
open Step (reaches_ok)

/-! ### Arrays -/

namespace Value

/-- The nested list of a shape with an entry at each index. -/
def array : List Nat → (List Nat → Value) → Value
  | [], entry => entry []
  | n :: ns, entry => ofItems ((List.range n).map fun i => array ns fun is => entry (i :: is))

/-- Whether positions, one for each level, are an index of a shape. -/
def Indexes (is shape : List Nat) : Prop := List.Forall₂ (· < ·) is shape

end Value

/-- An argument of a head that is threaded: an array, or a value that is repeated. -/
inductive Operand where
  | array (entry : List Nat → Value)
  | repeated (v : Value)

namespace Operand

def value (shape : List Nat) : Operand → Value
  | array entry => .array shape entry
  | repeated v => v

def entry (is : List Nat) : Operand → Value
  | array entry => entry is
  | repeated v => v

def row (i : Nat) : Operand → Operand
  | array entry => array fun is => entry (i :: is)
  | repeated v => repeated v

theorem entry_row (i : Nat) (is : List Nat) (o : Operand) : (o.row i).entry is = o.entry (i :: is) := by cases o <;> rfl

theorem value_nil (o : Operand) : o.value [] = o.entry [] := by cases o <;> rfl

end Operand

section Threading

variable {h : Value} {t : SymbolSet} {n : Nat} {ns : List Nat} {ops : List Operand}

theorem argsOf_array (entry : List Nat → Value) :
    (Value.array (n :: ns) entry).argsOf? "List" =
      some ((List.range n).map fun i => Value.array ns fun is => entry (i :: is)) := rfl

theorem mem_listLengths (unlisted : ∀ v, Operand.repeated v ∈ ops → v.argsOf? "List" = none) {m : Nat}
    (member : m ∈ listLengths (ops.map (Operand.value (n :: ns)))) : m = n := by
  obtain ⟨a, inside, found⟩ := List.mem_filterMap.1 member
  obtain ⟨o, here, rfl⟩ := List.mem_map.1 inside
  cases o with
  | array entry =>
    rw [Operand.value, argsOf_array, Option.map_some, List.length_map, List.length_range] at found
    exact (Option.some.inj found).symm
  | repeated v =>
    rw [Operand.value, unlisted v here] at found
    cases found

theorem threadAt_operands (unlisted : ∀ v, Operand.repeated v ∈ ops → v.argsOf? "List" = none) {i : Nat}
    (within : i < n) :
    threadAt i (ops.map (Operand.value (n :: ns))) = (ops.map (Operand.row i)).map (Operand.value ns) := by
  rw [threadAt, List.map_map, List.map_map]
  refine List.map_congr_left fun o member => ?_
  cases o with
  | array entry => simp [Operand.value, Operand.row, argsOf_array, within]
  | repeated v => simp [Operand.value, Operand.row, unlisted v member]

theorem threadLists_operands (unlisted : ∀ v, Operand.repeated v ∈ ops → v.argsOf? "List" = none)
    (arrayed : ∃ entry, Operand.array entry ∈ ops) :
    threadLists (.expr h (ops.map (Operand.value (n :: ns))) t) =
      ofItems ((List.range n).map fun i => .expr h ((ops.map (Operand.row i)).map (Operand.value ns)) t) := by
  obtain ⟨entry, member⟩ := arrayed
  have there : n ∈ listLengths (ops.map (Operand.value (n :: ns))) :=
    List.mem_filterMap.2 ⟨_, List.mem_map_of_mem member, by simp [Operand.value, argsOf_array]⟩
  have rows : ∀ i ∈ List.range n, Value.expr h (threadAt i (ops.map (Operand.value (n :: ns)))) t =
      .expr h ((ops.map (Operand.row i)).map (Operand.value ns)) t := fun i within => by
    rw [threadAt_operands unlisted (List.mem_range.1 within)]
  rw [threadLists]
  split
  · next none => simp [none] at there
  · next m ms lengths =>
    have each : ∀ k ∈ m :: ms, k = n := fun k within => mem_listLengths unlisted (lengths ▸ within)
    obtain ⟨rfl, others⟩ := List.forall_mem_cons.1 each
    rw [if_pos (List.all_eq_true.2 fun k within => beq_iff_eq.2 (others k within)), List.map_congr_left rows]

end Threading

/-! ### Evaluation that changes nothing -/

namespace Session

/-- From outside of all evaluation, a value comes only to values with a property, and nothing changes but the count
of replacements. -/
def Harmless (s : Session) (c : ContextId) (v : Value) (P : Value → Prop) : Prop :=
  ∀ n r u, evaluate n c v (s.recount 0 0) = .ok r u → P r ∧ ∃ i, u = s.recount 0 i

/-- A value that is evaluated already. -/
def AtRest (s : Session) (c : ContextId) (v : Value) : Prop := s.Harmless c v fun r => r.same v = true

section Harmless

variable {s u : Session} {c : ContextId} {v r : Value} {P Q : Value → Prop} {n d i : Nat}

theorem Harmless.mono (harmless : s.Harmless c v P) (weaker : ∀ r, P r → Q r) : s.Harmless c v Q := fun n r u run =>
  ⟨weaker r (harmless n r u run).1, (harmless n r u run).2⟩

/-- What is known outside of all evaluation is known inside of it too. -/
theorem Harmless.run (harmless : s.Harmless c v P) (run : evaluate n c v (s.recount d i) = .ok r u) :
    P r ∧ ∃ j, u = s.recount d j := by
  -- Outside of all evaluation there is more room than anywhere inside of it.
  have roomier : Roomier (s.recount 0 0) (s.recount d i) := ⟨0, Nat.zero_le _, 0, Nat.zero_le _, rfl⟩
  have eased := evaluate_eases n c v (s.recount d i) (s.recount 0 0) roomier
  rw [run, reaches_ok] at eased
  obtain ⟨_, ⟨e, -, j, -, rfl⟩, above⟩ := eased
  obtain ⟨holds, k, same⟩ := harmless n r _ above
  have depth : u.depth = d := ((evaluate_keeps n c v).after run).depth
  have back := congrArg (fun t : Session => t.recount d u.iterations) same
  refine ⟨holds, u.iterations, Eq.trans ?_ back⟩
  rw [← depth]
  rfl

theorem evaluateAll_harmless {P : Value → Value → Prop} {vs ws : List Value} (each : ∀ v ∈ vs, s.Harmless c v (P v))
    (run : evaluateAll (evaluate n) c vs (s.recount d i) = .ok ws u) :
    List.Forall₂ P vs ws ∧ ∃ j, u = s.recount d j := by
  refine And.symm (evaluateAll_ok (Q := fun u => ∃ j, u = s.recount d j) ?_ ⟨i, rfl⟩ run)
  rintro v member _ w t ⟨j, rfl⟩ ran
  exact ((each v member).run ran).symm

end Harmless

/-! ### Lists -/

/-- Nothing is said about lists: they have neither definitions nor attributes nor a builtin. -/
structure Unlisted (s : Session) (c : ContextId) : Prop extends Silent s c "List" where
  unbuilt : s.builtin? (sym "List") = none

theorem Unlisted.recount {s : Session} {c : ContextId} (unlisted : s.Unlisted c) (d i : Nat) :
    (s.recount d i).Unlisted c :=
  ⟨unlisted.toSilent.of_contents rfl rfl, unlisted.unbuilt⟩

section Lists

variable {s : Session} {c : ContextId} {n : Nat}

theorem settled_of_rest {vs ws : List Value} (same : List.Forall₂ (fun v w => w.same v = true) vs ws) :
    settled vs ws = vs := by
  have alike : sameItems ws vs = true := by
    induction same with
    | nil => simp [sameItems]
    | cons here _ ih => simp [sameItems, here, ih]
  rw [settled, if_pos alike]

/-- Of a row of values either all stay or all are replaced. -/
theorem settled_range (f w : Nat → Value) :
    ∃ v : Nat → Value, settled ((List.range n).map f) ((List.range n).map w) = (List.range n).map v ∧
      ∀ i < n, v i = w i ∨ v i = f i ∧ (w i).same (f i) = true := by
  have pairs : ∀ is : List Nat, sameItems (is.map w) (is.map f) = is.all fun i => (w i).same (f i) := by
    intro is
    induction is with
    | nil => simp [sameItems]
    | cons i is ih => simp [sameItems, ih]
  rw [settled, pairs]
  split
  · next same =>
    exact ⟨f, rfl, fun i within => .inr ⟨rfl, List.all_eq_true.1 same i (List.mem_range.2 within)⟩⟩
  · exact ⟨w, rfl, fun i _ => .inl rfl⟩

/-- A list comes to the list of what its items come to one after the other, with sequences spliced. -/
theorem list_of_row (unlisted : s.Unlisted c) {vs : List Value} {Q : List Value → Prop}
    (items : ∀ m d i ws u, evaluateAll (evaluate m) c vs (s.recount d i) = .ok ws u →
      Q ws ∧ ∃ j, u = s.recount d j) :
    s.Harmless c (ofItems vs) fun r => ∃ ws, Q ws ∧ r = ofItems (inline "Sequence" (settled vs ws)) := by
  intro n r u run
  obtain ⟨-, t, nested, rfl⟩ := deeper_ok.1 (evaluate_more run (Nat.le_add_right n 2))
  have whole : evaluateWith (evaluate (n + 1)) (n + 1) c (ofItems vs) (s.recount 1 0) = _ :=
    evaluateWith_unsaid (unlisted.recount 1 0).toSilent unlisted.unbuilt fun ws w row => by
      obtain ⟨-, j, rfl⟩ := items _ _ _ _ _ row
      exact ⟨(unlisted.recount _ _).toSilent, unlisted.unbuilt⟩
  rw [map_eq_pure_bind] at whole
  obtain ⟨ws, w, row, rest⟩ := Step.bind_ok (whole.symm.trans nested)
  obtain ⟨rfl, rfl⟩ := Step.pure_ok.1 rest
  obtain ⟨holds, j, rfl⟩ := items _ _ _ _ _ row
  exact ⟨⟨ws, holds, rfl⟩, j, rfl⟩

theorem list_harmless (unlisted : s.Unlisted c) {vs : List Value} {P : Value → Value → Prop}
    (each : ∀ v ∈ vs, s.Harmless c v (P v)) :
    s.Harmless c (ofItems vs) fun r =>
      ∃ ws, List.Forall₂ P vs ws ∧ r = ofItems (inline "Sequence" (settled vs ws)) :=
  list_of_row unlisted fun _ _ _ _ _ row => evaluateAll_harmless each row

theorem range_harmless (unlisted : s.Unlisted c) {f : Nat → Value} {P : Nat → Value → Prop}
    (each : ∀ i < n, s.Harmless c (f i) (P i)) :
    s.Harmless c (ofItems ((List.range n).map f)) fun r => ∃ v w : Nat → Value,
      (∀ i < n, P i (w i) ∧ (v i = w i ∨ v i = f i ∧ (w i).same (f i) = true)) ∧
        r = ofItems (inline "Sequence" ((List.range n).map v)) := by
  have items : ∀ v ∈ (List.range n).map f, s.Harmless c v fun w => ∀ i < n, v = f i → P i w := by
    intro v member m r u run
    obtain ⟨i, within, rfl⟩ := List.mem_map.1 member
    refine ⟨fun j here same => (each j here m r u (same ▸ run)).1, (each i (List.mem_range.1 within) m r u run).2⟩
  refine (list_harmless unlisted items).mono ?_
  rintro r ⟨ws, pairs, rfl⟩
  obtain ⟨length, get⟩ := List.forall₂_iff_get.1 pairs
  simp only [List.length_map, List.length_range, List.get_eq_getElem, List.getElem_map,
    List.getElem_range] at length get
  have numbered : ws = (List.range n).map fun i => ws.getD i .null := by
    refine List.ext_getElem (by simp [length]) fun i within _ => ?_
    simp [within]
  obtain ⟨v, stays, kept⟩ := settled_range (n := n) f fun i => ws.getD i .null
  rw [← numbered] at stays
  refine ⟨v, fun i => ws.getD i .null, fun i within => ⟨?_, kept i within⟩, by rw [stays]⟩
  have there : i < ws.length := length ▸ within
  have item : ws.getD i .null = ws[i] := by simp [there]
  show P i (ws.getD i .null)
  rw [item]
  exact get i within there i within rfl

theorem unsequenced_array {shape : List Nat} {entry : List Nat → Value}
    (free : ∀ is, Indexes is shape → (entry is).argsOf? "Sequence" = none) :
    (Value.array shape entry).argsOf? "Sequence" = none := by
  cases shape with
  | nil => exact free [] .nil
  | cons n ns => rfl

theorem array_atRest (unlisted : s.Unlisted c) {shape : List Nat} {entry : List Nat → Value}
    (rest : ∀ is, Indexes is shape → s.AtRest c (entry is))
    (free : ∀ is, Indexes is shape → (entry is).argsOf? "Sequence" = none) : s.AtRest c (.array shape entry) := by
  induction shape generalizing entry with
  | nil => exact rest [] .nil
  | cons n ns ih =>
    have rows : ∀ v ∈ (List.range n).map fun i => Value.array ns fun is => entry (i :: is),
        s.AtRest c v ∧ v.argsOf? "Sequence" = none := by
      intro v member
      obtain ⟨i, within, rfl⟩ := List.mem_map.1 member
      have here := List.mem_range.1 within
      exact ⟨ih (fun is index => rest _ (.cons here index)) fun is index => free _ (.cons here index),
        unsequenced_array fun is index => free _ (.cons here index)⟩
    refine (list_harmless unlisted fun v member => (rows v member).1).mono ?_
    rintro r ⟨ws, same, rfl⟩
    rw [settled_of_rest same, inline_of_flat fun v member => (rows v member).2]
    exact same_refl _

end Lists

/-! ### Calls -/

/-- A head that is threaded over lists and is not treated otherwise: it has no own definitions and no other attributes
that change its arguments or hold them, and nothing is said about lists. -/
structure Threads (s : Session) (c : ContextId) (h : String) (t : SymbolSet) : Prop extends Unlisted s c where
  unowned : ∀ l, s.definitions? c (sym h) .own = some l → s.definitionsOf l = []
  listable : (s.effectiveAttributes c (sym h) t).contains Attribute.listable = true
  plain : ∀ a ∈ Attribute.flat :: Attribute.orderless :: Attribute.holding,
    (s.effectiveAttributes c (sym h) t).contains a = false

section Calls

/-- An expression that threading changes comes to what the list that it is changed to comes to. -/
theorem evaluateArranged_threaded {ev : Evaluator} {fuel : Nat} {c : ContextId} {attrs : SymbolSet} {e : Value}
    (listable : attrs.contains Attribute.listable = true) (new : e.threadLists.differs e = true) :
    evaluateArranged ev fuel c attrs e = ev c e.threadLists := by
  rw [evaluateArranged, listable, new]
  rfl

variable {s : Session} {c : ContextId} {h : String} {t : SymbolSet} (threads : s.Threads c h t)

include threads

theorem Threads.not_same (vs as : List Value) : (ofItems vs).same (.expr (sym h) as t) = false := by
  refine Bool.eq_false_iff.2 fun same => ?_
  obtain ⟨k, bs, call, head, -⟩ := same_expr same
  injection call with name _ none
  subst name none
  have list := symbol_same_iff.1 head
  have listable := threads.listable
  rw [list] at listable
  simp only [Session.effectiveAttributes, threads.unmarked, threads.unbuilt] at listable
  cases listable

/-- A call with arguments that are evaluated already comes to what the call that is threaded comes to, once sequences
are spliced. -/
theorem Threads.harmless {as vs : List Value} {P : Value → Prop} (rest : ∀ a ∈ as, s.AtRest c a)
    (threaded : threadLists (.expr (sym h) (inline "Sequence" as) t) = ofItems vs)
    (list : s.Harmless c (ofItems vs) P) : s.Harmless c (.expr (sym h) as t) P := by
  intro n r u run
  obtain ⟨-, w, nested, rfl⟩ := deeper_ok.1 (evaluate_more run (Nat.le_add_right n 2))
  replace nested : evaluateWith (evaluate (n + 1)) (n + 1) c (.expr (sym h) as t) (s.recount 1 0) = .ok r w := nested
  have attrs : (s.recount 1 0).effectiveAttributes c (sym h) t = s.effectiveAttributes c (sym h) t :=
    effectiveAttributes_withFrame (k := (s.recount 1 0).frame)
  have unheld : ∀ a ∈ Attribute.holding, ((s.recount 1 0).effectiveAttributes c (sym h) t).contains a = false := by
    intro a member
    rw [attrs]
    exact threads.plain a (.tail _ (.tail _ member))
  have unset : ∀ l, (s.recount 1 0).definitions? c (sym h) .own = some l → (s.recount 1 0).definitionsOf l = [] :=
    fun l found => threads.unowned l ((nearest_congr (s := s) (t := s.recount 1 0) rfl _ c).trans found)
  rw [evaluateWith_unheld unheld, attrs, Step.bind_of_ok (newHead_unset unset)] at nested
  obtain ⟨ws, x, row, nested⟩ := Step.bind_ok nested
  obtain ⟨same, j, rfl⟩ := evaluateAll_harmless rest row
  have others : ∀ a ∈ [Attribute.holdAllComplete, Attribute.sequenceHold, Attribute.flat, Attribute.orderless],
      a ∈ Attribute.flat :: Attribute.orderless :: Attribute.holding := by decide
  rw [settled_of_rest same, arrange_spliced fun a member => threads.plain a (others a member)] at nested
  have new : (threadLists (.expr (sym h) (inline "Sequence" as) t)).differs (.expr (sym h) (inline "Sequence" as) t) =
      true := by
    rw [threaded]
    simp [differs, equal, number?, threads.not_same]
  have goes : evaluateArranged (evaluate (n + 1)) (n + 1) c _ _ = _ := evaluateArranged_threaded threads.listable new
  have step : evaluate (n + 1) c (ofItems vs) (s.recount 1 j) = .ok r w := by
    rw [← threaded, ← goes]
    exact (Step.bind_of_ok (Step.ofExcept_ok.2 ⟨rfl, rfl⟩)).symm.trans nested
  obtain ⟨holds, k, rfl⟩ := list.run step
  exact ⟨holds, k, rfl⟩

end Calls

/-! ### Entry by entry -/

/-- A value is what the call of a head with arguments comes to from outside of all evaluation, or it is this call and
what that comes to is the same. -/
def Answers (s : Session) (c : ContextId) (h : String) (t : SymbolSet) (as : List Value) (v : Value) : Prop :=
  ∃ n q i, evaluate n c (.expr (sym h) as t) (s.recount 0 0) = .ok q (s.recount 0 i) ∧
    (v = q ∨ v = .expr (sym h) as t ∧ q.same v = true)

/-- An array in which every entry is what the call of the entries at its index comes to. -/
def Elementwise (s : Session) (c : ContextId) (h : String) (t : SymbolSet) (ops : List Operand) (shape : List Nat)
    (r : Value) : Prop :=
  ∃ g, r = .array shape g ∧ ∀ is, Indexes is shape → s.Answers c h t (ops.map (Operand.entry is)) (g is)

/-- Every list in an array is evaluated already. -/
def ListsRest (s : Session) (c : ContextId) : List Nat → (List Nat → Value) → Prop
  | [], _ => True
  | n :: ns, entry => s.AtRest c (.array (n :: ns) entry) ∧ ∀ i < n, s.ListsRest c ns fun is => entry (i :: is)

/-- An operand that is evaluated already. If it is repeated, it is neither a sequence nor a list. -/
def Rests (s : Session) (c : ContextId) (shape : List Nat) : Operand → Prop
  | .array entry => s.ListsRest c shape entry
  | .repeated v => s.AtRest c v ∧ v.argsOf? "Sequence" = none ∧ v.argsOf? "List" = none

/-- The lists in an array are evaluated already if its entries are, and none of them is a sequence. -/
theorem listsRest_of_entries {s : Session} {c : ContextId} (unlisted : s.Unlisted c) {shape : List Nat}
    {entry : List Nat → Value} (rest : ∀ is, Indexes is shape → s.AtRest c (entry is))
    (free : ∀ is, Indexes is shape → (entry is).argsOf? "Sequence" = none) : s.ListsRest c shape entry := by
  induction shape generalizing entry with
  | nil => trivial
  | cons n ns ih =>
    refine ⟨array_atRest unlisted rest free, fun i within => ih (fun is index => ?_) fun is index => ?_⟩
    · exact rest (i :: is) (.cons within index)
    · exact free (i :: is) (.cons within index)

/-- Operands that conform to a shape: one of them is an array, they are evaluated already, and to evaluate a call of the
entries at an index changes nothing and does not come to a sequence. -/
structure Conform (s : Session) (c : ContextId) (h : String) (t : SymbolSet) (shape : List Nat) (ops : List Operand) :
    Prop where
  arrayed : ∃ entry, Operand.array entry ∈ ops
  rests : ∀ o ∈ ops, s.Rests c shape o
  entries : ∀ is, Indexes is shape →
    s.Harmless c (.expr (sym h) (ops.map (Operand.entry is)) t) fun q => q.argsOf? "Sequence" = none

section Entries

variable {s : Session} {c : ContextId} {h : String} {t : SymbolSet} {n : Nat} {ns shape : List Nat} {ops : List Operand}

theorem map_entry_row (i : Nat) (is : List Nat) :
    (ops.map (Operand.row i)).map (Operand.entry is) = ops.map (Operand.entry (i :: is)) := by
  rw [List.map_map]
  exact List.map_congr_left fun o _ => o.entry_row i is

theorem Conform.row (conform : s.Conform c h t (n :: ns) ops) {i : Nat} (within : i < n) :
    s.Conform c h t ns (ops.map (Operand.row i)) where
  arrayed := by
    obtain ⟨entry, member⟩ := conform.arrayed
    exact ⟨_, List.mem_map_of_mem member⟩
  rests p member := by
    obtain ⟨o, here, rfl⟩ := List.mem_map.1 member
    have rests := conform.rests o here
    cases o with
    | array entry => exact rests.2 i within
    | repeated v => exact rests
  entries is index := by
    rw [map_entry_row]
    exact conform.entries (i :: is) (.cons within index)

theorem Conform.value (conform : s.Conform c h t (n :: ns) ops) :
    ∀ a ∈ ops.map (Operand.value (n :: ns)), s.AtRest c a ∧ a.argsOf? "Sequence" = none := by
  intro a member
  obtain ⟨o, here, rfl⟩ := List.mem_map.1 member
  have rests := conform.rests o here
  cases o with
  | array entry => exact ⟨rests.1, rfl⟩
  | repeated v => exact ⟨rests.1, rests.2.1⟩

/-- A row that stays although it has been evaluated is as good as what it comes to. -/
theorem Elementwise.kept (threads : s.Threads c h t) {v w : Value} (made : s.Elementwise c h t ops ns w)
    (stays : v = w ∨ v = .expr (sym h) (ops.map (Operand.value ns)) t ∧
      w.same (.expr (sym h) (ops.map (Operand.value ns)) t) = true) : s.Elementwise c h t ops ns v := by
  rcases stays with rfl | ⟨rfl, same⟩
  · exact made
  obtain ⟨g, rfl, answers⟩ := made
  cases ns with
  | cons m ms =>
    rw [Value.array, threads.not_same] at same
    cases same
  | nil =>
    -- On the innermost level a row is an entry.
    obtain ⟨n, q, i, run, entry⟩ := answers [] .nil
    have call : ops.map (Operand.value []) = ops.map (Operand.entry []) := List.map_congr_left fun o _ => o.value_nil
    rw [call] at same ⊢
    refine ⟨fun _ => .expr (sym h) (ops.map (Operand.entry [])) t, rfl, fun is index => ?_⟩
    cases index
    refine ⟨n, q, i, run, .inr ⟨rfl, ?_⟩⟩
    rcases entry with entry | ⟨entry, alike⟩
    · rw [← entry]
      exact same
    · rw [← entry]
      exact alike

theorem Conform.unsequenced (conform : s.Conform c h t shape ops) {v : Value} (made : s.Elementwise c h t ops shape v) :
    v.argsOf? "Sequence" = none := by
  obtain ⟨g, rfl, answers⟩ := made
  refine unsequenced_array fun is index => ?_
  obtain ⟨n, q, i, run, rfl | ⟨-, same⟩⟩ := answers is index
  · exact (conform.entries is index n _ _ run).1
  · exact (argsOf?_iff_of_same same).1 (conform.entries is index n _ _ run).1

/-- One level: if the calls of the rows come to arrays entry by entry, the call does. -/
theorem Conform.step (threads : s.Threads c h t) (conform : s.Conform c h t (n :: ns) ops) {as : List Value}
    (rest : ∀ a ∈ as, s.AtRest c a) (spliced : inline "Sequence" as = ops.map (Operand.value (n :: ns)))
    (rows : ∀ i < n, s.Harmless c (.expr (sym h) ((ops.map (Operand.row i)).map (Operand.value ns)) t)
      (s.Elementwise c h t (ops.map (Operand.row i)) ns)) :
    s.Harmless c (.expr (sym h) as t) (s.Elementwise c h t ops (n :: ns)) := by
  have unlisted : ∀ v, Operand.repeated v ∈ ops → v.argsOf? "List" = none := fun v member =>
    (conform.rests _ member).2.2
  refine threads.harmless rest (by rw [spliced, threadLists_operands unlisted conform.arrayed]) ?_
  refine (range_harmless threads.toUnlisted rows).mono ?_
  rintro r ⟨v, w, items, rfl⟩
  -- The rows came to `w`; where all of that is the same as the calls, `v` are the calls.
  have made : ∀ i < n, s.Elementwise c h t (ops.map (Operand.row i)) ns (v i) := fun i within =>
    (items i within).1.kept threads (items i within).2
  have flat : ∀ x ∈ (List.range n).map v, x.argsOf? "Sequence" = none := by
    intro x member
    obtain ⟨i, within, rfl⟩ := List.mem_map.1 member
    have here := List.mem_range.1 within
    exact (conform.row here).unsequenced (made i here)
  rw [inline_of_flat flat]
  choose! g shaped answers using made
  refine ⟨fun is => g (is.headD 0) is.tail, ?_, ?_⟩
  · rw [Value.array, List.map_congr_left fun i within => shaped i (List.mem_range.1 within)]
    rfl
  · rintro _ (_ | @⟨i, _, is, _, within, index⟩)
    rw [← map_entry_row]
    exact answers i within is index

/-- All levels, by induction on the shape. -/
theorem Conform.elementwise (threads : s.Threads c h t) (conform : s.Conform c h t shape ops) :
    s.Harmless c (.expr (sym h) (ops.map (Operand.value shape)) t) (s.Elementwise c h t ops shape) := by
  induction shape generalizing ops with
  | nil =>
    rw [List.map_congr_left fun o _ => o.value_nil]
    intro n r u run
    obtain ⟨-, i, rfl⟩ := conform.entries [] .nil n r u run
    refine ⟨⟨fun _ => r, rfl, fun is index => ?_⟩, i, rfl⟩
    cases index
    exact ⟨n, r, i, run, .inl rfl⟩
  | cons n ns ih =>
    have values := conform.value
    exact conform.step threads (fun a member => (values a member).1)
      (inline_of_flat fun a member => (values a member).2) fun i within => ih (conform.row within)

end Entries

end Session

/-- Let a head be threaded over lists, let arguments that are evaluated already be operands that conform to a shape once
sequences among them are spliced, and let the call of the head come to a value. Then this is an array of the shape, in
which the entry at each index is what the call of the entries at that index comes to, with the other arguments
repeated; where this is the same as the call itself, the call may stand for it. Nothing changes but the count of
replacements. -/
theorem threaded_elementwise {s u : Session} {c : ContextId} {h : String} {t : SymbolSet} {n fuel : Nat} {ns : List Nat}
    {as : List Value} {ops : List Operand} {r : Value} (threads : s.Threads c h t) (rest : ∀ a ∈ as, s.AtRest c a)
    (spliced : inline "Sequence" as = ops.map (Operand.value (n :: ns))) (conform : s.Conform c h t (n :: ns) ops)
    (run : evaluate fuel c (.expr (sym h) as t) s = .ok r u) :
    (∃ g, r = .array (n :: ns) g ∧
      ∀ is, Indexes is (n :: ns) → s.Answers c h t (ops.map (Operand.entry is)) (g is)) ∧
    ∃ i, u = s.recount s.depth i := by
  have rows : ∀ i < n, s.Harmless c (.expr (sym h) ((ops.map (Operand.row i)).map (Operand.value ns)) t)
      (s.Elementwise c h t (ops.map (Operand.row i)) ns) := fun i within => (conform.row within).elementwise threads
  exact (conform.step threads rest spliced rows).run (d := s.depth) (i := s.iterations) run

/-- Where nothing is defined, a term is evaluated without changing anything, and it comes only to values that pass the
tests that a run of it passes. -/
theorem Session.Bare.harmless {s : Session} {c : ContextId} {v : Value} {V : Vocabulary} {n : Nat} {p : Value → Bool}
    (bare : s.Bare c) (term : IsTerm V v) (passed : Step.returns p (evaluate n c v (s.recount 0 0)) = true) :
    s.Harmless c v fun r => p r = true := fun k r u run =>
  ⟨evaluate_tested passed run, (evaluate_settles bare k 0 0 v r u term run).1⟩

/-- An array of numbers of two levels, from each of which `x` is subtracted. -/
theorem threaded_elementwise_difference :
    let entry := fun is : List Nat => int (10 * is.headD 0 + is.tail.headD 0)
    let t : SymbolSet := ⟨[], List.Pairwise.nil⟩
    ∃ r u g, evaluate 9 globalId (.expr (sym "Subtract") [.array [2, 2] entry, sym "x"] t) Session.initial = .ok r u ∧
      r = .array [2, 2] g ∧
      ∀ is, Indexes is [2, 2] → Session.initial.Answers globalId "Subtract" t [entry is, sym "x"] (g is) := by
  intro entry t
  have threads : Session.initial.Threads globalId "Subtract" t :=
    ⟨⟨initial_bare.silent "List", (find_standard "List").trans rfl⟩, initial_bare.undefined _ .own, by decide +kernel,
      by decide +kernel⟩
  have indexed : ∀ {P : List Nat → Prop}, (∀ i < 2, ∀ j < 2, P [i, j]) → ∀ is, Indexes is [2, 2] → P is := by
    intro P each is index
    obtain ⟨i, _, first, others, rfl⟩ := List.forall₂_cons_right_iff.1 index
    obtain ⟨j, _, second, none, rfl⟩ := List.forall₂_cons_right_iff.1 others
    cases none
    exact each i first j second
  have numbers : ∀ i < 2, ∀ j < 2, Step.returns (fun r => r.same (entry [i, j]))
      (evaluate 9 globalId (entry [i, j]) (Session.initial.recount 0 0)) = true := by decide +kernel
  have symbol : Step.returns (fun r => r.same (sym "x")) (evaluate 9 globalId (sym "x") (Session.initial.recount 0 0)) =
      true := by decide +kernel
  have differences : ∀ i < 2, ∀ j < 2, Step.returns (fun q => (q.argsOf? "Sequence").isNone)
      (evaluate 9 globalId (call "Subtract" [entry [i, j], sym "x"]) (Session.initial.recount 0 0)) = true := by
    decide +kernel
  have atom : IsTerm .all (sym "x") := .atom trivial
  have still : Session.initial.AtRest globalId (sym "x") := initial_bare.harmless atom symbol
  have conform : Session.initial.Conform globalId "Subtract" t [2, 2] [.array entry, .repeated (sym "x")] := by
    refine ⟨⟨entry, by simp⟩, ?_, indexed fun i first j second => ?_⟩
    · refine forall_mem_pair.2 ⟨?_, still, rfl, rfl⟩
      exact listsRest_of_entries threads.toUnlisted (indexed fun i first j second =>
        initial_bare.harmless (V := .all) (.integer _) (numbers i first j second)) fun _ _ => rfl
    · have term : IsTerm .all (call "Subtract" [entry [i, j], sym "x"]) :=
        .apply trivial (.subtract _ _) (forall_mem_pair.2 ⟨.integer _, atom⟩)
      exact (initial_bare.harmless term (differences i first j second)).mono fun q => Option.isNone_iff_eq_none.1
  have rest : ∀ a ∈ [Value.array [2, 2] entry, sym "x"], Session.initial.AtRest globalId a := fun a member =>
    (conform.value a member).1
  have come : Step.returns (fun _ => true)
      (evaluate 9 globalId (.expr (sym "Subtract") [.array [2, 2] entry, sym "x"] t) Session.initial) = true := by
    decide +kernel
  obtain ⟨r, u, run, -⟩ := Step.returns_iff.1 come
  obtain ⟨⟨g, shaped, answers⟩, -⟩ := threaded_elementwise threads rest rfl conform run
  exact ⟨r, u, g, run, shaped, answers⟩

/-- A sequence is spliced before lists are looked for: `h` is not threaded over the empty list with a sequence beside
it that has a list of another length in it, although both arguments are evaluated already. -/
theorem threading_after_splicing :
    let s := Session.initial.updateContext 0 fun k => k.setAttributes (sym "h") [.symbol Attribute.listable]
    let row := ofItems [int 1]
    Step.returns (same (ofItems [])) (evaluate 9 0 (ofItems []) s) = true ∧
    Step.returns (same (call "Sequence" [row])) (evaluate 9 0 (call "Sequence" [row]) s) = true ∧
    Step.returns (same (call "h" [ofItems [], row]))
      (evaluate 9 0 (call "h" [ofItems [], call "Sequence" [row]]) s) = true ∧
    Step.returns (same (ofItems [])) (evaluate 9 0 (call "h" [ofItems [], int 1]) s) = true := by
  decide +kernel

end Symbolic
