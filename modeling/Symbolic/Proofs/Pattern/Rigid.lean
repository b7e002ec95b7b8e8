import Symbolic.Proofs.Pattern.Names

/-!
Patterns that leave no choice. If there are no alternatives in a pattern, and no two sequence
blanks stand side by side among its arguments, then there is at most one way in which it belongs
together with a value: all bindings under which it does give each of its names the same value.
-/
namespace Symbolic.Pattern

open Value

/-- Whether a pattern takes a segment if it stands among arguments. -/
def takesSegment (p : Value) : Bool :=
  match role p with
  | .segment _ _ _ => true
  | _ => false

/-- Whether there are no alternatives in a pattern, and among the arguments of each part at most one that
takes a segment. -/
def isRigid (p : Value) : Bool :=
  p.everywhere fun v => !v.hasHead "Alternatives" && decide (v.args.countP takesSegment ≤ 1)

/-- Both bindings give a name a value that is equal to one and the same element. -/
def Share (s u : Bindings) (x : Symbol) : Prop := ∃ d : Value, d.isElement = true ∧ s.Gives x d ∧ u.Gives x d

variable {lax : Bool} {s u : Bindings} {x : Symbol}

theorem IsPattern.takesSegment {p : Value} (single : IsPattern p) : takesSegment p = false := by
  rw [Pattern.takesSegment, single.role]

theorem SegmentPattern.takesSegment {p : Value} {name : Option Symbol} {n : Nat} {cs : List Value}
    (form : SegmentPattern p name n cs) : takesSegment p = true := by
  rw [Pattern.takesSegment, form.role]

theorem Share.equal {v w : Value} (share : Share s u x) (left : s.get? x = some v) (right : u.get? x = some w) :
    v.equal w = true := by
  obtain ⟨d, element, ⟨_, found, same⟩, ⟨_, foundToo, sameToo⟩⟩ := share
  cases left.symm.trans found
  cases right.symm.trans foundToo
  exact equal_of_both_equal element same sameToo

theorem RelatesAll.length_eq {ps es : List Value} (related : RelatesAll lax s ps es)
    (none : ps.countP Pattern.takesSegment = 0) : es.length = ps.length := by
  induction ps generalizing es with
  | nil =>
    cases related
    rfl
  | cons p ps ih =>
    cases related with
    | one single here later =>
      rw [List.countP_cons_of_neg (by simp [single.takesSegment])] at none
      rw [List.length_cons, List.length_cons, ih later none]
    | segment form =>
      rw [List.countP_cons_of_pos form.takesSegment] at none
      cases none

theorem SegmentPattern.name_of_names {p : Value} {name : Option Symbol} {n : Nat} {cs : List Value}
    (form : SegmentPattern p name n cs) (names : Names x p) : name = some x := by
  cases form with
  | blank form => cases form <;> exact (names.of_construct rfl (by simp) (by simp)).elim
  | named y t form =>
    rcases names.of_named with rfl | inner
    · rfl
    · cases form <;> exact (inner.of_construct rfl (by simp) (by simp)).elim

mutual

/-- Two ways in which a rigid pattern belongs together with an element give its names the same values. -/
theorem Relates.share {p e : Value} (rigid : isRigid p = true) (element : e.isElement = true)
    (second : Relates true u p e) (names : Names x p) : Relates true s p e → Share s u x
  | .literal basic _ => by cases names <;> cases basic
  | .verbatim _ | .blank _ => (names.of_construct rfl (by simp) (by simp)).elim
  | @Relates.named _ _ y q _ t inner bound => by
    obtain ⟨innerToo, boundToo⟩ := second.named_parts
    rcases names.of_named with rfl | inside
    · exact ⟨e, element, bound, boundToo⟩
    · rcases innerToo with innerToo | ⟨_, rfl⟩
      · have rigidInner : isRigid q = true := (everywhere_expr.1 rigid).2.2 q (by simp)
        exact innerToo.share rigidInner element inside inner
      · cases inside
  | .name _ bound => by
    rcases names.of_named with rfl | inside
    · exact ⟨e, element, bound, second.named_parts.2⟩
    · cases inside
  | .alternatives _ _ => by
    cases everywhere_here rigid
  | @Relates.compound _ _ h k as es t _ plain head args => by
    obtain ⟨here, rigidHead, rigidArgs⟩ := everywhere_expr.1 rigid
    obtain ⟨_, headElement, argElements⟩ := everywhere_expr.1 element
    obtain ⟨_, _, _, same, headToo, argsToo⟩ := second.compound_parts plain
    obtain ⟨rfl, rfl, rfl⟩ := Value.expr.inj same
    rcases names.of_plain plain with inside | ⟨a, argument, inside⟩
    · exact headToo.share rigidHead headElement inside head
    · have few : as.countP takesSegment ≤ 1 := of_decide_eq_true (Bool.and_eq_true_iff.1 here).2
      exact argsToo.share rigidArgs few argElements argument inside args

theorem RelatesAll.share {ps es : List Value} (rigid : ∀ p ∈ ps, isRigid p = true)
    (few : ps.countP takesSegment ≤ 1) (elements : ∀ e ∈ es, e.isElement = true) (second : RelatesAll true u ps es)
    {p : Value} (member : p ∈ ps) (names : Names x p) : RelatesAll true s ps es → Share s u x
  | .nil => by cases member
  | @RelatesAll.one _ _ q e qs _ single here later => by
    obtain ⟨_, _, same, hereToo, laterToo⟩ := second.one_parts single
    obtain ⟨rfl, rfl⟩ := List.cons.inj same
    obtain ⟨rigidHere, rigidLater⟩ := List.forall_mem_cons.1 rigid
    obtain ⟨element, elementsLater⟩ := List.forall_mem_cons.1 elements
    rw [List.countP_cons_of_neg (by simp [single.takesSegment])] at few
    rcases List.mem_cons.1 member with first | memberLater
    · exact hereToo.share rigidHere element (first ▸ names) here
    · exact laterToo.share rigidLater few elementsLater memberLater names later
  | @RelatesAll.segment _ _ q name n cs qs front back form _ _ bound later => by
    obtain ⟨frontToo, backToo, same, boundToo, laterToo⟩ := second.segment_parts form
    rw [List.countP_cons_of_pos form.takesSegment] at few
    -- All that is behind takes one value each, so both ways cut at the same place.
    have rest : qs.countP takesSegment = 0 := Nat.le_zero.1 (Nat.le_of_succ_le_succ few)
    obtain ⟨rfl, rfl⟩ := List.append_inj' same ((later.length_eq rest).trans (laterToo.length_eq rest).symm)
    obtain ⟨elementsFront, elementsBack⟩ := List.forall_mem_append.1 elements
    rcases List.mem_cons.1 member with first | memberLater
    · have named := form.name_of_names (first ▸ names)
      refine ⟨ofItems front, ?_, bound x named, boundToo x named⟩
      exact everywhere_expr.2 ⟨rfl, rfl, elementsFront⟩
    · have rigidLater := (List.forall_mem_cons.1 rigid).2
      exact laterToo.share rigidLater (rest ▸ Nat.zero_le 1) elementsBack memberLater names later

end

end Symbolic.Pattern
