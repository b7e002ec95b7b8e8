import Symbolic.Proofs.Evaluation.Budget
import Symbolic.Proofs.Pattern.Counterparts
import Symbolic.Proofs.Pattern.Segmentation
import Symbolic.Proofs.Pattern.Threading

/-!
Equal elements in each other's place. Equality takes numbers of different kinds, and truth values, for the same if they
stand for the same quantity; heads and blanks tell them apart. Where the atoms in corresponding places are of one kind,
equal elements differ at most in the signs of zeros, which nothing in a search looks at: comparisons, blanks,
the names that are bound and the failures are the same. Main statement: such elements have equal heads and
are matched by the same patterns; and if no attribute moves arguments out of their places, only such elements
are (`equal_interchangeable`).
-/
namespace Symbolic

open Value Step
open Session (Suffices comes_atom)
open Arithmetic (inline)

/-- The name of the head that the values of a kind have, expressions apart. -/
def Kind.headName : Kind → String
  | .int => "Integer"
  | .real => "Real"
  | .complex => "Complex"
  | .text => "String"
  | _ => "Symbol"

namespace Value

mutual

/-- Whether the atoms in corresponding places of two values are of the same kind. -/
def sameKinds : Value → Value → Bool
  | .expr h as _, .expr k bs _ => sameKinds h k && sameKindsAll as bs
  | v, w => v.kind = w.kind

def sameKindsAll : List Value → List Value → Bool
  | [], [] => true
  | x :: xs, y :: ys => sameKinds x y && sameKindsAll xs ys
  | _, _ => false

end

theorem equal_eq (v w : Value) : v.equal w = (v.same w && !v.isNaN) := by
  unfold Value.equal
  split
  · next m n left right =>
    cases v with
    | bool b =>
      cases left
      simp [same, right, Number.equal, isNaN]
    | number k =>
      cases left
      simp [same, right, Number.equal, isNaN]
    | _ => cases left
  · next other =>
    cases v with
    | number k =>
      cases found : w.number? with
      | none => simp [same, found]
      | some n => exact (other k n rfl found).elim
    | _ => simp [isNaN]

theorem Definite.isNaN {v : Value} (definite : v.Definite) : v.isNaN = false := by
  simpa using everywhere_here definite.free

theorem Definite.parts {h : Value} {as : List Value} {t : SymbolSet} (definite : (Value.expr h as t).Definite) :
    h.Definite ∧ ∀ a ∈ as, a.Definite := by
  obtain ⟨_, head, args⟩ := everywhere_expr.1 definite.element
  obtain ⟨_, headFree, argsFree⟩ := everywhere_expr.1 definite.free
  exact ⟨⟨head, headFree⟩, fun a member => ⟨args a member, argsFree a member⟩⟩

theorem headOf_basic {v : Value} (element : v.isElement = true) (basic : v.isExpr = false) :
    v.headOf = .ok (sym v.kind.headName) := by
  cases v with
  | expr h as t => cases basic
  | number n => cases n <;> rfl
  | null | bool _ | text _ | symbol _ => rfl
  | tuple _ | list _ | set _ | table _ | bindings _ => cases element

/-- Equal elements whose atoms in corresponding places are of one kind. -/
structure Indiscernible (v w : Value) : Prop where
  left : v.Definite
  right : w.Definite
  same : v.same w = true
  kinds : v.sameKinds w = true

theorem forall₂_indiscernible {as bs : List Value} (left : ∀ a ∈ as, a.Definite) (right : ∀ b ∈ bs, b.Definite)
    (same : sameItems as bs = true) (kinds : sameKindsAll as bs = true) : List.Forall₂ Indiscernible as bs := by
  induction as generalizing bs with
  | nil =>
    cases bs with
    | nil => exact .nil
    | cons b bs => simp [sameItems] at same
  | cons a as ih =>
    cases bs with
    | nil => simp [sameItems] at same
    | cons b bs =>
      simp only [sameItems, sameKindsAll, Bool.and_eq_true, List.forall_mem_cons] at same kinds left right
      exact .cons ⟨left.1, right.1, same.1, kinds.1⟩ (ih left.2 right.2 same.2 kinds.2)

namespace Indiscernible

variable {v w h k : Value} {as bs : List Value} {t : SymbolSet}

/-- An expression and its counterpart have counterparts as heads and as arguments. -/
theorem parts (paired : Indiscernible (.expr h as t) w) :
    ∃ k bs, w = .expr k bs t ∧ Indiscernible h k ∧ List.Forall₂ Indiscernible as bs := by
  obtain ⟨left, right, same, kinds⟩ := paired
  cases w with
  | expr k bs u =>
    simp only [Value.same, sameKinds, Bool.and_eq_true, beq_iff_eq] at same kinds
    obtain ⟨⟨sameHead, sameArgs⟩, rfl⟩ := same
    refine ⟨k, bs, rfl, ⟨left.parts.1, right.parts.1, sameHead, kinds.1⟩, ?_⟩
    exact forall₂_indiscernible left.parts.2 right.parts.2 sameArgs kinds.2
  | _ => simp [Value.same] at same

theorem items (paired : List.Forall₂ Indiscernible as bs) : Indiscernible (ofItems as) (ofItems bs) := by
  have rows : (∀ a ∈ as, a.Definite) ∧ (∀ b ∈ bs, b.Definite) ∧ sameItems as bs = true ∧
      sameKindsAll as bs = true := by
    induction paired with
    | nil => simp [sameItems, sameKindsAll]
    | cons here _ ih =>
      obtain ⟨left, right, same, kinds⟩ := ih
      simp only [List.forall_mem_cons, sameItems, sameKindsAll, Bool.and_eq_true]
      exact ⟨⟨here.left, left⟩, ⟨here.right, right⟩, ⟨here.same, same⟩, here.kinds, kinds⟩
  obtain ⟨left, right, same, kinds⟩ := rows
  refine ⟨.ofItems left, .ofItems right, ?_, ?_⟩
  · simp [Value.same, same]
  · simp [sameKinds, kinds, kind]

theorem isExpr (paired : Indiscernible v w) : w.isExpr = v.isExpr := by
  obtain ⟨-, -, same, -⟩ := paired
  cases v <;> cases w <;> first | rfl | simp [Value.same, number?] at same

theorem same_right (paired : Indiscernible v w) (u : Value) : u.same v = u.same w := by
  have element := paired.left.element
  have elementToo := paired.right.element
  have back := (same_symm elementToo paired.same).1
  rw [Bool.eq_iff_iff]
  constructor
  · intro same
    obtain ⟨turned, isElement⟩ := same_symm element same
    exact same_of_same isElement turned paired.same
  · intro same
    obtain ⟨turned, isElement⟩ := same_symm elementToo same
    exact same_of_same isElement turned back

theorem same_left (paired : Indiscernible v w) (u : Value) : v.same u = w.same u := by
  have back := (same_symm paired.right.element paired.same).1
  rw [Bool.eq_iff_iff]
  exact ⟨fun same => same_of_same paired.right.element paired.same same,
    fun same => same_of_same paired.left.element back same⟩

theorem equal_right (paired : Indiscernible v w) (u : Value) : u.equal v = u.equal w := by
  rw [equal_eq, equal_eq, paired.same_right]

theorem equal_left (paired : Indiscernible v w) (u : Value) : v.equal u = w.equal u := by
  rw [equal_eq, equal_eq, paired.same_left, paired.left.isNaN, paired.right.isNaN]

theorem kind_eq (paired : Indiscernible v w) : v.kind = w.kind := by
  cases v with
  | expr h as t =>
    obtain ⟨k, bs, rfl, -⟩ := paired.parts
    rfl
  | _ =>
    have kinds := paired.kinds
    unfold sameKinds at kinds
    exact of_decide_eq_true kinds

theorem headOf (paired : Indiscernible v w) :
    ∃ h k, v.headOf = .ok h ∧ w.headOf = .ok k ∧ h.equal k = true ∧ ∀ u, h.equal u = k.equal u := by
  have sameExpr := paired.isExpr
  cases basic : v.isExpr with
  | true =>
    cases v with
    | expr h as t =>
      obtain ⟨k, bs, rfl, head, -⟩ := paired.parts
      exact ⟨h, k, rfl, rfl, equal_of_same head.left.free head.same, head.equal_left⟩
    | _ => cases basic
  | false =>
    refine ⟨_, _, headOf_basic paired.left.element basic, ?_, equal_self rfl, fun _ => rfl⟩
    rw [paired.kind_eq]
    exact headOf_basic paired.right.element (sameExpr.trans basic)

theorem isWritable (paired : Indiscernible v w) : v.isWritable = w.isWritable := by
  induction v using byParts generalizing w with
  | expr h as t ihHead ihArgs =>
    obtain ⟨k, bs, rfl, head, args⟩ := paired.parts
    clear paired
    have row : areWritable as = areWritable bs := by
      induction args with
      | nil => rfl
      | cons here _ ih =>
        obtain ⟨first, others⟩ := List.forall_mem_cons.1 ihArgs
        rw [areWritable, areWritable, first here, ih others]
    rw [Value.isWritable, Value.isWritable, ihHead head, row]
  | symbol x => rw [symbol_same_iff.1 paired.same]
  | other v atom =>
    have kinds := paired.kind_eq
    obtain ⟨left, right, same, -⟩ := paired
    have element := left.element
    cases v with
    | number m =>
      cases w with
      | number n =>
        cases m with
        | int m =>
          cases n with
          | int n =>
            simp only [Value.same, number?] at same
            rw [int_eq_of_same same]
          | _ => cases kinds
        | real =>
          cases n with
          | real => rfl
          | _ => cases kinds
        | complex =>
          cases n with
          | complex => rfl
          | _ => cases kinds
      | _ => cases m <;> cases kinds
    | expr h as t => cases atom
    | symbol x => cases atom
    | null | bool _ | text _ =>
      cases w with
      | number n => cases n <;> cases kinds
      | _ => first | rfl | cases kinds
    | _ => cases element

theorem flatten (head : Indiscernible h k) (args : List.Forall₂ Indiscernible as bs) :
    List.Forall₂ Indiscernible (Pattern.flatten h as) (Pattern.flatten k bs) := by
  fun_induction Pattern.flatten h as generalizing bs with
  | case1 =>
    cases args
    exact .nil
  | case2 h g as t xs nests ihInside ihLater =>
    cases args with
    | cons here later =>
      obtain ⟨l, ds, rfl, inner, inside⟩ := here.parts
      have nestsToo : l.equal k = true := by rw [← inner.equal_left, ← head.equal_right, nests]
      rw [Pattern.flatten, if_pos nestsToo]
      exact List.rel_append (ihInside head inside) (ihLater head later)
  | case3 h g as t xs stays ih =>
    cases args with
    | cons here later =>
      obtain ⟨l, ds, rfl, inner, inside⟩ := here.parts
      have staysToo : ¬ l.equal k = true := by rwa [← inner.equal_left, ← head.equal_right]
      rw [Pattern.flatten, if_neg staysToo]
      exact .cons here (ih head later)
  | case4 h x xs other ih =>
    cases args with
    | @cons _ y _ ys here later =>
      have basic : y.isExpr = false := by
        rw [here.isExpr]
        cases x with
        | expr g as t => exact (other g as t rfl).elim
        | _ => rfl
      have stays : Pattern.flatten k (y :: ys) = y :: Pattern.flatten k ys := by
        cases y with
        | expr g as t => cases basic
        | _ => rw [Pattern.flatten]; simp
      rw [stays]
      exact .cons here (ih head later)

end Indiscernible

end Value

namespace Pattern

/-! ### Searches -/

section Search

variable {σ : Type} {b c : Bindings} {v w : Value}

/-- A value and itself, or one that it cannot be told from. Defaults stand in the pattern and are bound as they are. -/
def Akin (v w : Value) : Prop := v = w ∨ Indiscernible v w

/-- Bindings of the same names to values that are alike. -/
def BindsAkin (b c : Bindings) : Prop := ∀ x, Option.Rel Akin (b.get? x) (c.get? x)

theorem bindsAkin_refl (b : Bindings) : BindsAkin b b := by
  intro x
  cases b.get? x with
  | none => exact .none
  | some v => exact .some (.inl rfl)

namespace Akin

theorem equal_right (akin : Akin v w) (u : Value) : u.equal v = u.equal w := by
  rcases akin with rfl | paired
  · rfl
  · exact paired.equal_right u

theorem equal_left (akin : Akin v w) (u : Value) : v.equal u = w.equal u := by
  rcases akin with rfl | paired
  · rfl
  · exact paired.equal_left u

theorem isWritable (akin : Akin v w) : v.isWritable = w.isWritable := by
  rcases akin with rfl | paired
  · rfl
  · exact paired.isWritable

theorem isKey (akin : Akin v w) : v.isKey = w.isKey := by
  rcases akin with rfl | paired
  · rfl
  · rw [isKey_of_isElement paired.left.element, isKey_of_isElement paired.right.element]

end Akin

theorem bindName_akin (fits : BindsAkin b c) (akin : Akin v w) (name : Option Value) :
    Concords (σ := σ) BindsAkin (ofExcept (bindName b name v)) (ofExcept (bindName c name w)) := by
  have failing (e : Error) : Concords (σ := σ) BindsAkin (ofExcept (.error e)) (ofExcept (.error e)) :=
    fun s => .inr ⟨_, s, rfl, rfl⟩
  match name with
  | none => exact Concords.some fits
  | some (.symbol x) =>
    have before := fits x
    simp only [bindName, Bindings.bindValue, Bindings.bind]
    generalize b.get? x = old, c.get? x = other at before
    cases before with
    | @some old other oldAkin =>
      simp only [oldAkin.equal_left v, akin.equal_right other]
      cases other.equal w with
      | true => exact Concords.some fits
      | false =>
        simp only [Bool.false_eq_true, if_false, Bindings.conflict, oldAkin.isWritable, akin.isWritable]
        cases other.isWritable && w.isWritable with
        | true => exact Concords.none
        | false => exact failing _
    | none =>
      simp only [akin.isKey]
      cases w.isKey with
      | true =>
        refine Concords.some fun y => ?_
        rw [Bindings.get_insert, Bindings.get_insert]
        split
        · exact .some akin
        · exact fits y
      | false => exact failing _
  | some .null | some (.bool _) | some (.number _) | some (.text _) | some (.expr ..) | some (.tuple _)
  | some (.list _) | some (.set _) | some (.table _) | some (.bindings _) => exact failing _

theorem skipOptional_akin (fits : BindsAkin b c) (q : Value) (default : Option Value) :
    Concords (σ := σ) BindsAkin (ofExcept (skipOptional b q default)) (ofExcept (skipOptional c q default)) := by
  unfold skipOptional
  repeat' split
  · exact Concords.none
  · exact bindName_akin fits (.inl rfl) _
  · exact Concords.none
  · exact Concords.some fits
  · exact Concords.none

/-- Without an evaluator a search cannot tell indiscernible values apart. -/
theorem counterparts_indiscernible {m : Settings σ} (idle : m.evaluator = none) :
    Counterparts m m id id (fun _ => True) Indiscernible BindsAkin where
  depths := rfl
  patterns := hereditary_true.descends
  shape _ := (Shape.map_id _).symm
  role _ := (Role.map_id _).symm
  hasHead _ _ := rfl
  flatten _ _ := by rw [List.map_id, List.map_id, id]
  expr paired := paired.parts
  isExpr paired := paired.isExpr
  items := Indiscernible.items
  flattened head args := head.flatten args
  equal u := fun paired => paired.equal_right u
  accepts constraint := fun paired => by
    cases constraint with
    | none => rfl
    | some k =>
      obtain ⟨h, l, left, right, -, same⟩ := paired.headOf
      simp only [accepts, left, right]
      exact congrArg Except.ok (same k)
  named _ _ fits paired := by
    rw [Option.map_id, id]
    exact bindName_akin fits (.inr paired) _
  captured _ _ fits paired := by
    rw [Option.map_id, id]
    exact bindName_akin fits (.inr paired) _
  skipped _ _ fits := skipOptional_akin fits _ _
  checked _ _ _ := Concords.idle idle _ _ _ _
  tested _ _ _ _ := Concords.idle idle _ _ _ _

end Search

/-- A pattern matches a value down to a depth, from some bindings, with the attributes that the value is taken to have;
there is no evaluator for conditions and tests. -/
def Succeeds (d : Int) (attrs : Option SymbolSet) (b : Bindings) (p e : Value) : Prop :=
  ∃ c, matchOne (σ := Unit) ⟨none, d⟩ attrs 0 p e b () = .ok (some c) ()

/-- Two values have equal heads and are matched by the same patterns. -/
structure Interchangeable (v w : Value) : Prop where
  heads : ∃ h k, v.headOf = .ok h ∧ w.headOf = .ok k ∧ h.equal k = true
  matched : ∀ d attrs b p, Succeeds d attrs b p v ↔ Succeeds d attrs b p w

theorem interchangeable_of_indiscernible {v w : Value} (paired : Indiscernible v w) : Interchangeable v w where
  heads := by
    obtain ⟨h, k, left, right, same, -⟩ := paired.headOf
    exact ⟨h, k, left, right, same⟩
  matched d attrs b p := by
    have counterparts := counterparts_indiscernible (m := (⟨none, d⟩ : Settings Unit)) rfl
    have search := counterparts.matching.1 attrs 0 p v b trivial w b paired (bindsAkin_refl b) ()
    rw [id] at search
    unfold Succeeds
    rcases search with ⟨found, other, _, left, right, related⟩ | ⟨h, _, left, right⟩
    · rw [left, right]
      cases related with
      | none => simp
      | some _ => simp
    · rw [left, right]

/-! ### Outlines -/

/-- Whether a value has no attribute that moves its arguments out of their places. -/
def keepsPlaces (v : Value) : Bool :=
  !v.attributes.contains Attribute.flat && !v.attributes.contains Attribute.orderless

mutual

/-- The pattern that asks of the atoms and symbols in a value for what heads they have, and for nothing else. -/
def outline : Value → Value
  | .expr h as _ => .expr (outline h) (outlines as) .empty
  | v => call "Blank" [sym v.kind.headName]

def outlines : List Value → List Value
  | [] => []
  | v :: vs => outline v :: outlines vs

end

/-- The head of an outline is never a symbol, so an outline is matched part by part. -/
theorem outline_expr (v : Value) : ∃ h as, outline v = .expr h as .empty := by
  cases v <;> exact ⟨_, _, rfl⟩

section Outlines

variable {σ : Type} {m : Settings σ} {depth : Nat} {v w : Value} {as es : List Value}

theorem shape_outline (h : Value) (as : List Value) (t : SymbolSet) :
    shape (unwrapHold (outline (.expr h as t))) = .compound (outline h) (outlines as) := by
  obtain ⟨g, bs, form⟩ := outline_expr h
  rw [outline, form]
  rfl

theorem role_outline (v : Value) : role (outline v) = .single := by
  cases v with
  | expr h as t =>
    obtain ⟨g, bs, form⟩ := outline_expr h
    rw [outline, form]
    rfl
  | _ => rfl

/-- Equal values that are no expressions are of one kind if their heads are equal. -/
theorem equal_headName (same : v.same w = true) (basic : v.isExpr = false) :
    (sym w.kind.headName).equal (sym v.kind.headName) = v.sameKinds w := by
  have names : (sym w.kind.headName).equal (sym v.kind.headName) = decide (w.kind.headName = v.kind.headName) := by
    rw [Bool.eq_iff_iff, decide_eq_true_eq]
    simp [Value.equal, number?, Value.same]
  have kinds : v.sameKinds w = decide (v.kind = w.kind) := by
    cases v with
    | expr h as t => cases basic
    | _ => rw [sameKinds]; simp
  rw [names, kinds]
  cases v with
  | expr h as t => cases basic
  | bool a =>
    cases w with
    | bool b => rfl
    | number n => cases n <;> rfl
    | _ => simp [Value.same, number?] at same
  | number m =>
    cases w with
    | bool b => cases m <;> rfl
    | number n => cases m <;> cases n <;> rfl
    | _ => simp [Value.same, number?] at same
  | _ => cases w <;> first | rfl | simp [Value.same] at same

/-- The outline of a value matches, of the elements that the value is the same as, those with atoms of its kinds. -/
def Outlines (m : Settings σ) (v : Value) : Prop :=
  ∀ (w : Value) (depth : Nat) (b : Bindings), w.isElement = true → v.same w = true →
    (depth + weight (outline v) : Int) ≤ m.maxDepth →
    matchOne m none depth (outline v) w b = pure (if v.sameKinds w then some b else none)

theorem outlines_basic (m : Settings σ) (basic : v.isExpr = false) : Outlines m v := by
  intro w depth b element same within
  have form : outline v = call "Blank" [sym v.kind.headName] := by
    cases v with
    | expr h as t => cases basic
    | _ => rfl
  have basicToo : w.isExpr = false := by
    cases w with
    | expr k es t =>
      obtain ⟨_, _, rfl, _⟩ := same_expr same
      cases basic
    | _ => rfl
  have accepted : accepts (some (sym v.kind.headName)) w = .ok (v.sameKinds w) := by
    rw [accepts, headOf_basic element basicToo, ← equal_headName same basic]
    rfl
  have blank : shape (unwrapHold (call "Blank" [sym v.kind.headName])) = .blank (some (sym v.kind.headName)) := rfl
  rw [form, matchOne_of_shape blank, matchShape, if_neg (by omega), accepted]
  rfl

theorem outlines_row (each : ∀ a ∈ as, Outlines m a) (elements : ∀ e ∈ es, e.isElement = true)
    (same : sameItems as es = true) (within : (depth + weights (outlines as) + 1 : Int) ≤ m.maxDepth) (b : Bindings) :
    matchMany m false false depth (outlines as) es b = pure (if sameKindsAll as es then [b] else []) := by
  induction as generalizing es depth with
  | nil =>
    cases es with
    | nil =>
      rw [outlines, matchMany.eq_def]
      rfl
    | cons e es => simp [sameItems] at same
  | cons a as ih =>
    cases es with
    | nil => simp [sameItems] at same
    | cons e es =>
      obtain ⟨here, later⟩ := List.forall_mem_cons.1 each
      obtain ⟨element, others⟩ := List.forall_mem_cons.1 elements
      simp only [sameItems, Bool.and_eq_true] at same
      simp only [outlines, weights] at within
      have positive := weight_pos (outline a)
      have first := here e (depth + 1) b element same.1 (by omega)
      rw [outlines, matchMany_single (role_outline a)]
      rcases Bool.eq_false_or_eq_true (a.sameKinds e) with alike | other
      · simp only [first, sameKindsAll, alike, if_true, pure_bind, Bool.true_and]
        exact ih later others same.2 (by omega)
      · simp only [first, sameKindsAll, other, Bool.false_eq_true, if_false, pure_bind, Bool.false_and]

theorem outlines_of_keepsPlaces (m : Settings σ) (places : v.everywhere keepsPlaces = true) : Outlines m v := by
  induction v using byParts with
  | expr h as t ihHead ihArgs =>
    obtain ⟨here, headPlaces, argPlaces⟩ := everywhere_expr.1 places
    simp only [keepsPlaces, attributes, Bool.and_eq_true, Bool.not_eq_true'] at here
    intro w depth b element same within
    cases w with
    | expr k es u =>
      simp only [Value.same, Bool.and_eq_true, beq_iff_eq] at same
      obtain ⟨⟨sameHead, sameArgs⟩, rfl⟩ := same
      obtain ⟨_, headElement, elements⟩ := everywhere_expr.1 element
      have positive := weight_pos (outline h)
      simp only [outline, weight] at within
      have head := ihHead headPlaces k (depth + 1) b headElement sameHead (by omega)
      have row : matchMany m false false (depth + 1) (outlines as) es b = _ :=
        outlines_row (fun a member => ihArgs a member (argPlaces a member)) elements sameArgs (by omega) b
      rw [matchOne_of_shape (shape_outline h as t), matchShape, if_neg (by omega)]
      simp only [Option.getD_none, here.1, here.2, Bool.false_eq_true, if_false]
      rcases Bool.eq_false_or_eq_true (h.sameKinds k) with alike | other
      · simp only [head, sameKinds, alike, if_true, pure_bind, row, Bool.true_and]
        rw [apply_ite List.head?]
        rfl
      · simp only [head, sameKinds, other, Bool.false_eq_true, if_false, pure_bind, Bool.false_and]
    | _ => simp [Value.same] at same
  | symbol x => exact outlines_basic m rfl
  | other v atom =>
    refine outlines_basic m ?_
    cases v with
    | expr h as t => cases atom
    | _ => rfl

end Outlines

section Converse

variable {v w : Value}

theorem sameKinds_self (v : Value) : v.sameKinds v = true := by
  induction v using byParts with
  | expr h as t ihHead ihArgs =>
    have row : sameKindsAll as as = true := by
      induction as with
      | nil => rfl
      | cons a as ih =>
        obtain ⟨first, others⟩ := List.forall_mem_cons.1 ihArgs
        rw [sameKindsAll, first, ih others]
        rfl
    rw [sameKinds, ihHead, row]
    rfl
  | symbol x => rfl
  | other v atom =>
    cases v with
    | expr h as t => cases atom
    | _ => simp [sameKinds]

/-- If no attribute moves arguments out of their places, an outline tells values with atoms of different kinds apart. -/
theorem sameKinds_of_interchangeable (left : v.isElement = true) (right : w.isElement = true) (same : v.same w = true)
    (places : v.everywhere keepsPlaces = true) (interchangeable : Interchangeable v w) : v.sameKinds w = true := by
  have told := outlines_of_keepsPlaces (⟨none, weight (outline v)⟩ : Settings Unit) places
  have own : Succeeds (weight (outline v)) none .empty (outline v) v := by
    refine ⟨.empty, ?_⟩
    rw [told v 0 .empty left (same_refl v) (by simp), sameKinds_self]
    rfl
  obtain ⟨c, found⟩ := (interchangeable.matched _ _ _ _).1 own
  rw [told w 0 .empty right same (by simp)] at found
  by_contra other
  rw [if_neg other] at found
  cases found

end Converse

end Pattern

/-! ### The test for sameness -/

section Sameness

variable {s : Session} {c : ContextId} {k j m : Nat} {v w : Value}

/-- Of values that come to themselves, the test for sameness tells whether they are equal. -/
theorem comes_sameness (standard : s.registry = Builtin.standard) (silent : s.Silent c "SameQ")
    (single : ∀ a ∈ [v, w], a.argsOf? "Sequence" = none) (left : s.Comes c k j v (.ok v))
    (right : s.Comes c k m w (.ok w)) :
    s.Comes c (k + 1) (j + m + (j + m + 1)) (call "SameQ" [v, w]) (.ok (.bool (v.equal w))) := by
  have provides : s.Provides c "SameQ" .sameQ := ⟨⟨rfl, by decide⟩, standard, silent⟩
  have args : s.Suffices (k + 1) (j + m) (fun n => evaluateAll (evaluate n) c [v, w]) (.ok [v, w]) :=
    left.cons (right.cons (m := 0) (.pure []))
  have arranged : arrange (markings "SameQ") (call "SameQ" (settled [v, w] [v, w])) = .ok (call "SameQ" [v, w]) := by
    rw [settled_self, arrange_spliced (by decide), inline_of_flat single]
  have listable : (markings "SameQ").contains Attribute.listable = false := by decide
  refine comes_of_row provides (args.bind ?_)
  rw [arranged]
  have told : s.Suffices (k + 1) (j + m + 1)
      (fun n => Comparison.sameness (evaluate n) c (call "SameQ" [v, w]) [v, w] >>=
        again (evaluate n) c (call "SameQ" [v, w])) (.ok (.bool (v.equal w))) := by
    have run : s.Suffices (k + 1) (j + (m + 0))
        (fun n => Comparison.sameness (evaluate n) c (call "SameQ" [v, w]) [v, w]) (.ok (.bool (v.equal w))) :=
      left.nested.bind (right.nested.bind (.pure _))
    refine run.bind (m := 1 + 0) ?_
    have new : (Value.bool (v.equal w)).differs (call "SameQ" [v, w]) = true := differs_of_basic rfl
    have rests : s.Comes c k 0 (.bool (v.equal w)) (.ok (.bool (v.equal w))) :=
      (comes_atom rfl).mono (Nat.zero_le k) (Nat.le_refl 0)
    simp only [again_new new]
    exact Suffices.count.bind rests.nested
  intro n d i inner levels replacements
  obtain ⟨i', bound, ran⟩ := told n d i inner levels replacements
  refine ⟨i', bound, ?_⟩
  rw [← ran]
  exact evaluateArranged_undefined (s := s.recount d i) .sameQ standard provides.named
    (silent.toUndefined.of_contents rfl rfl) listable

/-- Of two elements without a NaN that come to themselves, the test for sameness tells whether they are equal. Equal
ones have equal heads and are matched by the same patterns, if their atoms in corresponding places are of one kind;
and, where no attribute moves arguments out of their places, only then. -/
theorem equal_interchangeable (left : v.Definite) (right : w.Definite) :
    (∀ (s : Session) (c : ContextId) (k j m : Nat), s.registry = Builtin.standard → s.Silent c "SameQ" →
      (∀ a ∈ [v, w], a.argsOf? "Sequence" = none) → s.Comes c k j v (.ok v) → s.Comes c k m w (.ok w) →
      s.Comes c (k + 1) (j + m + (j + m + 1)) (call "SameQ" [v, w]) (.ok (.bool (v.equal w)))) ∧
    (v.equal w = true → v.sameKinds w = true → Pattern.Interchangeable v w) ∧
    (v.equal w = true → v.everywhere Pattern.keepsPlaces = true →
      (Pattern.Interchangeable v w ↔ v.sameKinds w = true)) := by
  have sufficient (equal : v.equal w = true) (kinds : v.sameKinds w = true) : Pattern.Interchangeable v w :=
    Pattern.interchangeable_of_indiscernible ⟨left, right, same_of_equal equal, kinds⟩
  refine ⟨fun s c k j m standard silent single first second => ?_, sufficient, fun equal places => ?_⟩
  · exact comes_sameness standard silent single first second
  · refine ⟨fun interchangeable => ?_, sufficient equal⟩
    exact Pattern.sameKinds_of_interchangeable left.element right.element (same_of_equal equal) places interchangeable

/-- A call that only the sign of a zero tells from another. -/
theorem interchangeable_zeros :
    let v := call "f" [real 0.0, int 1]
    let w := call "f" [real (-0.0), int 1]
    v.Definite ∧ w.Definite ∧ v.equal w = true ∧ v.sameKinds w = true ∧ Pattern.Interchangeable v w := by
  intro v w
  have facts : v.isElement = true ∧ v.isNaNFree = true ∧ w.isElement = true ∧ w.isNaNFree = true ∧
      v.equal w = true ∧ v.sameKinds w = true := by decide +kernel
  obtain ⟨element, free, elementToo, freeToo, equal, kinds⟩ := facts
  refine ⟨⟨element, free⟩, ⟨elementToo, freeToo⟩, equal, kinds, ?_⟩
  exact (equal_interchangeable ⟨element, free⟩ ⟨elementToo, freeToo⟩).2.1 equal kinds

/-- The integer one and the real one are equal, but have different heads, which a blank asks for. -/
theorem one_discerned :
    (int 1).Definite ∧ (real 1.0).Definite ∧ (int 1).equal (real 1.0) = true ∧
      (int 1).headOf = .ok (sym "Integer") ∧ (real 1.0).headOf = .ok (sym "Real") ∧
      (sym "Integer").equal (sym "Real") = false ∧
      Pattern.Succeeds Pattern.defaultDepth none .empty (call "Blank" [sym "Integer"]) (int 1) ∧
      ¬ Pattern.Succeeds Pattern.defaultDepth none .empty (call "Blank" [sym "Integer"]) (real 1.0) := by
  have facts : (int 1).isElement = true ∧ (int 1).isNaNFree = true ∧ (real 1.0).isElement = true ∧
      (real 1.0).isNaNFree = true ∧ (int 1).equal (real 1.0) = true ∧ (sym "Integer").equal (sym "Real") = false := by
    decide +kernel
  obtain ⟨element, free, elementToo, freeToo, equal, other⟩ := facts
  have told : Pattern.Outlines (⟨none, Pattern.defaultDepth⟩ : Pattern.Settings Unit) (int 1) :=
    Pattern.outlines_basic _ rfl
  refine ⟨⟨element, free⟩, ⟨elementToo, freeToo⟩, equal, rfl, rfl, other, ⟨.empty, ?_⟩, ?_⟩
  · exact congrFun (told (int 1) 0 .empty element (same_refl _) (by decide)) ()
  · rintro ⟨b, found⟩
    cases found.symm.trans (congrFun (told (real 1.0) 0 .empty elementToo (same_of_equal equal) (by decide)) ())

end Sameness

end Symbolic
