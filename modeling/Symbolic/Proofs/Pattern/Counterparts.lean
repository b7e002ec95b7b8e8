import Mathlib.Data.List.Forall2
import Symbolic.Proofs.Pattern.Places
import Symbolic.Proofs.Pattern.Quiet
import Symbolic.Proofs.Pattern.Steps

/-!
Two searches side by side. Patterns are changed in such a way that their shapes and roles stay what they are, up to
names and inner patterns; values and bindings have counterparts, which no comparison and no blank tells apart. Then
matching the changed patterns against the counterparts goes the same way, and finds the counterparts of what
was found (`Counterparts.matching`). The search itself is gone through here once; what the counterparts
are is left to those who use it.
-/
namespace Symbolic

namespace Step

variable {σ α β γ δ : Type} {R : α → β → Prop} {S : γ → δ → Prop}

/-- Two computations that go the same way: from every state both end in one state, with the same failure or with
results that are related. -/
def Twins (R : α → β → Prop) (x : Step σ α) (y : Step σ β) : Prop :=
  ∀ s, (∃ a b t, x s = .ok a t ∧ y s = .ok b t ∧ R a b) ∨ ∃ h t, x s = .error h t ∧ y s = .error h t

theorem Twins.pure {a : α} {b : β} (related : R a b) : Twins (σ := σ) R (pure a) (Pure.pure b) :=
  fun s => .inl ⟨a, b, s, rfl, rfl, related⟩

theorem Twins.self (x : Step σ α) : Twins Eq x x := by
  intro s
  cases run : x s with
  | ok a t => exact .inl ⟨a, a, t, rfl, rfl, rfl⟩
  | error h t => exact .inr ⟨h, t, rfl, rfl⟩

theorem Twins.bind {x : Step σ α} {y : Step σ β} {k : α → Step σ γ} {l : β → Step σ δ} (first : Twins R x y)
    (next : ∀ a b, R a b → Twins S (k a) (l b)) : Twins S (x >>= k) (y >>= l) := by
  intro s
  rcases first s with ⟨a, b, t, left, right, related⟩ | ⟨h, t, left, right⟩
  · rw [bind_of_ok left, bind_of_ok right]
    exact next a b related t
  · rw [bind_of_error left, bind_of_error right]
    exact .inr ⟨h, t, rfl, rfl⟩

end Step

namespace Pattern

open Value Step

/-- The shape of a pattern with another name and with other inner patterns. What values are compared
with, and the tests, are the same. -/
def Shape.map (ν φ : Value → Value) : Shape → Shape
  | .verbatim v => .verbatim v
  | .blank c => .blank c
  | .named name inner => .named (name.map ν) (inner.map φ)
  | .condition inner check => .condition (inner.map φ) check
  | .alternatives ps => .alternatives (ps.map φ)
  | .test parts => .test (parts.map fun p => (φ p.1, p.2))
  | .except x q => .except (x.map φ) (q.map φ)
  | .repeated q => .repeated (q.map φ)
  | .repeatedNull q => .repeatedNull (q.map φ)
  | .literal v => .literal v
  | .compound h as => .compound (φ h) (as.map φ)
  | .foreign => .foreign

/-- The role of a pattern with another name and with another inner pattern. -/
def Role.map (ν φ : Value → Value) : Role → Role
  | .optional inner default => .optional (inner.map φ) default
  | .segment name n c => .segment (name.map ν) n c
  | .repeated inner n => .repeated (inner.map φ) n
  | .single => .single

theorem Shape.map_id (s : Shape) : s.map id id = s := by
  cases s <;> simp [Shape.map]

theorem Role.map_id (r : Role) : r.map id id = r := by
  cases r <;> simp [Role.map]

section Search

variable {σ α β : Type} {B : Bindings → Bindings → Prop} {Q : α → β → Prop}

/-- Two searches for one match that find counterparts. -/
abbrev Concords (B : Bindings → Bindings → Prop) : (x y : Step σ (Option Bindings)) → Prop := Twins (Option.Rel B)

abbrev ConcordsAll (B : Bindings → Bindings → Prop) : (x y : Step σ (List Bindings)) → Prop := Twins (List.Forall₂ B)

theorem Concords.none : Concords (σ := σ) B (pure .none) (pure .none) := .pure .none

theorem Concords.some {b c : Bindings} (fits : B b c) : Concords (σ := σ) B (pure (.some b)) (pure (.some c)) :=
  .pure (.some fits)

theorem Concords.chosen {b c : Bindings} (fits : B b c) {test check : Bool} (same : test = check) :
    Concords (σ := σ) B (pure (if test then .some b else .none)) (pure (if check then .some c else .none)) := by
  subst same
  cases test with
  | false => exact .none
  | true => exact .some fits

theorem Concords.self (x : Step σ (Option Bindings)) : Concords Eq x x := by
  intro s
  cases run : x s with
  | error h t => exact .inr ⟨h, t, rfl, rfl⟩
  | ok found t =>
    refine .inl ⟨found, found, t, rfl, rfl, ?_⟩
    cases found with
    | none => exact .none
    | some c => exact .some rfl

theorem Concords.eq {x y : Step σ (Option Bindings)} (same : Concords Eq x y) : x = y := by
  funext s
  rcases same s with ⟨_, _, t, left, right, related⟩ | ⟨h, t, left, right⟩
  · rw [left, right]
    cases related with
    | none => rfl
    | some fits => rw [fits]
  · rw [left, right]

theorem ConcordsAll.nil : ConcordsAll (σ := σ) B (pure []) (pure []) := .pure .nil

theorem Concords.option {γ δ : Type} {S : γ → δ → Prop} {x y : Step σ (Option Bindings)} {k : Option Bindings → Step σ γ}
    {l : Option Bindings → Step σ δ} (first : Concords B x y) (absent : Twins S (k .none) (l .none))
    (found : ∀ c d, B c d → Twins S (k (.some c)) (l (.some d))) : Twins S (x >>= k) (y >>= l) := by
  refine first.bind fun r q related => ?_
  cases related with
  | none => exact absent
  | some fits => exact found _ _ fits

theorem isEmpty_of_forall₂ {xs : List α} {ys : List β} (related : List.Forall₂ Q xs ys) : ys.isEmpty = xs.isEmpty := by
  cases related <;> rfl

theorem ConcordsAll.first {x y : Step σ (List Bindings)} (search : ConcordsAll B x y) :
    Concords B (do return (← x).head?) (do return (← y).head?) := by
  refine search.bind fun found others related => ?_
  cases related with
  | nil => exact Concords.none
  | cons fits _ => exact Concords.some fits

theorem collect_twins {all : Bool} {k : α → Step σ (List Bindings)} {l : β → Step σ (List Bindings)} {xs : List α}
    {ys : List β} (paired : List.Forall₂ Q xs ys) (each : ∀ x y, Q x y → ConcordsAll B (k x) (l y)) :
    ConcordsAll B (collect all k xs) (collect all l ys) := by
  induction paired with
  | nil => exact .nil
  | cons here _ ih =>
    refine (each _ _ here).bind fun found others fits => ?_
    rw [isEmpty_of_forall₂ fits]
    split
    · exact .pure fits
    · exact ih.bind fun more rest fitsToo => .pure (List.rel_append fits fitsToo)

theorem firstOf_twins {k : α → Step σ (Option Bindings)} {l : β → Step σ (Option Bindings)} {φ : α → β} {xs : List α}
    (each : ∀ x ∈ xs, Concords B (k x) (l (φ x))) : Concords B (firstOf k xs) (firstOf l (xs.map φ)) := by
  induction xs with
  | nil => exact .none
  | cons x xs ih =>
    refine (each x (List.mem_cons_self ..)).option ?_ fun c d fits => Concords.some fits
    exact ih fun y member => each y (List.mem_cons_of_mem x member)

theorem threadAll_twins {k : α → Bindings → Step σ (Option Bindings)} {l : β → Bindings → Step σ (Option Bindings)}
    {xs : List α} {ys : List β} (paired : List.Forall₂ Q xs ys)
    (each : ∀ x y c d, Q x y → B c d → Concords B (k x c) (l y d)) {b c : Bindings} (fits : B b c) :
    Concords B (threadAll k xs b) (threadAll l ys c) := by
  induction paired generalizing b c with
  | nil => exact .some fits
  | cons here _ ih => exact (each _ _ b c here fits).option Concords.none fun _ _ fitsToo => ih fitsToo

theorem Concords.idle {m : Settings σ} (idle : m.evaluator = Option.none) (test other : Except Error Value)
    (b c : Bindings) : Concords B (runTest m test b) (runTest m other c) := by
  rw [runTest, runTest, idle]
  exact Concords.none

variable {V : Value → Value → Prop} {es fs : List Value}

theorem cuts_paired (paired : List.Forall₂ V es fs) (atLeast rest : Nat) :
    List.Forall₂ (fun c d => List.Forall₂ V c.1 d.1 ∧ List.Forall₂ V c.2 d.2) (cuts atLeast rest es)
      (cuts atLeast rest fs) := by
  rw [cuts, cuts, paired.length_eq, List.forall₂_map_left_iff, List.forall₂_map_right_iff]
  refine List.forall₂_same.2 fun n _ => ⟨?_, ?_⟩
  · exact List.forall₂_take n paired
  · exact List.forall₂_drop n paired

theorem picks_paired (paired : List.Forall₂ V es fs) :
    List.Forall₂ (fun c d => V c.1 d.1 ∧ List.Forall₂ V c.2 d.2) (picks es) (picks fs) := by
  induction paired with
  | nil => exact .nil
  | cons here later ih =>
    refine .cons ⟨here, later⟩ ?_
    rw [List.forall₂_map_left_iff, List.forall₂_map_right_iff]
    exact ih.imp fun c d related => ⟨related.1, .cons here related.2⟩

end Search

/-- A change of patterns and counterparts of values and of bindings that matching goes along with, for
patterns that are fit for the change. -/
structure Counterparts {σ : Type} (m n : Settings σ) (ν φ : Value → Value) (W : Value → Prop)
    (V : Value → Value → Prop) (B : Bindings → Bindings → Prop) : Prop where
  depths : n.maxDepth = m.maxDepth
  patterns : Descends W
  shape {p : Value} (fit : W p) : shape (unwrapHold (φ p)) = (shape (unwrapHold p)).map ν φ
  role {p : Value} (fit : W p) : role (φ p) = (role p).map ν φ
  hasHead {p : Value} (fit : W p) (name : String) : (φ p).hasHead name = p.hasHead name
  flatten {p h : Value} {as : List Value} (fit : W p) (form : Pattern.shape (unwrapHold p) = .compound h as) :
    Pattern.flatten (φ h) (as.map φ) = (Pattern.flatten h as).map φ
  /-- The counterpart of an expression is an expression of counterparts. -/
  expr {h v : Value} {as : List Value} {t : SymbolSet} (paired : V (.expr h as t) v) :
    ∃ k bs, v = .expr k bs t ∧ V h k ∧ List.Forall₂ V as bs
  isExpr {v w : Value} (paired : V v w) : w.isExpr = v.isExpr
  items {es fs : List Value} (paired : List.Forall₂ V es fs) : V (ofItems es) (ofItems fs)
  flattened {h k : Value} {as bs : List Value} (head : V h k) (args : List.Forall₂ V as bs) :
    List.Forall₂ V (Pattern.flatten h as) (Pattern.flatten k bs)
  /-- No comparison with a value tells counterparts apart. -/
  equal (u : Value) {v w : Value} (paired : V v w) : u.equal v = u.equal w
  /-- Nor does a blank. -/
  accepts (c : Option Value) {v w : Value} (paired : V v w) : Pattern.accepts c v = Pattern.accepts c w
  /-- Binding the name of a pattern comes to the same. -/
  named {p v w : Value} {name inner : Option Value} {b c : Bindings} (fit : W p)
    (form : Pattern.shape (unwrapHold p) = .named name inner) (fits : B b c) (paired : V v w) :
    Concords (σ := σ) B (ofExcept (bindName b name v)) (ofExcept (bindName c (name.map ν) w))
  /-- So does binding the name of a segment. -/
  captured {p v w : Value} {name d : Option Value} {least : Nat} {b c : Bindings} (fit : W p)
    (form : Pattern.role p = .segment name least d) (fits : B b c) (paired : V v w) :
    Concords (σ := σ) B (ofExcept (bindName b name v)) (ofExcept (bindName c (name.map ν) w))
  /-- So does giving a pattern that is left out its default. -/
  skipped {p q : Value} {default : Option Value} {b c : Bindings} (fit : W p)
    (form : Pattern.role p = .optional (some q) default) (fits : B b c) :
    Concords (σ := σ) B (ofExcept (skipOptional b q default)) (ofExcept (skipOptional c (φ q) default))
  /-- A condition, which is told the bindings, comes to the same. -/
  checked {p q t : Value} {b c : Bindings} (fit : W p)
    (form : Pattern.shape (unwrapHold p) = .condition (some q) (some t)) (fits : B b c) :
    Concords B (runTest m (b.substitute t) b) (runTest n (c.substitute t) c)
  tested {p q g v w : Value} {b c : Bindings} (fit : W p) (form : Pattern.shape (unwrapHold p) = .test (some (q, g)))
    (fits : B b c) (paired : V v w) : Concords B (runTest m (g.apply [v]) b) (runTest n (g.apply [w]) c)

namespace Counterparts

variable {σ : Type} {m n : Settings σ} {ν φ : Value → Value} {W : Value → Prop} {V : Value → Value → Prop}
  {B : Bindings → Bindings → Prop} (C : Counterparts m n ν φ W V B)

include C

variable {attrs : Option SymbolSet} {depth : Nat} {p : Value} {s : Shape} {r : Role} {e : Value} {b : Bindings}

theorem matchOne_eq (within : ¬(depth : Int) > m.maxDepth) (fit : W p) (form : Pattern.shape (unwrapHold p) = s) :
    matchOne n attrs depth (φ p) e b = matchShape n attrs depth e b (s.map ν φ) := by
  rw [Pattern.matchOne_eq, C.depths, if_neg within, C.shape fit, form]

theorem matchMany_eq {all orderless : Bool} {rest es : List Value} (fit : W p) (form : Pattern.role p = r) :
    matchMany n all orderless depth ((p :: rest).map φ) es b =
      matchRole n all orderless depth (φ p) (rest.map φ) es b (r.map ν φ) := by
  rw [List.map_cons, Pattern.matchMany_eq, C.role fit, form]

theorem takesNothing (fit : W p) : takesNothing (φ p) = Pattern.takesNothing p := by
  rw [Pattern.takesNothing, Pattern.takesNothing, C.role fit]
  cases Pattern.role p with
  | segment name atLeast constraint => cases atLeast <;> rfl
  | _ => rfl

theorem neededAfterSegment {ps : List Value} (fit : ∀ p ∈ ps, W p) :
    neededAfterSegment (ps.map φ) = Pattern.neededAfterSegment ps := by
  simp only [Pattern.neededAfterSegment, List.filter_map, List.length_map]
  refine congrArg List.length (List.filter_congr fun p member => ?_)
  simp only [Function.comp_apply, C.takesNothing (fit p member)]

theorem needed {ps : List Value} (fit : ∀ p ∈ ps, W p) : needed (ps.map φ) = Pattern.needed ps := by
  simp only [Pattern.needed, List.filter_map, List.length_map]
  refine congrArg List.length (List.filter_congr fun p member => ?_)
  simp only [Function.comp_apply, C.takesNothing (fit p member), C.hasHead (fit p member)]

/-- A blank does not tell rows of counterparts apart. -/
theorem acceptsAll (c : Option Value) {es fs : List Value} (paired : List.Forall₂ V es fs) :
    acceptsAll c es = Pattern.acceptsAll c fs := by
  induction paired with
  | nil => rfl
  | cons here _ ih => rw [Pattern.acceptsAll, Pattern.acceptsAll, C.accepts c here, ih]

/-- Matching changed patterns against counterparts, from counterparts of the bindings, finds the counterparts of
what it finds without the change. -/
theorem matching :
    (∀ attrs depth p e b, W p → ∀ f c, V e f → B b c →
      Concords B (matchOne m attrs depth p e b) (matchOne n attrs depth (φ p) f c)) ∧
    ∀ all orderless depth ps es b, (∀ p ∈ ps, W p) → ∀ fs c, List.Forall₂ V es fs → B b c →
      ConcordsAll B (matchMany m all orderless depth ps es b) (matchMany n all orderless depth (ps.map φ) fs c) := by
  apply matchOne.mutual_induct_unfolding m
    (fun attrs depth p e b x => W p → ∀ f c, V e f → B b c → Concords B x (matchOne n attrs depth (φ p) f c))
    (fun all orderless depth ps es b x => (∀ p ∈ ps, W p) → ∀ fs c, List.Forall₂ V es fs → B b c →
      ConcordsAll B x (matchMany n all orderless depth (ps.map φ) fs c))
  case case1 =>
    intro attrs depth p e b deep fit f c paired fits
    rw [Pattern.matchOne_eq, C.depths, if_pos deep]
    exact .none
  case case2 | case10 | case15 | case17 | case20 =>
    intro attrs depth p e b within form fit f c paired fits
    rw [C.matchOne_eq within fit form]
    exact .none
  case case7 | case12 =>
    intro attrs depth p e b within other form fit f c paired fits
    rw [C.matchOne_eq within fit form]
    exact .none
  case case3 | case19 =>
    intro attrs depth p e b within v form fit f c paired fits
    rw [C.matchOne_eq within fit form]
    exact .chosen fits (C.equal v paired)
  case case4 =>
    intro attrs depth p e b within constraint form fit f c paired fits
    rw [C.matchOne_eq within fit form]
    simp only [Shape.map, matchShape, ← C.accepts constraint paired]
    exact (Twins.self _).bind fun accepted _ same => Concords.chosen fits same
  case case5 =>
    intro attrs depth p e b within name form fit f c paired fits
    rw [C.matchOne_eq within fit form]
    exact C.named fit form fits paired
  case case6 =>
    intro attrs depth p e b within name q form inner fit f c paired fits
    rw [C.matchOne_eq within fit form]
    refine (inner (C.patterns.part fit (by simp [form, Shape.parts])) f c paired fits).option Concords.none
      fun _ _ fitsToo => ?_
    exact C.named fit form fitsToo paired
  case case8 =>
    intro attrs depth p e b within q test form inner fit f c paired fits
    rw [C.matchOne_eq within fit form]
    refine (inner (C.patterns.part fit (by simp [form, Shape.parts])) f c paired fits).option Concords.none
      fun _ _ fitsToo => ?_
    cases test with
    | none => exact Concords.some fitsToo
    | some t => exact C.checked fit form fitsToo
  case case9 =>
    intro attrs depth p e b within ps form choices fit f c paired fits
    rw [C.matchOne_eq within fit form, firstOf_attach (f := fun q => matchOne m none (depth + 1) q e b)]
    refine firstOf_twins fun q member => ?_
    exact choices ⟨q, member⟩ (C.patterns.part fit (by simpa [form, Shape.parts] using member)) f c paired fits
  case case11 =>
    intro attrs depth p e b within q t form inner fit f c paired fits
    rw [C.matchOne_eq within fit form]
    refine (inner (C.patterns.part fit (by simp [form, Shape.parts])) f c paired fits).option Concords.none
      fun _ _ fitsToo => ?_
    exact C.tested fit form fitsToo paired
  case case13 =>
    intro attrs depth p e b within x form excluded fit f c paired fits
    rw [C.matchOne_eq within fit form]
    exact (excluded (C.patterns.part fit (by simp [form, Shape.parts])) f c paired fits).option (Concords.some fits)
      fun _ _ _ => Concords.none
  case case14 =>
    intro attrs depth p e b within x q form excluded inner fit f c paired fits
    rw [C.matchOne_eq within fit form]
    refine (excluded (C.patterns.part fit (by simp [form, Shape.parts])) f c paired fits).option ?_
      fun _ _ _ => Concords.none
    exact inner (C.patterns.part fit (by simp [form, Shape.parts])) f c paired fits
  case case16 =>
    intro attrs depth p e b within q form inner fit f c paired fits
    rw [C.matchOne_eq within fit form]
    exact inner (C.patterns.part fit (by simp [form, Shape.parts])) f c paired fits
  case case18 =>
    intro attrs depth p e b within q form inner fit f c paired fits
    rw [C.matchOne_eq within fit form]
    exact (inner (C.patterns.part fit (by simp [form, Shape.parts])) f c paired fits).option (Concords.some fits)
      fun _ _ fitsToo => Concords.some fitsToo
  case case21 =>
    intro attrs depth p b within h as form k es t head args fit f c paired fits
    have fitArgs : ∀ a ∈ as, W a := fun a member => C.patterns.part fit (by simp [form, Shape.parts, member])
    obtain ⟨l, fs, rfl, headPaired, argsPaired⟩ := C.expr paired
    rw [C.matchOne_eq within fit form]
    refine (head (C.patterns.part fit (by simp [form, Shape.parts])) l c headPaired fits).option Concords.none
      fun b' c' fitsToo => ?_
    have rest := args b'
    simp only [dite_eq_ite] at rest ⊢
    generalize (attrs.getD t).contains Attribute.flat = flat at rest ⊢
    cases flat with
    | false => exact (rest fitArgs fs c' argsPaired fitsToo).first
    | true =>
      rw [if_pos rfl, C.flatten fit form]
      exact (rest (C.patterns.flatten fit form) _ c' (C.flattened headPaired argsPaired) fitsToo).first
  case case22 =>
    intro attrs depth p e b within h as form atom fit f c paired fits
    rw [C.matchOne_eq within fit form]
    have kept := C.isExpr paired
    cases f with
    | expr k fs t =>
      cases e with
      | expr k es t => exact (atom k es t rfl).elim
      | _ => cases kept
    | _ => exact .none
  case case23 =>
    intro all orderless depth es b fit fs c paired fits
    rw [List.map_nil, matchMany.eq_def]
    cases paired with
    | nil => exact .pure (.cons fits .nil)
    | cons _ _ => exact ConcordsAll.nil
  case case24 | case27 =>
    intro all orderless depth es b p rest default form fit fs c paired fits
    rw [C.matchMany_eq (fit p (List.mem_cons_self ..)) form]
    exact .nil
  case case25 =>
    intro all orderless depth es b p rest q default form present absent fit fs c paired fits
    obtain ⟨fitHere, fitRest⟩ := List.forall_mem_cons.1 fit
    have fitInner : W q := C.patterns.inner fitHere (.inl ⟨default, form⟩)
    rw [C.matchMany_eq fitHere form]
    refine (present (List.forall_mem_cons.2 ⟨fitInner, fitRest⟩) fs c paired fits).bind
      fun found others fitsFound => ?_
    rw [isEmpty_of_forall₂ fitsFound]
    split
    · exact .pure fitsFound
    · refine (C.skipped fitHere form fits).option (.pure fitsFound) fun b' c' fitsToo => ?_
      exact (absent b' fitRest fs c' paired fitsToo).bind
        fun more rest fitsMore => .pure (List.rel_append fitsFound fitsMore)
  case case26 =>
    intro all orderless depth es b p rest name atLeast constraint form later fit fs c paired fits
    obtain ⟨fitHere, fitRest⟩ := List.forall_mem_cons.1 fit
    rw [C.matchMany_eq fitHere form]
    simp only [Role.map, matchRole, C.neededAfterSegment fitRest]
    refine collect_twins (cuts_paired paired atLeast _) fun cut other place => ?_
    rw [C.acceptsAll constraint place.1]
    refine (Twins.self _).bind fun accepted _ same => ?_
    subst same
    cases accepted with
    | false => exact ConcordsAll.nil
    | true =>
      exact (C.captured fitHere form fits (C.items place.1)).option ConcordsAll.nil
        fun b' c' fitsToo => later _ b' fitRest _ c' place.2 fitsToo
  case case28 =>
    intro all orderless depth es b p rest q atLeast form inner later fit fs c paired fits
    obtain ⟨fitHere, fitRest⟩ := List.forall_mem_cons.1 fit
    have fitInner : W q := C.patterns.inner fitHere (.inr ⟨atLeast, form⟩)
    rw [C.matchMany_eq fitHere form]
    simp only [Role.map, Option.map_some, matchRole, C.needed fitRest]
    refine collect_twins (cuts_paired paired atLeast _) fun cut other place => ?_
    exact (threadAll_twins place.1 (fun e f b' c' here fitsToo => inner e b' fitInner f c' here fitsToo) fits).option
      ConcordsAll.nil fun b' c' fitsToo => later _ b' fitRest _ c' place.2 fitsToo
  case case29 =>
    intro all orderless depth b p rest form fit fs c paired fits
    rw [C.matchMany_eq (fit p (List.mem_cons_self ..)) form]
    cases paired
    exact .nil
  case case30 =>
    intro all depth b p rest form e es inner later fit fs c paired fits
    obtain ⟨fitHere, fitRest⟩ := List.forall_mem_cons.1 fit
    rw [C.matchMany_eq fitHere form]
    cases paired with
    | cons here rest =>
      simp only [Role.map, matchRole, if_true]
      refine collect_twins (picks_paired (.cons here rest)) fun pick other place => ?_
      exact (inner _ fitHere _ c place.1 fits).option ConcordsAll.nil
        fun b' c' fitsToo => later _ b' fitRest _ c' place.2 fitsToo
  case case31 =>
    intro all orderless depth b p rest form e es ordered inner later fit fs c paired fits
    obtain ⟨fitHere, fitRest⟩ := List.forall_mem_cons.1 fit
    rw [C.matchMany_eq fitHere form]
    cases paired with
    | cons here rest =>
      simp only [Role.map, matchRole]
      rw [if_neg ordered]
      exact (inner fitHere _ c here fits).option ConcordsAll.nil fun b' c' fitsToo => later b' fitRest _ c' rest fitsToo

end Counterparts

end Pattern
end Symbolic
