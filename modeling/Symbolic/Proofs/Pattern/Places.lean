import Symbolic.Pattern.Matching
import Symbolic.Proofs.Elements

/-!
Where things stand in a pattern: what its shape and its role say about its head, and which of its
arguments they take. A property that passes from an expression to its head and its arguments
passes from a pattern to everything that is matched on its way.
-/
namespace Symbolic.Pattern

open Value

/-- The inner pattern or the name that a role has. -/
def Role.parts : Role → List Value
  | .optional inner _ | .repeated inner _ => inner.toList
  | .segment name _ _ => name.toList
  | .single => []

/-- What a shape tells about the pattern that it is read from. -/
def Shape.Tells (p : Value) : Shape → Prop
  | .condition .. => p.hasHead "Condition" = true
  | .test _ => p.hasHead "PatternTest" = true
  | .alternatives _ => p.hasHead "Alternatives" = true
  | .except .. => p.hasHead "Except" = true
  | .repeated _ => p.hasHead "Repeated" = true
  | .repeatedNull _ => p.hasHead "RepeatedNull" = true
  | .named name _ => p.hasHead "Pattern" = true ∧ name = first? p.args
  | .compound h as => h ≠ sym "Pattern" ∧ ∃ t, p = .expr h as t
  | .verbatim _ | .blank _ | .literal _ | .foreign => True

theorem tells_shape (p : Value) : (shape p).Tells p := by
  cases p with
  | expr h as t =>
    cases h with
    | symbol s =>
      have headed : ∀ {name}, s.name = name → (Value.expr (.symbol s) as t).hasHead name = true := beq_iff_eq.2
      change (shapeOfCall s as).Tells (.expr (.symbol s) as t)
      unfold shapeOfCall
      iterate 2 refine iteInduction (motive := Shape.Tells _) (fun _ => trivial) fun _ => ?_
      refine iteInduction (motive := Shape.Tells _) (fun named => ⟨headed named, rfl⟩) fun unnamed => ?_
      iterate 5 refine iteInduction (motive := Shape.Tells _) headed fun _ => ?_
      refine iteInduction (motive := Shape.Tells _) headed fun _ => ⟨?_, t, rfl⟩
      rintro ⟨⟩
      exact unnamed rfl
    | _ => exact ⟨nofun, t, rfl⟩
  | _ => trivial

section Places

variable {p q v h : Value} {as : List Value} {name inner c : Option Value} {n : Nat}

theorem hasHead_of_ne {name other : String} (headed : v.hasHead name = true) (ne : name ≠ other) :
    v.hasHead other = false := by
  cases v with
  | expr h as t =>
    cases h with
    | symbol s =>
      obtain rfl : s.name = name := beq_iff_eq.1 headed
      exact beq_false_of_ne ne
    | _ => rfl
  | _ => rfl

theorem call_of_hasHead {v : Value} {f : String} (headed : v.hasHead f = true) : ∃ as t, v = .expr (sym f) as t := by
  cases v with
  | expr h as t =>
    cases h with
    | symbol s =>
      obtain rfl : s.name = f := beq_iff_eq.1 headed
      exact ⟨as, t, rfl⟩
    | _ => cases headed
  | _ => cases headed

theorem hasHead_of_shape : (∀ inner test, shape p = .condition inner test → p.hasHead "Condition" = true) ∧
    ∀ parts, shape p = .test parts → p.hasHead "PatternTest" = true := by
  have tells := tells_shape p
  constructor
  · intro inner test form
    rwa [form] at tells
  · intro parts form
    rwa [form] at tells

/-- A pattern that binds a name is headed by `Pattern` and has its name first. -/
theorem name_of_shape (form : shape p = .named name inner) : p.hasHead "Pattern" = true ∧ name = first? p.args := by
  have tells := tells_shape p
  rwa [form] at tells

theorem head_of_compound (form : shape p = .compound h as) : h ≠ sym "Pattern" := by
  have tells := tells_shape p
  rw [form] at tells
  exact tells.1

/-- A pattern that is matched part by part is the expression of these parts. -/
theorem form_of_compound (form : shape p = .compound h as) : ∃ t, p = .expr h as t := by
  have tells := tells_shape p
  rw [form] at tells
  exact tells.2

theorem name_of_segment (form : role p = .segment name n c) :
    name = none ∨ p.hasHead "Pattern" = true ∧ name = first? p.args := by
  unfold role at form
  repeat' split at form
  all_goals cases form
  · exact .inl rfl
  · exact .inr ⟨‹_›, rfl⟩

theorem default_of_role (form : role p = .optional inner (some v)) : v ∈ p.args := by
  unfold role at form
  repeat' split at form
  all_goals simp only [Role.optional.injEq, reduceCtorEq] at form
  exact second?_mem form.2

theorem mem_args_of_role (member : q ∈ (role p).parts) : q ∈ p.args := by
  unfold role at member
  repeat' split at member
  all_goals simp only [Role.parts, Option.toList_none, List.not_mem_nil, Option.mem_toList] at member
  all_goals exact first?_mem member

end Places

/-- A property that passes from a pattern to all the patterns that are matched on its way. -/
structure Descends (W : Value → Prop) : Prop where
  part {p q : Value} (holds : W p) (member : q ∈ (shape (unwrapHold p)).parts) : W q
  inner {p q : Value} (holds : W p)
    (form : (∃ default, role p = .optional (some q) default) ∨ ∃ n, role p = .repeated (some q) n) : W q
  flatten {p h : Value} {as : List Value} (holds : W p) (form : shape (unwrapHold p) = .compound h as) :
    ∀ a ∈ flatten h as, W a

/-- A property that the head and the arguments of an expression have with it. -/
structure Hereditary (W : Value → Prop) : Prop where
  head {h : Value} {as : List Value} {t : SymbolSet} (holds : W (.expr h as t)) : W h
  arg {h : Value} {as : List Value} {t : SymbolSet} (holds : W (.expr h as t)) : ∀ a ∈ as, W a

theorem hereditary_true : Hereditary fun _ => True := ⟨fun _ => trivial, fun _ _ _ => trivial⟩

theorem hereditary_everywhere (P : Value → Bool) : Hereditary fun v => everywhere P v = true where
  head holds := (everywhere_expr.1 holds).2.1
  arg holds := (everywhere_expr.1 holds).2.2

namespace Hereditary

variable {W : Value → Prop} {p q v : Value} (hereditary : Hereditary W)

include hereditary

theorem of_mem_args (holds : W p) (member : v ∈ p.args) : W v := by
  cases p with
  | expr h as t => exact hereditary.arg holds v member
  | _ => cases member

theorem unwrapHold (holds : W p) : W (unwrapHold p) := by
  unfold Pattern.unwrapHold
  split
  · split
    · exact hereditary.of_mem_args holds (List.mem_cons_self ..)
    · exact holds
  · exact holds

theorem part (holds : W p) (member : q ∈ (shape (Pattern.unwrapHold p)).parts) : W q := by
  have inside := hereditary.unwrapHold holds
  generalize Pattern.unwrapHold p = r at member inside
  cases r with
  | expr h as t =>
    have place : q = h ∨ q ∈ as := by
      cases h with
      | symbol s => exact parts_shapeOfCall member
      | _ => simpa [shape, Shape.parts] using member
    rcases place with rfl | argument
    · exact hereditary.head inside
    · exact hereditary.arg inside q argument
  | _ => cases member

theorem name {name : Value} {inner : Option Value} (holds : W p)
    (form : shape (Pattern.unwrapHold p) = .named (some name) inner) : W name :=
  hereditary.of_mem_args (hereditary.unwrapHold holds) (first?_mem (name_of_shape form).2.symm)

theorem role (holds : W p) (member : q ∈ (role p).parts) : W q :=
  hereditary.of_mem_args holds (mem_args_of_role member)

theorem flatten {head : Value} {as : List Value} (holds : ∀ a ∈ as, W a) : ∀ a ∈ flatten head as, W a := by
  fun_induction Pattern.flatten head as with
  | case1 => simp
  | case2 head h as t xs _ ihInside ihLater =>
    obtain ⟨here, later⟩ := List.forall_mem_cons.1 holds
    exact List.forall_mem_append.2 ⟨ihInside (hereditary.arg here), ihLater later⟩
  | case3 head h as t xs _ ih =>
    obtain ⟨here, later⟩ := List.forall_mem_cons.1 holds
    exact List.forall_mem_cons.2 ⟨here, ih later⟩
  | case4 head x xs _ ih =>
    obtain ⟨here, later⟩ := List.forall_mem_cons.1 holds
    exact List.forall_mem_cons.2 ⟨here, ih later⟩

theorem descends : Descends W where
  part holds member := hereditary.part holds member
  inner holds form := by
    rcases form with ⟨default, form⟩ | ⟨n, form⟩
    all_goals exact hereditary.role holds (by simp [form, Role.parts])
  flatten holds form :=
    hereditary.flatten fun a member => hereditary.part holds (by simp [form, Shape.parts, member])

end Hereditary

end Symbolic.Pattern
