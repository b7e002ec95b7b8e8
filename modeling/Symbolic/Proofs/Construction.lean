import Symbolic.Builtin.Arithmetic
import Symbolic.Pattern.Substitution
import Symbolic.Proofs.CanonicalOrder
import Symbolic.Proofs.Computation
import Symbolic.Proofs.Elements
import Symbolic.Proofs.Evaluation.Arrangement

/-!
What is made of elements is an element: the arguments of an element, whatever is spliced,
flattened, sorted or threaded, what a substitution gives, and what arithmetic gives. The one
exception is a product with something that is no number in it: it repeats what that is made of, and
can come to a plain tuple.
-/
namespace Symbolic

open Value

namespace Value

abbrev Elements (vs : List Value) : Prop := ∀ v ∈ vs, v.isElement = true

variable {h v : Value} {as : List Value} {t : SymbolSet} {name : String}

theorem isElement_expr :
    (Value.expr h as t).isElement = true ↔ h.canHead = true ∧ h.isElement = true ∧ Elements as :=
  everywhere_expr

theorem isElement_call : (call name as).isElement = true ↔ Elements as := by
  rw [isElement_expr]
  exact ⟨fun element => element.2.2, fun elements => ⟨rfl, rfl, elements⟩⟩

@[simp] theorem elements_nil : Elements [] := List.forall_mem_nil _

@[simp] theorem elements_cons : Elements (v :: as) ↔ v.isElement = true ∧ Elements as := List.forall_mem_cons

theorem elements_args (element : v.isElement = true) : Elements v.args := by
  cases v with
  | expr h as t => exact (isElement_expr.1 element).2.2
  | _ => exact elements_nil

theorem elements_argsOf (element : v.isElement = true) (found : v.argsOf? name = some as) : Elements as := by
  unfold argsOf? at found
  split at found
  · split at found
    · cases found
      exact elements_args element
    · cases found
  · cases found

theorem elements_getD (element : v.isElement = true) (name : String) : Elements ((v.argsOf? name).getD [v]) := by
  cases found : v.argsOf? name with
  | none => exact elements_cons.2 ⟨element, elements_nil⟩
  | some as => exact elements_argsOf element found

theorem elements_inline (elements : Elements as) (name : String) :
    Elements (as.flatMap fun a => (a.argsOf? name).getD [a]) := by
  intro v member
  obtain ⟨a, inside, there⟩ := List.mem_flatMap.1 member
  exact elements_getD (elements a inside) name v there

theorem isElement_build {r : Value} (head : h.isElement = true) (elements : Elements as)
    (built : h.build as t = .ok r) : r.isElement = true := by
  unfold build at built
  split at built
  · next can =>
    cases built
    exact isElement_expr.2 ⟨can, head, elements⟩
  · cases built

/-! ### Arrangement -/

theorem isElement_spliceSequences (element : v.isElement = true) : v.spliceSequences.isElement = true := by
  cases v with
  | expr h as t =>
    obtain ⟨can, head, elements⟩ := isElement_expr.1 element
    exact isElement_expr.2 ⟨can, head, elements_inline elements "Sequence"⟩
  | _ => exact element

theorem isElement_flattenNested (element : v.isElement = true) : v.flattenNested.isElement = true := by
  cases v with
  | expr h as t =>
    obtain ⟨can, head, elements⟩ := isElement_expr.1 element
    refine isElement_expr.2 ⟨can, head, ?_⟩
    exact flatArgs_all (fun _ _ _ inner => (isElement_expr.1 inner).2.2) elements
  | _ => exact element

theorem isElement_sortArgs {r : Value} (element : v.isElement = true) (run : v.sortArgs = .ok r) :
    r.isElement = true := by
  cases v with
  | expr h as t =>
    obtain ⟨can, head, elements⟩ := isElement_expr.1 element
    obtain ⟨bs, perm, rfl⟩ := sortArgs_perm run
    exact isElement_expr.2 ⟨can, head, fun b member => elements b (perm.mem_iff.1 member)⟩
  | _ =>
    cases run
    exact element

theorem isElement_arrange {attrs : SymbolSet} {r : Value} (element : v.isElement = true)
    (run : arrange attrs v = .ok r) : r.isElement = true := by
  have spliced : ∀ held : Bool, (if held then v else v.spliceSequences).isElement = true := by
    intro held
    cases held with
    | true => exact element
    | false => exact isElement_spliceSequences element
  have flat : ∀ held flat : Bool, (if flat then (if held then v else v.spliceSequences).flattenNested
      else if held then v else v.spliceSequences).isElement = true := by
    intro held flat
    cases flat with
    | true => exact isElement_flattenNested (spliced held)
    | false => exact spliced held
  simp only [arrange] at run
  split at run
  · exact isElement_sortArgs (flat _ _) run
  · cases run
    exact flat _ _

theorem isElement_threadLists (element : v.isElement = true) : v.threadLists.isElement = true := by
  cases v with
  | expr h as t =>
    obtain ⟨can, head, elements⟩ := isElement_expr.1 element
    simp only [threadLists]
    split
    · exact element
    · split
      · refine isElement_call.2 fun w member => ?_
        obtain ⟨i, _, rfl⟩ := List.mem_map.1 member
        refine isElement_expr.2 ⟨can, head, fun b inside => ?_⟩
        obtain ⟨a, place, rfl⟩ := List.mem_map.1 inside
        split
        · next xs found =>
          rw [List.getD_eq_getElem?_getD]
          cases item : xs[i]? with
          | none => exact elements a place
          | some x => exact elements_argsOf (elements a place) found x (List.mem_of_getElem? item)
        · exact elements a place
      · exact element
  | _ => exact element

/-! ### Substitution -/

theorem isElement_lookup {x : Symbol} {es : List (Symbol × Value)} (bound : ∀ e ∈ es, e.2.isElement = true)
    (found : Bindings.lookup x es = some v) : v.isElement = true := by
  induction es with
  | nil => cases found
  | cons e es ih =>
    obtain ⟨y, w⟩ := e
    simp only [Bindings.lookup] at found
    split at found
    · cases found
      exact bound _ (List.mem_cons_self ..)
    · exact ih (fun e member => bound e (List.mem_cons_of_mem _ member)) found

mutual

theorem isElement_substitute {splice : Bool} {es : List (Symbol × Value)} (bound : ∀ e ∈ es, e.2.isElement = true) :
    ∀ {v r : Value}, v.isElement = true → v.substitute splice es = .ok r → r.isElement = true
  | .symbol s, r, element, run => by
    simp only [substitute, Except.ok.injEq] at run
    subst run
    cases found : Bindings.lookup s es with
    | none => exact element
    | some w => exact isElement_lookup bound found
  | .expr h as t, r, element, run => by
    obtain ⟨_, head, elements⟩ := isElement_expr.1 element
    simp only [substitute] at run
    obtain ⟨k, atHead, run⟩ := Except.bind_ok run
    obtain ⟨bs, inArgs, run⟩ := Except.bind_ok run
    have headElement := isElement_substitute bound head atHead
    have argElements := elements_substituteAll bound elements inArgs
    have spliced : Elements (if splice then spliceLists bs else bs) := by
      split
      · exact elements_inline argElements "List"
      · exact argElements
    generalize (if splice then spliceLists bs else bs) = cs at run spliced
    split at run
    · cases run
      exact element
    · exact isElement_build headElement spliced run
  | .null, _, element, run | .bool _, _, element, run | .number _, _, element, run | .text _, _, element, run
  | .tuple _, _, element, run | .list _, _, element, run | .set _, _, element, run | .table _, _, element, run
  | .bindings _, _, element, run => by
    cases run
    exact element

theorem elements_substituteAll {splice : Bool} {es : List (Symbol × Value)} (bound : ∀ e ∈ es, e.2.isElement = true) :
    ∀ {as bs : List Value}, Elements as → substituteAll splice es as = .ok bs → Elements bs
  | [], bs, _, run => by
    cases run
    exact elements_nil
  | a :: as, bs, elements, run => by
    obtain ⟨first, others⟩ := elements_cons.1 elements
    simp only [substituteAll] at run
    obtain ⟨b, here, run⟩ := Except.bind_ok run
    obtain ⟨cs, there, run⟩ := Except.bind_ok run
    cases run
    exact elements_cons.2 ⟨isElement_substitute bound first here, elements_substituteAll bound others there⟩

end

theorem isElement_substituteTable {splice : Bool} {es : List (Value × Value)} (bound : ∀ e ∈ es, e.2.isElement = true)
    (element : v.isElement = true) {r : Value} (run : v.substituteTable splice es = .ok r) : r.isElement = true := by
  unfold substituteTable at run
  split at run
  · cases run
    exact element
  · refine isElement_substitute (fun e member => ?_) element run
    obtain ⟨p, inside, found⟩ := List.mem_filterMap.1 member
    obtain ⟨x, _, rfl⟩ := Option.map_eq_some_iff.1 found
    exact bound p inside

end Value

theorem Bindings.isElement_substitute {b : Bindings} {v r : Value} (bound : ∀ e ∈ b.entries, e.2.isElement = true)
    (element : v.isElement = true) (run : b.substitute v = .ok r) : r.isElement = true := by
  unfold Bindings.substitute at run
  split at run
  · cases run
    exact element
  · exact Value.isElement_substitute bound element run

/-! ### Arithmetic -/

namespace Arithmetic

variable {v r e : Value} {as : List Value} {name : String}

theorem isElement_lift {x : Except Number.Fault Number} (run : lift x = .ok r) : r.isElement = true := by
  unfold lift at run
  split at run
  · cases run
    rfl
  · cases run

theorem isElement_soleOrCall (elements : Elements as) : (soleOrCall name as).isElement = true := by
  unfold soleOrCall
  split
  · exact (elements_cons.1 elements).1
  · exact isElement_call.2 elements

theorem elements_separate (elements : Elements as) : Elements (separate as).2 := fun a member =>
  elements a (List.mem_filter.1 member).1

theorem isElement_simplifyTerm (element : v.isElement = true) (run : simplifyTerm v = .ok r) : r.isElement = true := by
  obtain ⟨p, found, run⟩ := Except.bind_ok run
  have rest : p.2.isElement = true := by
    unfold coefficient at found
    split at found
    · cases found
      rfl
    · next as there =>
      have others := elements_separate (elements_argsOf element there)
      generalize separate as = parts at found others
      obtain ⟨ns, rest⟩ := parts
      dsimp only at found
      split at found
      · cases found
        rfl
      · obtain ⟨k, _, found⟩ := Except.bind_ok found
        split at found
        · cases found
          rfl
        · cases found
          exact (elements_cons.1 others).1
        · cases found
          exact isElement_call.2 others
  split at run
  · cases run
    exact element
  · cases run
    split
    · exact rest
    · exact element

theorem isElement_plus (elements : Elements as) (run : plus as = .ok r) : r.isElement = true := by
  unfold plus at run
  split at run
  · cases run
    rfl
  · cases run
    exact (elements_cons.1 elements).1
  · obtain ⟨total, _, run⟩ := Except.bind_ok run
    obtain ⟨terms, simplified, run⟩ := Except.bind_ok run
    have parts : Elements terms := by
      intro w member
      obtain ⟨a, place, simple⟩ := exists_of_forall₂ (Except.mapM_ok simplified) member
      exact isElement_simplifyTerm (elements_inline elements "Plus" a (List.mem_filter.1 place).1) simple
    split at run
    · cases run
      rfl
    · cases run
      refine isElement_soleOrCall ?_
      split
      · exact parts
      · exact elements_cons.2 ⟨rfl, parts⟩

theorem isElement_times (elements : Elements as) (run : times as = .ok r) : r.isElement = true := by
  unfold times at run
  split at run
  · cases run
    rfl
  · cases run
    exact (elements_cons.1 elements).1
  · split at run
    · cases run
      rfl
    · have others : Elements (separate (inline "Times" as)).2 := elements_separate (elements_inline elements "Times")
      generalize separate (inline "Times" as) = parts at run others
      obtain ⟨ns, factors⟩ := parts
      dsimp only at run
      obtain ⟨total, _, run⟩ := Except.bind_ok run
      split at run
      · cases run
        rfl
      · split at run
        · cases run
          split <;> rfl
        · cases run
          refine isElement_soleOrCall ?_
          split
          · exact others
          · exact elements_cons.2 ⟨rfl, others⟩

theorem isElement_powerOfNumbers {base exponent : Value} {m n : Number} (basis : base.isElement = true)
    (kept : (call "Power" [base, exponent]).isElement = true) (run : powerOfNumbers base exponent m n = .ok r) :
    r.isElement = true := by
  unfold powerOfNumbers at run
  simp only [bind, Except.bind, pure, Except.pure] at run
  repeat' split at run
  all_goals cases run
  any_goals rfl
  -- What is left is the base, for the exponent one, and a power that stays as it is.
  any_goals exact kept
  all_goals exact basis

theorem isElement_power (element : e.isElement = true) (elements : Elements as) (run : power e as = .ok r) :
    r.isElement = true := by
  unfold power at run
  split at run
  · cases run
    exact (elements_cons.1 elements).1
  · next base exponent =>
    have basis := (elements_cons.1 elements).1
    have kept : (call "Power" [base, exponent]).isElement = true := isElement_call.2 elements
    split at run
    · exact isElement_powerOfNumbers basis kept run
    · repeat' split at run
      all_goals cases run
      · rfl
      · exact basis
      · rfl
      · exact kept
  · cases run
    exact element

theorem isElement_minus (element : e.isElement = true) (elements : Elements as) (run : minus e as = .ok r) :
    r.isElement = true := by
  unfold minus at run
  split at run
  · cases run
    exact isElement_call.2 (elements_cons.2 ⟨rfl, elements⟩)
  · cases run
    exact element

theorem isElement_subtract (element : e.isElement = true) (elements : Elements as) (run : subtract e as = .ok r) :
    r.isElement = true := by
  unfold subtract at run
  split at run
  · cases run
    obtain ⟨first, rest⟩ := elements_cons.1 elements
    refine isElement_call.2 (elements_cons.2 ⟨first, elements_cons.2 ⟨?_, elements_nil⟩⟩)
    exact isElement_call.2 (elements_cons.2 ⟨rfl, rest⟩)
  · cases run
    exact element

theorem isElement_divide (element : e.isElement = true) (elements : Elements as) (run : divide e as = .ok r) :
    r.isElement = true := by
  unfold divide at run
  split at run
  · next a b =>
    obtain ⟨first, rest⟩ := elements_cons.1 elements
    have second := (elements_cons.1 rest).1
    have product : ∀ c, c.isElement = true → (call "Times" [a, c]).isElement = true := fun c factor =>
      isElement_call.2 (elements_cons.2 ⟨first, elements_cons.2 ⟨factor, elements_nil⟩⟩)
    have inverse : (call "Power" [b, int (-1)]).isElement = true :=
      isElement_call.2 (elements_cons.2 ⟨second, elements_cons.2 ⟨rfl, elements_nil⟩⟩)
    split at run
    · split at run
      · cases run
        exact product _ inverse
      · obtain ⟨c, lifted, run⟩ := Except.bind_ok run
        cases run
        exact product c (isElement_lift lifted)
    · cases run
      exact product _ inverse
  · cases run
    exact element

theorem isElement_absOfProduct {a : Value} (element : a.isElement = true) (elements : Elements as)
    (run : absOfProduct a as = .ok r) : r.isElement = true := by
  have abs : ∀ v, v.isElement = true → (call "Abs" [v]).isElement = true := fun v inner =>
    isElement_call.2 (elements_cons.2 ⟨inner, elements_nil⟩)
  unfold absOfProduct at run
  split at run
  · cases run
  · next f rest =>
    have others := (elements_cons.1 elements).2
    split at run
    · cases run
      exact abs a element
    · next n _ =>
      obtain ⟨below, _, run⟩ := Except.bind_ok run
      split at run
      · cases run
        refine abs _ (isElement_call.2 (elements_cons.2 ⟨rfl, elements_cons.2 ⟨?_, elements_nil⟩⟩))
        split
        · exact (elements_cons.1 others).1
        · exact isElement_call.2 others
      · cases run
        exact abs a element

theorem isElement_abs (element : e.isElement = true) (elements : Elements as) (run : abs e as = .ok r) :
    r.isElement = true := by
  unfold abs at run
  split at run
  · next a =>
    have argument := (elements_cons.1 elements).1
    split at run
    · exact isElement_lift run
    · next found => exact isElement_absOfProduct argument (elements_argsOf argument found) run
    · cases run
      exact isElement_call.2 elements
  · cases run
    exact element

theorem isElement_sqrt (element : e.isElement = true) (elements : Elements as) (run : sqrt e as = .ok r) :
    r.isElement = true := by
  unfold sqrt at run
  split at run
  · split at run
    · exact isElement_lift run
    · cases run
      exact isElement_call.2 (elements_cons.2 ⟨(elements_cons.1 elements).1, elements_cons.2 ⟨rfl, elements_nil⟩⟩)
  · cases run
    exact element

theorem isElement_exp (element : e.isElement = true) (elements : Elements as) (run : exp e as = .ok r) :
    r.isElement = true := by
  unfold exp at run
  split at run
  · split at run
    · exact isElement_lift run
    · exact isElement_lift run
    · cases run
      exact isElement_call.2 (elements_cons.2 ⟨rfl, elements⟩)
  · cases run
    exact element

theorem isElement_log (element : e.isElement = true) (elements : Elements as) (run : log e as = .ok r) :
    r.isElement = true := by
  unfold log at run
  split at run
  · split at run
    · exact isElement_lift run
    · exact isElement_lift run
    · cases run
      exact isElement_call.2 elements
  · split at run
    · split at run
      · exact isElement_lift run
      · cases run
        exact element
    · cases run
      exact element
  · cases run
    exact element

/-! ### Products with what is no number -/

/-- What a value is made of, again and again: a plain tuple, which is no element. -/
def Repetition (v : Value) : Prop :=
  ∃ (w : Value) (xs : List Value) (n : Nat), w.isElement = true ∧ w.components? = some xs ∧
    v = .tuple (List.replicate n xs).flatten

theorem flatten_replicate {α : Type} (xs : List α) (m n : Nat) :
    (List.replicate m (List.replicate n xs).flatten).flatten = (List.replicate (m * n) xs).flatten := by
  induction m with
  | zero => simp
  | succ m ih =>
    rw [List.replicate_succ, List.flatten_cons, ih, Nat.succ_mul, Nat.add_comm, List.replicate_add, List.flatten_append]

/-- Repeating what is repeated, or an element, gives a text or a repetition. -/
theorem repeatItems_closed {n : Int} (start : v.isElement = true ∨ Repetition v) (run : repeatItems v n = .ok r) :
    r.isElement = true ∨ Repetition r := by
  have repeated : ∀ (w : Value) xs m k ys, w.isElement = true → w.components? = some xs →
      repeatList (List.replicate m xs).flatten k = .ok ys → Repetition (.tuple ys) := by
    intro w xs m k ys element made run
    unfold repeatList at run
    split at run
    · cases run
      exact ⟨w, xs, 0, element, made, by simp⟩
    · split at run
      · cases run
      · cases run
        exact ⟨w, xs, k * m, element, made, by rw [flatten_replicate]⟩
  rcases start with element | ⟨w, xs, m, element, made, rfl⟩
  · cases v with
    | text s =>
      obtain ⟨k, _, run⟩ := Except.bind_ok run
      obtain ⟨t, _, run⟩ := Except.bind_ok run
      cases run
      exact .inl rfl
    | symbol | expr =>
      obtain ⟨k, _, run⟩ := Except.bind_ok run
      obtain ⟨ys, listed, run⟩ := Except.bind_ok run
      cases run
      refine .inr (repeated _ _ 1 k ys element rfl ?_)
      simpa using listed
    | null | bool | number => cases run
    | _ => cases element
  · obtain ⟨k, _, run⟩ := Except.bind_ok run
    obtain ⟨ys, listed, run⟩ := Except.bind_ok run
    cases run
    exact .inr (repeated w xs m k ys element made listed)

theorem isElement_accumulateSum {acc : Value} (run : accumulateSum acc v = .ok r) : r.isElement = true := by
  unfold accumulateSum at run
  split at run
  · exact isElement_lift run
  · cases run

theorem accumulateProduct_closed {acc : Value} (start : acc.isElement = true ∨ Repetition acc)
    (element : v.isElement = true) (run : accumulateProduct acc v = .ok r) : r.isElement = true ∨ Repetition r := by
  unfold accumulateProduct at run
  split at run
  · exact .inl (isElement_lift run)
  · exact repeatItems_closed (.inl element) run
  · exact repeatItems_closed start run
  · cases run

end Arithmetic
end Symbolic
