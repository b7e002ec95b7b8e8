import Symbolic.Proofs.Evaluation.Budget
import Symbolic.Proofs.Evaluation.Summation
import Symbolic.Proofs.NumberOrder
import Symbolic.Proofs.UnitFactors

/-!
The functions of numbers: arithmetic and comparison of integers, reals and complex numbers in any mix. What a builtin
gives for numbers is a number, a truth value or the call itself, or it fails for a reason of range, unless it asks for
an order that complex numbers do not have (`suffices_run`). Some rewrite the call into sums and products, and these come
to numbers, as far as these can be sorted (`comes_ring`, `comes_minus` and `comes_subtract`).
-/
namespace Symbolic

open Value Session Number
open Arithmetic (orFail lift)

/-! ### The functions of numbers -/

def RingOp.reckon (op : RingOp) (x y : Number) : Except Error Value :=
  (call op.name [.number x, .number y]).sortArgs >>= fun e => fold op.name e.args

@[irreducible] def RingOp.reckonAll (op : RingOp) (ns : List Number) : Except Error Value :=
  (call op.name (ns.map .number)).sortArgs >>= fun e => fold op.name e.args

theorem RingOp.reckon_eq (op : RingOp) (x y : Number) : op.reckon x y = op.reckonAll [x, y] := by
  rw [reckonAll]
  rfl

/-- Whether a number clashes with one that is computed. -/
def disorderedWith (a : Number) : Except Error Value → Bool
  | .ok (.number m) => disordered [a, m]
  | _ => false

inductive Calculation where
  | plus | times | power | minus | divide | subtract | abs | sqrt | exp | log
  | order (r : Relation) | equal | unequal
  deriving DecidableEq

namespace Calculation

def name : Calculation → String
  | .plus => "Plus"
  | .times => "Times"
  | .power => "Power"
  | .minus => "Minus"
  | .divide => "Divide"
  | .subtract => "Subtract"
  | .abs => "Abs"
  | .sqrt => "Sqrt"
  | .exp => "Exp"
  | .log => "Log"
  | .order .lt => "Less"
  | .order .gt => "Greater"
  | .order .le => "LessEqual"
  | .order .ge => "GreaterEqual"
  | .equal => "Equal"
  | .unequal => "Unequal"

def operation : Calculation → Operation
  | .plus => .plus
  | .times => .times
  | .power => .power
  | .minus => .minus
  | .divide => .divide
  | .subtract => .subtract
  | .abs => .abs
  | .sqrt => .sqrt
  | .exp => .exp
  | .log => .log
  | .order .lt => .less
  | .order .gt => .greater
  | .order .le => .lessEqual
  | .order .ge => .greaterEqual
  | .equal => .equal
  | .unequal => .unequal

def accepts : Calculation → Nat → Bool
  | .plus, _ | .times, _ => true
  | .minus, n | .abs, n | .sqrt, n | .exp, n => n == 1
  | .log, n => n == 1 || n == 2
  | _, n => n == 2

/-- Whether a function of these numbers needs an order of complex numbers: a relation to a complex number, the sign
of a complex exponent of zero, the sign of a complex number under a root, or which of two that clash comes first where
numbers, or a number and an opposite or a reciprocal, are sorted. -/
def asksOrder : Calculation → List Number → Bool
  | .plus, ns | .times, ns => disordered ns
  | .subtract, [a, b] => disorderedWith a (RingOp.times.reckon (.int (-1)) b)
  | .divide, [a, b] => !b.isZero && disorderedWith a (lift b.inverse)
  | .order _, ns => ns.any isComplex
  | .power, [a, b] => a.isZero && b.isComplex
  | .sqrt, [a] => a.isComplex
  | _, _ => false

/-- Comparisons come to truth values, and the rest to a number or to an expression. -/
def answers : Calculation → Value → Bool
  | .order _, .bool _ | .equal, .bool _ | .unequal, .bool _ => true
  | .order _, _ | .equal, _ | .unequal, _ => false
  | _, v => Comparison.isNumber v || v.isExpr

theorem eager (f : Calculation) : Eager f.name f.operation := by
  rcases f with _ | _ | _ | _ | _ | _ | _ | _ | _ | _ | (_ | _ | _ | _) | _ | _ <;> exact ⟨rfl, by decide⟩

theorem unarranged {f : Calculation} (sum : f ≠ .plus) (product : f ≠ .times) :
    ∀ a ∈ [Attribute.holdAllComplete, Attribute.sequenceHold, Attribute.flat, Attribute.orderless],
      (markings f.name).contains a = false := by
  rcases f with _ | _ | _ | _ | _ | _ | _ | _ | _ | _ | (_ | _ | _ | _) | _ | _
  · exact absurd rfl sum
  · exact absurd rfl product
  all_goals decide

end Calculation

/-- Whether a failure says that something is out of range: an arithmetic fault other than a missing order, or an
integer that is too long to be written. -/
def Error.isOfRange : Error → Bool
  | .arithmetic f => f != .unordered
  | .malformed => true
  | _ => false

/-- An evaluation comes to an answer, or fails for a reason of range. -/
def Sound (answers : Value → Bool) : Except Error Value → Prop
  | .ok v => answers v = true
  | .error e => e.isOfRange = true

/-- An evaluation fails for want of an order if one is asked for, and is sound otherwise. -/
structure SoundUnless (asked : Bool) (answers : Value → Bool) (o : Except Error Value) : Prop where
  fails : asked = true → o = .error (.arithmetic .unordered)
  sound : asked = false → Sound answers o

theorem Sound.answers {f : Calculation} (numeric : ∀ n, f.answers (.number n) = true) {o : Except Error Value}
    (sound : Sound Comparison.isNumber o) : Sound f.answers o := by
  match o, sound with
  | .ok (.number n), _ => exact numeric n
  | .error e, ranged => exact ranged

theorem SoundUnless.answers {f : Calculation} (numeric : ∀ n, f.answers (.number n) = true) {asked : Bool}
    {o : Except Error Value} (ends : SoundUnless asked Comparison.isNumber o) : SoundUnless asked f.answers o :=
  ⟨ends.fails, fun unasked => (ends.sound unasked).answers numeric⟩

/-- What a builtin gives for numbers answers a function and needs no more evaluation: it is an atom, or the call
itself. -/
structure Calculation.Gives (f : Calculation) (ns : List Number) (r : Except Error Value) : Prop where
  sound : Sound f.answers r
  plain : ∀ v, r = .ok v → v = call f.name (ns.map .number) ∨ v.isAtom = true

namespace Session

/-- Nothing is said about arithmetic and comparison but what the language says. -/
structure Calculates (s : Session) (c : ContextId) : Prop where
  standard : s.registry = Builtin.standard
  silent : ∀ f : Calculation, s.Silent c f.name

theorem Calculates.provides {s : Session} {c : ContextId} (calculates : s.Calculates c) (f : Calculation) :
    s.Provides c f.name f.operation :=
  ⟨f.eager, calculates.standard, calculates.silent f⟩

end Session

/-! ### Numbers as arguments -/

theorem isAtom_of_isNumber {v : Value} (number : Comparison.isNumber v = true) : v.isAtom = true := by
  cases v with
  | number n => rfl
  | _ => cases number

theorem sound_orFail {r : Except Fault Number} (faults : Faults Fault.OfRange r) {g : Number → Except Error Value}
    (next : ∀ n, Sound Comparison.isNumber (g n)) : Sound Comparison.isNumber (orFail r >>= g) := by
  cases r with
  | ok n => exact next n
  | error f => exact bne_iff_ne.2 (faults f rfl)

section Numbers

variable (ns : List Number)

theorem separate_numbers : Arithmetic.separate (ns.map .number) = (ns, []) := by
  simp [Arithmetic.separate, List.filterMap_map, List.filter_map, Function.comp_def, number?]

theorem inline_numbers (name : String) : Arithmetic.inline name (ns.map .number) = ns.map .number :=
  inline_of_flat fun a member => by
    obtain ⟨n, -, rfl⟩ := List.mem_map.1 member
    rfl

theorem sumOf_faults : Faults Fault.OfRange (Arithmetic.sumOf ns) :=
  .foldlM (fun a b => (add_faults a b).mono fun _ => Fault.OfPower.ofRange) ns _

theorem productOf_faults : Faults Fault.OfRange (Arithmetic.productOf ns) :=
  .foldlM (fun a b => (mul_faults a b).mono fun _ => Fault.OfPower.ofRange) ns _

theorem plus_numbers : Sound Comparison.isNumber (Arithmetic.plus (ns.map .number)) := by
  match ns with
  | [] => rfl
  | [n] => rfl
  | n :: m :: ns =>
    have flat := inline_numbers (n :: m :: ns) "Plus"
    obtain ⟨numbers, others⟩ := Prod.mk.inj (separate_numbers (n :: m :: ns))
    simp only [List.map_cons] at flat numbers others
    simp only [List.map_cons, Arithmetic.plus]
    rw [flat, numbers, others]
    exact sound_orFail (sumOf_faults _) fun total => rfl

theorem times_numbers : Sound Comparison.isNumber (Arithmetic.times (ns.map .number)) := by
  match ns with
  | [] => rfl
  | [n] => rfl
  | n :: m :: ns =>
    have flat := inline_numbers (n :: m :: ns) "Times"
    have separated := separate_numbers (n :: m :: ns)
    simp only [List.map_cons] at flat separated
    simp only [List.map_cons, Arithmetic.times]
    rw [flat, separated]
    split
    · rfl
    · refine sound_orFail (productOf_faults _) fun product => ?_
      simp only [List.isEmpty_nil, if_true]
      split
      · rfl
      · split
        · rfl
        · rfl

theorem fold_sound (op : RingOp) : Sound Comparison.isNumber (fold op.name (ns.map .number)) := by
  cases op with
  | plus => exact plus_numbers ns
  | times => exact times_numbers ns

/-- Numbers are sorted into numbers, or fail for want of an order if two of them clash, or else for a reason of
range. -/
theorem sortArgs_numbers (f : String) :
    (∃ ms : List Number, disordered ns = false ∧ (call f (ns.map .number)).sortArgs = .ok (call f (ms.map .number))) ∨
      (call f (ns.map .number)).sortArgs =
        .error (if disordered ns then .arithmetic .unordered else .malformed) := by
  rw [sortArgs]
  split
  · next few =>
    refine .inl ⟨ns, ?_, rfl⟩
    rw [List.length_map] at few
    rcases ns with _ | ⟨n, _ | ⟨m, rest⟩⟩
    · rfl
    · simp [disordered, clashes_self]
    · simp at few
  · have cases := sorted_numbers ns
    split at cases
    · split at cases
      · next disorder =>
        rw [cases, if_pos disorder]
        exact .inr rfl
      · next order =>
        obtain ⟨ms, -, run⟩ := cases
        rw [run]
        refine .inl ?_
        by_cases same : sameItems (ms.map .number) (ns.map .number) = true
        · exact ⟨ns, Bool.eq_false_iff.2 order, congrArg Except.ok (if_pos same)⟩
        · exact ⟨ms, Bool.eq_false_iff.2 order, congrArg Except.ok (if_neg same)⟩
    · next unwritable =>
      have order : disordered ns = false := by rw [disordered, Bool.eq_false_iff.2 unwritable, Bool.false_and]
      rw [cases, order]
      exact .inr rfl

theorem reckonAll_sound (op : RingOp) (order : disordered ns = false) :
    Sound Comparison.isNumber (op.reckonAll ns) := by
  unfold RingOp.reckonAll
  rcases sortArgs_numbers ns op.name with ⟨ms, -, sorted⟩ | unsorted
  · rw [sorted]
    exact fold_sound ms op
  · rw [unsorted, order]
    rfl

theorem reckonAll_ends (op : RingOp) : SoundUnless (disordered ns) Comparison.isNumber (op.reckonAll ns) := by
  refine ⟨fun disorder => ?_, reckonAll_sound ns op⟩
  rcases sortArgs_numbers ns op.name with ⟨_, order, -⟩ | unsorted
  · rw [disorder] at order
    cases order
  · rw [RingOp.reckonAll, unsorted, if_pos disorder]
    rfl

theorem ordinary_numbers (name : String) : ∀ a ∈ ns.map Value.number, a.argsOf? name = none := fun a member => by
  obtain ⟨n, -, rfl⟩ := List.mem_map.1 member
  rfl

theorem atoms_numbers : ∀ a ∈ ns.map Value.number, a.isAtom = true := fun a member => by
  obtain ⟨n, -, rfl⟩ := List.mem_map.1 member
  rfl

end Numbers

section Calls

variable {s : Session} {c : ContextId} {k : Nat} (calculates : s.Calculates c)

theorem arrange_numbers {f : Calculation} (sum : f ≠ .plus) (product : f ≠ .times) (ns : List Number) :
    arrange (markings f.name) (call f.name (ns.map .number)) = .ok (call f.name (ns.map .number)) :=
  (arrange_spliced (Calculation.unarranged sum product)).trans
    (congrArg (fun as => Except.ok (call f.name as)) (inline_numbers ns "Sequence"))

theorem prepares_numbers {f : Calculation} (sum : f ≠ .plus) (product : f ≠ .times) (ns : List Number) :
    Prepares s c (k + 1) 0 f.name (ns.map .number) (ns.map .number) := by
  refine ⟨ns.map .number, suffices_atoms (atoms_numbers ns), ?_, ordinary_numbers ns "List"⟩
  rw [settled_self, arrange_numbers sum product]

include calculates

theorem provides_ring (op : RingOp) : s.Provides c op.name op.operation := by
  cases op with
  | plus => exact calculates.provides .plus
  | times => exact calculates.provides .times

end Calls

/-! ### What the builtins give for numbers -/

namespace Calculation

theorem Gives.number {f : Calculation} {ns : List Number} (numeric : ∀ n, f.answers (.number n) = true)
    {r : Except Error Value} (sound : Sound Comparison.isNumber r) : f.Gives ns r := by
  refine ⟨sound.answers numeric, fun v given => .inr ?_⟩
  subst given
  exact isAtom_of_isNumber sound

theorem Gives.bool {f : Calculation} {ns : List Number} {b : Bool} (logical : f.answers (.bool b) = true) :
    f.Gives ns (.ok (.bool b)) :=
  ⟨logical, fun v given => by cases given; exact .inr rfl⟩

theorem Gives.itself {f : Calculation} {ns : List Number} (symbolic : f.answers (call f.name (ns.map .number)) = true) :
    f.Gives ns (.ok (call f.name (ns.map .number))) :=
  ⟨symbolic, fun v given => by cases given; exact .inl rfl⟩

def raised (a b : Number) : Except Error Value :=
  if a.isOne then .ok (int 1)
  else if b.isZero then .ok (int 1)
  else if b.isOne then .ok (.number a)
  else match a.pow b with
    | .ok r => .ok (.number r.collapse)
    | .error .overflow | .error .divisionByZero => .ok (call "Power" [.number a, .number b])
    | .error f => .error (.arithmetic f)

/-- The sign of the exponent is asked for if the base is zero. -/
theorem powerOfNumbers_raised (a b : Number) : Arithmetic.powerOfNumbers (.number a) (.number b) a b =
    if a.isZero then do if ← orFail (b.compare .gt (.int 0)) then .ok (int 0) else raised a b else raised a b := by
  unfold Arithmetic.powerOfNumbers raised
  by_cases zero : a.isZero = true
  · rw [if_pos zero, if_pos zero]
    cases orFail (b.compare .gt (.int 0)) with
    | error e => rfl
    | ok above => cases above <;> rfl
  · rw [if_neg zero, if_neg zero]
    rfl

theorem gives_raised (a b : Number) : power.Gives [a, b] (raised a b) := by
  have number {r : Except Error Value} (sound : Sound Comparison.isNumber r) : power.Gives [a, b] r :=
    .number (fun _ => rfl) sound
  unfold raised
  split
  · exact number rfl
  split
  · exact number rfl
  split
  · exact number rfl
  cases power : a.pow b with
  | ok n => exact number rfl
  | error f =>
    rcases pow_faults a b f power with rfl | rfl
    · exact Gives.itself (f := .power) rfl
    · exact Gives.itself (f := .power) rfl

theorem gives_power {a b : Number} (unasked : power.asksOrder [a, b] = false) :
    power.Gives [a, b] (Arithmetic.powerOfNumbers (.number a) (.number b) a b) := by
  rw [powerOfNumbers_raised]
  split
  · next zero =>
    have real : b.isComplex = false := by simpa [asksOrder, zero] using unasked
    rw [compare_eq, real]
    show power.Gives [a, b] (if Relation.gt.points b.denotation.1 _ then .ok (int 0) else raised a b)
    split
    · exact .number (fun _ => rfl) rfl
    · exact gives_raised a b
  · exact gives_raised a b

section Runs

variable {s : Session} {c : ContextId} {k : Nat}

end Runs

end Calculation

/-! ### Functions that rewrite the call -/

theorem differs_call {v : Value} {f : String} {as : List Value} (callable : v.canHead = true)
    (other : v.argsOf? f = none) : v.differs (call f as) = true := by
  cases v with
  | symbol x => exact differs_of_basic rfl
  | expr h bs t =>
    have apart : (Value.expr h bs t).same (call f as) = false := by
      rw [Bool.eq_false_iff]
      intro same
      obtain ⟨k, xs, ⟨⟩, head, -⟩ := same_expr same
      rw [same_symbol_iff.1 head] at other
      simp [argsOf?] at other
    simp [differs, Value.equal, number?, apart]
  | _ => cases callable

section Rewriting

variable {s : Session} {c : ContextId} {k : Nat} (calculates : s.Calculates c)

include calculates

end Rewriting

end Symbolic
