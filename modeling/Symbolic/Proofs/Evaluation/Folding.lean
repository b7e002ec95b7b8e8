import Symbolic.Proofs.Evaluation.Rewriting

/-!
What the builtins of arithmetic make of terms. The integers among the arguments of a sum
or a product are combined in front of the other arguments; every other operation is an
integer or rewritten into sums and products. Each of these results is reached by the laws.
-/
namespace Symbolic

open Value Arithmetic

def integers (as : List Value) : List Int := as.filterMap int?

def others (as : List Value) : List Value := as.filter (·.number?.isNone)

/-- An integer in front of values under a head, as short as it can be written. -/
def assemble (op : RingOp) (n : Int) (ts : List Value) : Value :=
  if ts.isEmpty then int n else soleOrCall op.name (if n = op.unit then ts else int n :: ts)

section Numbers

theorem equal_int {m n : Int} : (Number.int m).equal (.int n) = decide (m = n) := by
  simp [Number.equal]

theorem compare_gt_int {m n : Int} : (Number.int m).compare .gt (.int n) = .ok (decide (n < m)) := by
  have points : (if (m : Rat) < n then Ordering.lt else if (n : Rat) < m then .gt else .eq) =
      if m < n then .lt else if n < m then .gt else .eq := by
    simp only [Rat.intCast_lt_intCast]
  simp only [Number.compare, Number.quantity, Number.Quantity.compare, Number.Relation.points,
    Number.Quantity.denotation, Number.Point.lt, Number.Relation.ofOrdering, decide_eq_true_eq, points]
  congr 1
  by_cases less : m < n
  · simp [less, Int.lt_asymm less]
  · by_cases more : n < m <;> simp [less, more]

theorem powInt_eq (a : Int) (n : Nat) : Number.Quantity.powInt a n = a ^ n := by
  rw [Number.Quantity.powInt]
  split
  · next none => rw [none, pow_zero]
  · next some =>
    split
    · next small =>
      have unit : a = 0 ∨ a = 1 ∨ a = -1 := by omega
      rcases unit with rfl | rfl | rfl
      · simp [zero_pow some]
      · simp
      · split
        · next even =>
          obtain ⟨k, rfl⟩ : ∃ k, n = 2 * k := ⟨n / 2, by omega⟩
          rw [pow_mul]
          simp
        · next odd =>
          obtain ⟨k, rfl⟩ : ∃ k, n = 2 * k + 1 := ⟨n / 2, by omega⟩
          rw [pow_succ, pow_mul]
          simp
    · rfl

/-- An operation that keeps integers integers is folded over them as one on integers. -/
theorem foldlM_ints {f : Number → Number → Except Number.Fault Number} {g : Int → Int → Int}
    (each : ∀ m n, f (.int m) (.int n) = .ok (.int (g m n))) (ns : List Int) (k : Int) :
    (ns.map Number.int).foldlM f (.int k) = .ok (.int (ns.foldl g k)) := by
  induction ns generalizing k with
  | nil => rfl
  | cons n ns ih =>
    rw [List.map_cons, List.foldlM_cons, each]
    exact ih (g k n)

theorem sumOf_ints (ns : List Int) : sumOf (ns.map .int) = .ok (.int (RingOp.plus.total ns)) := by
  rw [sumOf, foldlM_ints (fun _ _ => rfl), RingOp.total, List.sum_eq_foldl]

theorem productOf_ints (ns : List Int) : productOf (ns.map .int) = .ok (.int (RingOp.times.total ns)) := by
  rw [productOf, foldlM_ints (fun _ _ => rfl), RingOp.total, List.prod_eq_foldl]

end Numbers

section Separation

variable {V : Vocabulary} {as : List Value}

theorem numbers_eq (terms : ∀ a ∈ as, IsTerm V a) : as.filterMap number? = (integers as).map .int := by
  rw [integers, List.map_filterMap]
  refine List.filterMap_congr fun a member => ?_
  cases terms a member <;> rfl

theorem int?_eq_some {v : Value} {n : Int} : v.int? = some n ↔ v = int n := by
  constructor
  · intro number
    unfold int? at number
    split at number
    · cases number; rfl
    · cases number
  · rintro rfl
    rfl

theorem mem_integers {n : Int} : n ∈ integers as ↔ int n ∈ as := by
  simp [integers, List.mem_filterMap, int?_eq_some]

@[simp] theorem integers_int_cons (n : Int) (as : List Value) : integers (int n :: as) = n :: integers as := rfl

theorem mem_others {a : Value} : a ∈ others as ↔ a ∈ as ∧ a.number? = none := by
  simp [others]

theorem separate_perm (terms : ∀ a ∈ as, IsTerm V a) : as.Perm ((integers as).map int ++ others as) := by
  induction as with
  | nil => exact .refl _
  | cons a as ih =>
    have rest := ih fun x member => terms x (by simp [member])
    cases terms a (by simp) with
    | integer n => exact rest.cons (int n)
    | atom | apply => exact (rest.cons _).trans List.perm_middle.symm

theorem Rewrites.separate (op : RingOp) (terms : ∀ a ∈ as, IsTerm V a) :
    Rewrites (call op.name as) (call op.name (int (op.total (integers as)) :: others as)) :=
  .trans (.permute op (separate_perm terms)) (.collect op (integers as) (others as))

theorem Rewrites.empty (op : RingOp) : Rewrites (call op.name []) (int op.unit) := by
  rw [← op.total_nil]
  exact .trans (.collect op [] []) (.sole op _)

theorem Rewrites.soleOrCall (op : RingOp) (ts : List Value) :
    Rewrites (call op.name ts) (Arithmetic.soleOrCall op.name ts) := by
  unfold Arithmetic.soleOrCall
  split
  · exact .sole op _
  · exact .refl _

theorem Rewrites.assemble (op : RingOp) (n : Int) (ts : List Value) :
    Rewrites (call op.name (int n :: ts)) (Symbolic.assemble op n ts) := by
  unfold Symbolic.assemble
  split
  · next empty =>
    rw [List.isEmpty_iff.1 empty]
    exact .sole op _
  · split
    · next neutral =>
      rw [neutral]
      exact .trans (.unit op ts) (.soleOrCall op ts)
    · exact .soleOrCall op _

end Separation

section Flattening

variable {V : Vocabulary} {as : List Value} {v : Value} {name : String}

theorem IsTerm.eq_call_of_argsOf (term : IsTerm V v) (found : v.argsOf? name = some as) : v = call name as := by
  cases term with
  | integer | atom => cases found
  | apply =>
    simp only [argsOf?, beq_iff_eq, Option.ite_none_right_eq_some, Option.some.injEq] at found
    rw [found.1, found.2]

/-- Arguments that are themselves sums of a sum, or products of a product, are spliced in by the laws. -/
theorem Rewrites.inline (op : RingOp) (terms : ∀ a ∈ as, IsTerm V a) :
    Rewrites (call op.name as) (call op.name (Arithmetic.inline op.name as)) := by
  have after : ∀ before : List Value,
      Rewrites (call op.name (before ++ as)) (call op.name (before ++ Arithmetic.inline op.name as)) := by
    induction as with
    | nil => exact fun before => .refl _
    | cons a as ih =>
      intro before
      have rest := fun before => ih (fun x member => terms x (by simp [member])) before
      simp only [Arithmetic.inline, List.flatMap_cons] at rest ⊢
      cases found : a.argsOf? op.name with
      | none => simpa using rest (before ++ [a])
      | some bs =>
        rw [(terms a (by simp)).eq_call_of_argsOf found]
        refine .trans (.splice op before bs as) ?_
        simpa using rest (before ++ bs)
  exact after []

theorem IsTerm.inline (op : RingOp) (terms : ∀ a ∈ as, IsTerm V a) :
    ∀ a ∈ Arithmetic.inline op.name as, IsTerm V a :=
  fun _ member => ((Rewrites.inline op terms).isTerm (.ofRing op terms)).arg member

theorem equal_sym {f : String} : (sym f).equal (sym name) = true ↔ f = name := by
  simp [equal, same, number?]

/-- Flattening at every depth is splicing again and again. -/
theorem Rewrites.flatArgs (op : RingOp) (terms : ∀ a ∈ as, IsTerm V a) :
    Rewrites (call op.name as) (call op.name (Value.flatArgs (sym op.name) as)) := by
  -- Along `flatArgs` the head is a variable, and the arguments on both sides change as it descends.
  have between : ∀ h as, h = sym op.name → (∀ a ∈ as, IsTerm V a) → ∀ before after : List Value,
      Rewrites (call op.name (before ++ as ++ after)) (call op.name (before ++ Value.flatArgs h as ++ after)) := by
    intro h as
    fun_induction Value.flatArgs h as with
    | case1 => exact fun _ _ before after => .refl _
    | case2 head k bs t xs nested rest =>
      rintro rfl terms before after
      have others := rest rfl fun a member => terms a (by simp [member])
      obtain ⟨f, rfl, rfl, _, _, args⟩ := (terms (.expr k bs t) (by simp)).expr
      by_cases same : f = op.name
      · subst same
        rw [if_pos (equal_sym.2 rfl)]
        refine .trans (v := call op.name (before ++ bs ++ (xs ++ after))) ?_ ?_
        · simpa using Rewrites.splice op before bs (xs ++ after)
        · refine .trans (nested rfl args before (xs ++ after)) ?_
          simpa using others (before ++ Value.flatArgs (sym op.name) bs) after
      · rw [if_neg (mt equal_sym.1 same)]
        simpa using others (before ++ [call f bs]) after
    | case3 head x xs _ rest =>
      rintro rfl terms before after
      have others := rest rfl fun a member => terms a (by simp [member])
      simpa using others (before ++ [x]) after
  simpa using between _ _ rfl terms [] []

theorem IsTerm.flatArgs (op : RingOp) (terms : ∀ a ∈ as, IsTerm V a) :
    ∀ a ∈ Value.flatArgs (sym op.name) as, IsTerm V a :=
  fun _ member => ((Rewrites.flatArgs op terms).isTerm (.ofRing op terms)).arg member

end Flattening

section Sums

variable {V : Vocabulary} {as : List Value} {v w : Value}

theorem IsTerm.equal_int (term : IsTerm V v) {n : Int} : v.equal (int n) = true ↔ v = int n := by
  cases term with
  | integer m => simp [equal, number?, Symbolic.equal_int]
  | atom | apply => simp [equal, same, number?]

theorem separate_terms (terms : ∀ a ∈ as, IsTerm V a) : separate as = ((integers as).map .int, others as) := by
  rw [separate, numbers_eq terms]
  rfl

theorem coefficient_ok (term : IsTerm V v) {c rest : Value} (run : coefficient v = .ok (c, rest)) :
    c = .null ∨ ∃ as, v = call "Times" as ∧ c = int (RingOp.times.total (integers as)) ∧
      rest = if (others as).isEmpty then .null else soleOrCall "Times" (others as) := by
  rw [coefficient] at run
  cases found : v.argsOf? "Times" with
  | none =>
    rw [found] at run
    cases run
    exact .inl rfl
  | some as =>
    obtain rfl := term.eq_call_of_argsOf found
    rw [found] at run
    simp only [separate_terms fun a => term.arg, productOf_ints] at run
    split at run
    · cases run
      exact .inl rfl
    · refine .inr ⟨as, rfl, ?_⟩
      simp only [orFail, bind, Except.bind] at run
      split at run <;> cases run <;> simp_all [soleOrCall]

/-- A term of a sum is left as it is, unless it is a product whose integers make one. -/
theorem simplifyTerm_ok (term : IsTerm V v) (run : simplifyTerm v = .ok w) :
    w = v ∨ ∃ as, v = call "Times" as ∧ RingOp.times.total (integers as) = 1 ∧ others as ≠ [] ∧
      w = soleOrCall "Times" (others as) := by
  obtain ⟨⟨c, rest⟩, parts, chosen⟩ := Except.bind_ok run
  rcases coefficient_ok term parts with rfl | ⟨as, rfl, rfl, rfl⟩
  · cases chosen
    exact .inl rfl
  · by_cases empty : (others as).isEmpty = true
    · rw [if_pos empty] at chosen
      simp only [isTruthy, Bool.and_false, Bool.false_eq_true, if_false] at chosen
      cases chosen
      exact .inl rfl
    · rw [if_neg empty] at chosen
      cases chosen
      split
      · next both =>
        have one := ((IsTerm.integer _ : IsTerm V _).equal_int).1 (Bool.and_eq_true_iff.1 both).1
        simp only [Value.number.injEq, Number.int.injEq] at one
        exact .inr ⟨as, rfl, one, by simpa using empty, rfl⟩
      · exact .inl rfl

theorem Rewrites.simplifyTerm (term : IsTerm V v) (run : Arithmetic.simplifyTerm v = .ok w) : Rewrites v w := by
  rcases simplifyTerm_ok term run with rfl | ⟨as, rfl, one, _, rfl⟩
  · exact .refl _
  · have separated := Rewrites.separate .times fun a member => term.arg (a := a) member
    rw [one] at separated
    exact .trans separated (.trans (.unit .times _) (.soleOrCall .times _))

/-- The result of a sum of several terms: their integers are added up in front of the others. -/
theorem plus_ok (terms : ∀ a ∈ as, IsTerm V a) (several : 2 ≤ as.length) (run : plus as = .ok w) :
    ∃ ts, (others (inline "Plus" as)).mapM simplifyTerm = .ok ts ∧
      w = assemble .plus (RingOp.plus.total (integers (inline "Plus" as))) ts := by
  have inner : ∀ a ∈ inline "Plus" as, IsTerm V a := IsTerm.inline .plus terms
  match as, several with
  | a :: b :: rest, _ =>
    simp only [plus] at run
    rw [numbers_eq inner, sumOf_ints] at run
    obtain ⟨total, summed, run⟩ := Except.bind_ok run
    obtain ⟨ts, simplified, run⟩ := Except.bind_ok run
    cases summed
    refine ⟨ts, simplified, ?_⟩
    rw [assemble]
    by_cases empty : ts.isEmpty = true
    · rw [if_pos empty] at run ⊢
      cases run
      rfl
    · rw [if_neg empty] at run ⊢
      cases run
      simp only [Number.isZero, equal_int, decide_eq_true_eq]
      rfl

theorem int_mem_inline {n : Int} {name : String} (member : int n ∈ as) : int n ∈ inline name as :=
  List.mem_flatMap.2 ⟨int n, member, by simp [argsOf?]⟩

/-- The result of a product of several terms: their integers are multiplied in front of the others, and
zero absorbs them. -/
theorem times_ok (terms : ∀ a ∈ as, IsTerm V a) (several : 2 ≤ as.length) (run : times as = .ok w) :
    w = if RingOp.times.total (integers (inline "Times" as)) = 0 then int 0
      else assemble .times (RingOp.times.total (integers (inline "Times" as))) (others (inline "Times" as)) := by
  have inner : ∀ a ∈ inline "Times" as, IsTerm V a := IsTerm.inline .times terms
  match as, several with
  | a :: b :: rest, _ =>
    simp only [times] at run
    -- Zero is looked for twice: among the arguments as they stand, and in the product of all integers.
    by_cases zero : ((a :: b :: rest).any (·.equal (int 0))) = true
    · rw [if_pos zero] at run
      cases run
      obtain ⟨x, member, isZero⟩ := List.any_eq_true.1 zero
      rw [(terms x member).equal_int.1 isZero] at member
      have vanishes : RingOp.times.total (integers (inline "Times" (a :: b :: rest))) = 0 :=
        List.prod_eq_zero (mem_integers.2 (int_mem_inline member))
      rw [if_pos vanishes]
    · rw [if_neg zero, separate_terms inner, productOf_ints] at run
      simp only [orFail, bind, Except.bind, Number.isZero, Number.isOne, equal_int, decide_eq_true_eq] at run
      by_cases zero : RingOp.times.total (integers (inline "Times" (a :: b :: rest))) = 0
      · rw [if_pos zero] at run ⊢
        cases run
        rfl
      · rw [if_neg zero] at run ⊢
        rw [assemble]
        by_cases empty : (others (inline "Times" (a :: b :: rest))).isEmpty = true
        · rw [if_pos empty] at run ⊢
          cases run
          split
          · next one => rw [one]
          · rfl
        · rw [if_neg empty] at run ⊢
          cases run
          rfl

theorem Rewrites.plus (terms : ∀ a ∈ as, IsTerm V a) (run : Arithmetic.plus as = .ok w) :
    Rewrites (call "Plus" as) w := by
  by_cases several : 2 ≤ as.length
  · obtain ⟨ts, simplified, rfl⟩ := plus_ok terms several run
    have inner := IsTerm.inline .plus terms
    have each : List.Forall₂ Rewrites (others (Arithmetic.inline "Plus" as)) ts := by
      have known : ∀ a ∈ others (Arithmetic.inline "Plus" as), IsTerm V a :=
        fun a member => inner a (mem_others.1 member).1
      refine ((List.forall₂_and_left _ _).2 ⟨known, Except.mapM_ok simplified⟩).imp ?_
      exact fun a b ⟨term, here⟩ => Rewrites.simplifyTerm term here
    refine .trans (.inline .plus terms) (.trans (.separate .plus inner) ?_)
    exact .trans (.args (.cons (.refl _) each)) (.assemble .plus _ ts)
  · match as, several, run with
    | [], _, run =>
      cases run
      exact .empty .plus
    | [a], _, run =>
      cases run
      exact .sole .plus w
    | _ :: _ :: _, few, _ => simp at few

theorem Rewrites.times (terms : ∀ a ∈ as, IsTerm V a) (run : Arithmetic.times as = .ok w) :
    Rewrites (call "Times" as) w := by
  by_cases several : 2 ≤ as.length
  · have inner := IsTerm.inline .times terms
    refine .trans (.inline .times terms) (.trans (.separate .times inner) ?_)
    rw [times_ok terms several run]
    split
    · next zero =>
      rw [RingOp.name, zero]
      exact .absorb _
    · exact .assemble .times _ _
  · match as, several, run with
    | [], _, run =>
      cases run
      exact .empty .times
    | [a], _, run =>
      cases run
      exact .sole .times w
    | _ :: _ :: _, few, _ => simp at few

end Sums

section Powers

variable {V : Vocabulary} {a w : Value} {m n : Int}

theorem powerOfNumbers_eq (positive : 0 ≤ n) :
    powerOfNumbers (int m) (int n) (.int m) (.int n) = .ok (int (m ^ n.toNat)) := by
  have power : (Number.int m).pow (.int n) = .ok (.int (m ^ n.toNat)) := by
    simp only [Number.pow, Number.combine, Number.quantity, Number.Quantity.pow, if_pos positive, powInt_eq]
    rfl
  simp only [powerOfNumbers, Number.isZero, Number.isOne, equal_int, compare_gt_int, decide_eq_true_eq, power,
    Number.collapse, Number.quantity, Number.Quantity.collapse]
  by_cases zero : m = 0
  · by_cases some : 0 < n
    · have vanishes : (0 : Int) ^ n.toNat = 0 := zero_pow (by omega)
      simp [zero, some, orFail, bind, Except.bind, pure, Except.pure, vanishes]
    · obtain rfl : n = 0 := by omega
      simp [zero, orFail, bind, Except.bind, pure, Except.pure]
  · by_cases one : m = 1
    · simp [one, pure, Except.pure]
    · by_cases none : n = 0
      · simp [zero, one, none, pure, Except.pure]
      · by_cases once : n = 1
        · simp [zero, one, once, pure, Except.pure]
        · simp [zero, one, none, once, pure, Except.pure]

/-- The result of a power: integers are raised, and the powers with exponents zero and one vanish. -/
theorem power_ok (term : IsTerm V a) (positive : 0 ≤ n)
    (run : power (call "Power" [a, int n]) [a, int n] = .ok w) :
    (∃ m, a = int m ∧ w = int (m ^ n.toNat)) ∨ n = 0 ∧ w = int 1 ∨ n = 1 ∧ w = a ∨
      a.number? = none ∧ w = call "Power" [a, int n] := by
  cases number : a.number? with
  | some k =>
    obtain ⟨m, rfl, rfl⟩ := term.number number
    have powered : powerOfNumbers (int m) (int n) (.int m) (.int n) = .ok w := run
    rw [powerOfNumbers_eq positive] at powered
    cases powered
    exact .inl ⟨m, rfl, rfl⟩
  | none =>
    have exponent : ∀ k : Int, (int n).equal (int k) = decide (n = k) := fun k => equal_int
    have base : a.equal (int 1) = false := by
      rw [Bool.eq_false_iff, Ne, term.equal_int]
      rintro rfl
      cases number
    simp only [power, number, exponent, base, decide_eq_true_eq, Bool.false_eq_true, if_false] at run
    split at run
    · next zero =>
      cases run
      exact .inr (.inl ⟨zero, rfl⟩)
    · split at run
      · next one =>
        cases run
        exact .inr (.inr (.inl ⟨one, rfl⟩))
      · cases run
        exact .inr (.inr (.inr ⟨rfl, rfl⟩))

theorem Rewrites.powerCall (term : IsTerm V a) (positive : 0 ≤ n)
    (run : Arithmetic.power (call "Power" [a, int n]) [a, int n] = .ok w) :
    Rewrites (call "Power" [a, int n]) w := by
  rcases power_ok term positive run with ⟨m, rfl, rfl⟩ | ⟨rfl, rfl⟩ | ⟨rfl, rfl⟩ | ⟨_, rfl⟩
  · exact .power m positive
  · exact .powerZero a
  · exact .powerOne _
  · exact .refl _

/-- The result of an absolute value: it is taken of an integer, and a product can change its sign. -/
theorem abs_ok (term : IsTerm V a) (run : Arithmetic.abs (call "Abs" [a]) [a] = .ok w) :
    (∃ m, a = int m ∧ w = int m.natAbs) ∨
      (∃ m rest, a = call "Times" (int m :: rest) ∧
        w = call "Abs" [call "Times" [int (-m), soleOrCall "Times" rest]]) ∨
      a.number? = none ∧ w = call "Abs" [a] := by
  cases number : a.number? with
  | some k =>
    obtain ⟨m, rfl, rfl⟩ := term.number number
    cases run
    exact .inl ⟨m, rfl, rfl⟩
  | none =>
    simp only [Arithmetic.abs, number] at run
    cases found : a.argsOf? "Times" with
    | none =>
      rw [found] at run
      cases run
      exact .inr (.inr ⟨rfl, rfl⟩)
    | some as =>
      obtain rfl := term.eq_call_of_argsOf found
      simp only [found] at run
      match as, run with
      | f :: rest, run =>
        simp only [absOfProduct] at run
        cases first : f.number? with
        | none =>
          rw [first] at run
          cases run
          exact .inr (.inr ⟨rfl, rfl⟩)
        | some k =>
          obtain ⟨m, rfl, rfl⟩ := (term.arg (a := f) (by simp)).number first
          simp only [first] at run
          obtain ⟨below, _, run⟩ := Except.bind_ok run
          cases below with
          | false =>
            cases run
            exact .inr (.inr ⟨rfl, rfl⟩)
          | true =>
            refine .inr (.inl ⟨m, rest, rfl, ?_⟩)
            cases run
            cases rest with
            | nil => rfl
            | cons r rs => cases rs <;> rfl

theorem Rewrites.absCall (term : IsTerm V a) (run : Arithmetic.abs (call "Abs" [a]) [a] = .ok w) :
    Rewrites (call "Abs" [a]) w := by
  rcases abs_ok term run with ⟨m, rfl, rfl⟩ | ⟨m, rest, rfl, rfl⟩ | ⟨_, rfl⟩
  · exact .abs m
  · exact .absProduct m rest
  · exact .refl _

end Powers

theorem Rewrites.fold {V : Vocabulary} {f : String} {as : List Value} {w : Value} (term : IsTerm V (call f as))
    (run : Symbolic.fold f as = .ok w) : Rewrites (call f as) w := by
  have terms : ∀ a ∈ as, IsTerm V a := fun a member => term.arg member
  cases term.legal with
  | ring op =>
    cases op with
    | plus => exact .plus terms run
    | times => exact .times terms run
  | minus a =>
    cases run
    exact .minus a
  | subtract a b =>
    cases run
    exact .subtract a b
  | abs a => exact .absCall (terms a (by simp)) run
  | power a positive => exact .powerCall (terms a (by simp)) positive run
  | free as free =>
    rw [fold_free free] at run
    cases run
    exact .refl _

theorem Rewrites.sorted {V : Vocabulary} {op : RingOp} {as : List Value} {w : Value}
    (terms : ∀ a ∈ as, IsTerm V a)
    (run : (call op.name (Value.flatArgs (sym op.name) as)).sortArgs = .ok w) : Rewrites (call op.name as) w := by
  obtain ⟨bs, perm, rfl⟩ := sortArgs_perm run
  exact .trans (.flatArgs op terms) (.permute op perm.symm)

end Symbolic
