import Symbolic.Proofs.Evaluation.Prospects

/-!
What arithmetic leaves as it is. A power that cannot be computed stays a power, whatever number is added to it, and
whether its absolute value is above a number is left open (`Inert.harmless_above`). A quotient by zero is a multiple
of the reciprocal of zero, and a multiple stays what it is (`Multiple.rests`). Main statement: half of a multiple, and
of zero and a multiple added up, is a number or again a multiple (`harmless_half`, `harmless_zeroPlus` and
`harmless_byZero`).
-/
namespace Symbolic

open Value Session
open Arithmetic (orFail lift inline separate)

/-! ### A number and something else -/

section Couples

variable {n : Number} {w : Value} {as bs : List Value}

theorem Couple.of_perm (couple : Couple n w as) (perm : bs.Perm as) : Couple n w bs := by
  have both := perm.trans couple.perm
  obtain ⟨x, y, rfl⟩ := List.length_eq_two.1 both.length_eq
  have first : x = .number n ∨ x = w := by simpa using both.mem_iff.1 (List.mem_cons_self (a := x) (l := [y]))
  rcases first with rfl | rfl
  · cases List.perm_singleton.1 (both.cons_inv)
    exact .before
  · cases List.perm_singleton.1 ((both.trans (.swap ..)).cons_inv)
    exact .after

theorem Couple.mem (couple : Couple n w as) {x : Value} (member : x ∈ as) : x = .number n ∨ x = w := by
  simpa using couple.perm.mem_iff.1 member

theorem Couple.apart (couple : Couple n w as) {f : String} (other : w.argsOf? f = none) :
    ∀ x ∈ as, x.argsOf? f = none := fun x member => by
  rcases couple.mem member with rfl | rfl
  · rfl
  · exact other

theorem Couple.separate (couple : Couple n w as) (callable : w.canHead = true) : separate as = ([n], [w]) := by
  have symbolic := number_of_callable callable
  have numeric : (Value.number n).number? = some n := rfl
  cases couple <;> simp [Arithmetic.separate, symbolic, numeric]

theorem Couple.rest {s : Session} {c : ContextId} (couple : Couple n w as) (rests : s.Fixes c w) :
    ∀ x ∈ as, s.Fixes c x := fun x member => by
  rcases couple.mem member with rfl | rfl
  · exact fixes_number n
  · exact rests

/-- For a number and something that is not flattened the order does not matter. -/
theorem Couple.proceeds {s : Session} {c : ContextId} {k : Nat} {P : Value → Prop} (op : RingOp)
    (couple : Couple n w as) (apart : ∀ f ∈ ["Sequence", "List", op.name], w.argsOf? f = none)
    (given : ∀ cs, Couple n w cs → ∀ q, fold op.name cs = .ok q →
      if q.differs (call op.name cs) then s.Leads c k q P else P (call op.name cs)) : op.Proceeds s c k as P where
  single := couple.apart (apart _ (by simp))
  given cs _ perm := by
    have flat : flatArgs (sym op.name) as = as := flatArgs_of_flat (couple.apart (apart _ (by simp)))
    have paired : Couple n w cs := couple.of_perm (perm.trans (.of_eq flat))
    exact ⟨paired.apart (apart _ (by simp)), given cs paired⟩

end Couples

/-! ### Powers and numbers -/

/-- A power that stays as it is. -/
structure Inert (s : Session) (c : ContextId) (z : Value) : Prop where
  power : ∃ as, z = call "Power" as
  rests : s.Fixes c z

/-- A value, and sums of it and a number. -/
inductive Shifted (z : Value) : Value → Prop
  | alone : Shifted z z
  | moved {n : Number} {as : List Value} : Couple n z as → Shifted z (call "Plus" as)

def Absolute (z v : Value) : Prop := ∃ w, Shifted z w ∧ v = call "Abs" [w]

/-- The sum of a number and something else is that alone if the number is zero. -/
theorem plus_couple {n : Number} {z q : Value} {cs : List Value} (couple : Couple n z cs) (callable : z.canHead = true)
    (other : z.argsOf? "Plus" = none) (plain : Arithmetic.simplifyTerm z = .ok z) (made : Arithmetic.plus cs = .ok q) :
    ∃ total, Arithmetic.sumOf [n] = .ok total ∧ q = if total.isZero then z else call "Plus" [.number total, z] := by
  have flat : inline "Plus" cs = cs := inline_of_flat (couple.apart other)
  obtain ⟨numbers, others⟩ := Prod.mk.inj (couple.separate callable)
  have two : ∃ x y, cs = [x, y] := by cases couple <;> exact ⟨_, _, rfl⟩
  obtain ⟨x, y, rfl⟩ := two
  simp only [Arithmetic.plus, flat, numbers, others, List.mapM_cons, List.mapM_nil, plain] at made
  cases sum : Arithmetic.sumOf [n] with
  | error f =>
    rw [sum] at made
    cases made
  | ok total =>
    rw [sum] at made
    refine ⟨total, rfl, (Except.ok.inj made).symm.trans ?_⟩
    by_cases zero : total.isZero = true
    · rw [if_pos zero, if_pos zero]
      rfl
    · rw [if_neg zero, if_neg zero]
      rfl

section Inert

variable {s : Session} {c : ContextId} {z a b v : Value} {as : List Value} {p : Number → Prop} {n : Nat}
  (calculates : s.Calculates c) (inert : Inert s c z)

include inert

theorem Inert.apart {f : String} (other : f ≠ "Power") : z.argsOf? f = none := by
  obtain ⟨as, rfl⟩ := inert.power
  simp [argsOf?, other.symm]

theorem Inert.shifted_apart (shifted : Shifted z v) {f : String} (other : f ≠ "Power") (another : f ≠ "Plus") :
    v.argsOf? f = none := by
  cases shifted with
  | alone => exact inert.apart other
  | moved => simp [argsOf?, another.symm]

theorem Inert.proceeds_sum {m : Number} (couple : Couple m z as)
    (next : ∀ m, s.Leads c n (call "Plus" [.number m, z]) (Shifted z)) : RingOp.plus.Proceeds s c n as (Shifted z) := by
  refine couple.proceeds .plus ?_ fun cs couple q made => ?_
  · intro f member
    refine inert.apart ?_
    rintro rfl
    revert member
    decide
  have leads : s.Leads c n q (Shifted z) := by
    obtain ⟨zs, rfl⟩ := inert.power
    obtain ⟨t, -, same⟩ := plus_couple couple rfl rfl rfl made
    rw [same]
    split
    · exact (inert.rests.mono fun _ same => same ▸ .alone).leads n
    · exact next t
  split
  · exact leads
  · exact .moved couple

include calculates

/-- Sums of a power and numbers stay such sums. -/
theorem Inert.harmless_shifted (shifted : Shifted z v) : s.Harmless c v (Shifted z) := by
  cases shifted with
  | alone => exact inert.rests.mono fun _ same => same ▸ .alone
  | @moved m as couple =>
    suffices leads : ∀ n m as, Couple m z as → s.Leads c n (call "Plus" as) (Shifted z) from
      harmless_of_leads fun n => leads (n + 1) m as couple
    clear couple
    intro n
    induction n with
    | zero => exact fun _ _ _ => leads_zero
    | succ n ih =>
      intro m as couple
      have rest := couple.rest inert.rests
      have proceeds := inert.proceeds_sum couple fun m => ih m _ .before
      cases couple <;> exact leads_ring_fixes calculates .plus rest proceeds

theorem Inert.harmless_difference (first : s.Serves c a (· = z)) (y : Number) :
    s.Harmless c (call "Subtract" [a, .number y]) (Shifted z) := by
  refine harmless_of_leads fun n => ?_
  refine leads_plain (f := .subtract) calculates (.cons first (.cons (counts_number y) .nil)) (by decide) (by decide)
    fun bs holds => ?_
  obtain ⟨z, _, rfl, ⟨y, rfl, rfl⟩, rfl⟩ := forall₂_pair.1 holds
  have single : ∀ b ∈ [z, .number y], b.argsOf? "Sequence" = none ∧ b.argsOf? "List" = none :=
    List.forall_mem_cons.2 ⟨⟨inert.apart (by decide), inert.apart (by decide)⟩, single_numbers [y]⟩
  refine ⟨single, proceeds_of_pure (x := .ok (call "Plus" [z, call "Times" [int (-1), .number y]])) rfl ?_⟩
  rintro _ ⟨⟩
  refine leads_of_new (differs_call rfl rfl) ?_
  cases n with
  | zero => exact leads_zero
  | succ n =>
    refine leads_ring calculates (.cons (inert.rests.serves rfl) (.cons (counts_opposite calculates y) .nil)) .plus
      fun bs holds => ?_
    obtain ⟨_, _, rfl, ⟨m, -, rfl⟩, rfl⟩ := forall₂_pair.1 holds
    exact inert.proceeds_sum .after fun m => (inert.harmless_shifted calculates (.moved .before)).leads n

theorem Inert.harmless_absolute (arg : s.Serves c a (Shifted z)) : s.Harmless c (call "Abs" [a]) (Absolute z) := by
  refine harmless_of_leads fun n => ?_
  refine leads_plain (f := .abs) calculates (.cons arg .nil) (by decide) (by decide) fun bs holds => ?_
  obtain ⟨w, shifted, rfl⟩ := forall₂_single.1 holds
  have apart {f : String} (other : f ≠ "Power") (another : f ≠ "Plus") := inert.shifted_apart shifted other another
  refine ⟨List.forall_mem_singleton.2 ⟨apart (by decide) (by decide), apart (by decide) (by decide)⟩, ?_⟩
  have callable : w.canHead = true := by
    obtain ⟨as, rfl⟩ := inert.power
    cases shifted <;> rfl
  have stays : Arithmetic.abs (call "Abs" [w]) [w] = .ok (call "Abs" [w]) := by
    rw [Arithmetic.abs, number_of_callable callable, apart (by decide) (by decide)]
  refine proceeds_of_pure (x := Arithmetic.abs (call "Abs" [w]) [w]) rfl fun q given => ?_
  rw [stays] at given
  exact leads_given (.inl (Except.ok.inj given).symm) (Except.ok.inj given ▸ ⟨w, shifted, rfl⟩)

/-- Whether such an absolute value is above a number is left open. -/
theorem Inert.harmless_undecided (first : s.Serves c a (Absolute z)) (second : s.Counts c b p) :
    s.Harmless c (call "Greater" [a, b]) fun r => r.isTrue = false := by
  refine harmless_of_leads fun n => ?_
  refine leads_plain (f := .order .gt) calculates (.cons first (.cons second .nil)) (by decide) (by decide)
    fun bs holds => ?_
  obtain ⟨_, _, ⟨w, shifted, rfl⟩, ⟨y, -, rfl⟩, rfl⟩ := forall₂_pair.1 holds
  refine ⟨List.forall_mem_cons.2 ⟨⟨rfl, rfl⟩, single_numbers [y]⟩, fun d i r u run => ?_⟩
  -- The absolute value is evaluated once more, and still is no number.
  have serves : s.Serves c w (Shifted z) := (inert.harmless_shifted calculates shifted).serves shifted
  obtain ⟨_, w, ran, run⟩ := Step.bind_ok run
  obtain ⟨⟨x, -, rfl⟩, j, rfl⟩ := (inert.harmless_absolute calculates serves).run ran
  obtain ⟨_, w, ran, run⟩ := Step.bind_ok run
  obtain ⟨rfl, k, rfl⟩ := (harmless_atom rfl).run ran
  obtain ⟨rfl, rfl⟩ := Step.pure_ok.1 run
  exact ⟨⟨k, rfl⟩, leads_given (.inl rfl) rfl⟩

/-- Whether a power is further from a number than another number is left open. -/
theorem Inert.harmless_above (first : s.Serves c a (· = z)) (y : Number) (second : s.Counts c b p) :
    s.Harmless c (call "Greater" [call "Abs" [call "Subtract" [a, .number y]], b]) fun r => r.isTrue = false := by
  have difference : s.Serves c (call "Subtract" [a, .number y]) (Shifted z) :=
    serves_of_apart (inert.harmless_difference calculates first y) fun _ shifted =>
      inert.shifted_apart shifted (by decide) (by decide)
  refine inert.harmless_undecided calculates ?_ second
  refine (inert.harmless_absolute calculates difference).mono fun v absolute => ⟨absolute, fun same => ?_⟩
  -- The absolute value of a difference is the same only as one of a difference.
  obtain ⟨w, shifted, rfl⟩ := absolute
  obtain ⟨_, _, ⟨⟩, -, items⟩ := same_expr same
  rw [sameItems, Bool.and_eq_true] at items
  obtain ⟨_, bs, rfl, head, -⟩ := same_expr items.1
  have apart := inert.shifted_apart shifted (f := "Subtract") (by decide) (by decide)
  rw [same_symbol_iff.1 head] at apart
  simp [argsOf?] at apart

end Inert

/-! ### Multiples -/

def reciprocal : Value := call "Power" [int 0, int (-1)]

/-- The reciprocal of zero, or its product with a number that stays in front of it. -/
def Multiple (v : Value) : Prop := v = reciprocal ∨ ∃ p : Number, p.Stands ∧ v = call "Times" [.number p, reciprocal]

def Scalable (v : Value) : Prop := (∃ x, v = .number x) ∨ Multiple v

/-- Numbers and multiples, where the only zero is the integer. -/
def Graded (v : Value) : Prop := (∃ x : Number, (x.isZero = true → x = .int 0) ∧ v = .number x) ∨ Multiple v

theorem Graded.scalable {v : Value} (graded : Graded v) : Scalable v :=
  graded.imp_left fun number => number.imp fun _ => And.right

theorem Multiple.callable {v : Value} (multiple : Multiple v) : v.canHead = true := by
  rcases multiple with rfl | ⟨p, -, rfl⟩ <;> rfl

theorem Scalable.apart {v : Value} (scalable : Scalable v) {f : String} (other : f ≠ "Power") (another : f ≠ "Times") :
    v.argsOf? f = none := by
  rcases scalable with ⟨x, rfl⟩ | rfl | ⟨p, -, rfl⟩
  · rfl
  · simp [argsOf?, reciprocal, other.symm]
  · simp [argsOf?, another.symm]

/-- The number in front of a multiple is not one, so that it stays. -/
theorem Multiple.simplifyTerm {v : Value} (multiple : Multiple v) : Arithmetic.simplifyTerm v = .ok v := by
  rcases multiple with rfl | ⟨p, stands, rfl⟩
  · rfl
  · have product : Arithmetic.productOf [p] = .ok p.once := by
      rw [Arithmetic.productOf, List.foldlM_cons, Number.mul_one_eq]
      rfl
    have unit : (Value.number p.once).equal (int 1) = false := (Number.isOne_once p).trans stands.other
    have coefficient : Arithmetic.coefficient (call "Times" [.number p, reciprocal]) =
        .ok (.number p.once, reciprocal) := by
      show (orFail (Arithmetic.productOf [p]) >>= fun q => _) = _
      rw [product]
      rfl
    rw [Arithmetic.simplifyTerm, coefficient]
    show Except.ok (if (Value.number p.once).equal (int 1) && reciprocal.isTruthy then reciprocal else _) = _
    rw [unit, Bool.false_and]
    rfl

theorem times_mixed {w : Value} (callable : w.canHead = true) (other : w.argsOf? "Times" = none) {cs : List Value}
    {ns : List Number} {q : Value} (perm : cs.Perm (w :: ns.map .number))
    (some : ns ≠ []) (made : Arithmetic.times cs = .ok q) :
    q = int 0 ∨ q = w ∨ ∃ p : Number, p.isZero = false ∧ p.isOne = false ∧ q = call "Times" [.number p, w] := by
  have flat : inline "Times" cs = cs := inline_of_flat fun x member => by
    rcases List.mem_cons.1 (perm.mem_iff.1 member) with rfl | number
    · exact other
    · exact ordinary_numbers ns "Times" x number
  have symbolic := number_of_callable callable
  have numeric (x : Number) : (Value.number x).number? = .some x := rfl
  have others : cs.filter (·.number?.isNone) = [w] := by
    refine List.perm_singleton.1 ((perm.filter _).trans (.of_eq ?_))
    simp [symbolic, numeric, List.filter_map, Function.comp_def]
  have two : ∃ x y rest, cs = x :: y :: rest := by
    have length := perm.length_eq
    have nonempty := List.length_pos_iff.2 some
    rw [List.length_cons, List.length_map] at length
    rcases cs with _ | ⟨x, _ | ⟨y, rest⟩⟩
    · simp at length
    · simp only [List.length_cons, List.length_nil] at length
      omega
    · exact ⟨x, y, rest, rfl⟩
  obtain ⟨x, y, rest, rfl⟩ := two
  simp only [Arithmetic.times, flat, separate, others] at made
  split at made
  · exact .inl (Except.ok.inj made).symm
  cases product : Arithmetic.productOf ((x :: y :: rest).filterMap number?) with
  | error f =>
    rw [product] at made
    cases made
  | ok p =>
    rw [product] at made
    replace made : (if p.isZero then Except.ok (int 0) else
      .ok (Arithmetic.soleOrCall "Times" (if p.isOne then [w] else [.number p, w]))) = Except.ok q := made
    by_cases zero : p.isZero = true
    · rw [if_pos zero] at made
      exact .inl (Except.ok.inj made).symm
    rw [if_neg zero] at made
    by_cases one : p.isOne = true
    · rw [if_pos one] at made
      exact .inr (.inl (Except.ok.inj made).symm)
    rw [if_neg one] at made
    exact .inr (.inr ⟨p, Bool.eq_false_iff.2 zero, Bool.eq_false_iff.2 one, (Except.ok.inj made).symm⟩)

/-- The product of several numbers is the integer zero or it is not zero. -/
theorem times_numbers_graded {ns : List Number} {r : Value} (several : 2 ≤ ns.length)
    (made : Arithmetic.times (ns.map .number) = .ok r) :
    ∃ x : Number, (x.isZero = true → x = .int 0) ∧ r = .number x := by
  have zero : ∃ x : Number, (x.isZero = true → x = .int 0) ∧ int 0 = .number x := ⟨.int 0, fun _ => rfl, rfl⟩
  rcases ns with _ | ⟨a, _ | ⟨b, ns⟩⟩
  · simp at several
  · simp at several
  have flat := inline_numbers (a :: b :: ns) "Times"
  have separated := separate_numbers (a :: b :: ns)
  simp only [List.map_cons] at flat separated
  simp only [List.map_cons, Arithmetic.times, flat, separated] at made
  split at made
  · exact Except.ok.inj made ▸ zero
  cases product : Arithmetic.productOf (a :: b :: ns) with
  | error f =>
    rw [product] at made
    cases made
  | ok p =>
    rw [product] at made
    replace made : (if p.isZero then Except.ok (int 0) else .ok (if p.isOne then int 1 else .number p)) =
      Except.ok r := made
    split at made
    · exact Except.ok.inj made ▸ zero
    · next nonzero =>
      refine Except.ok.inj made ▸ ?_
      split
      · exact ⟨.int 1, by decide +kernel, rfl⟩
      · exact ⟨p, fun vanishes => absurd vanishes nonzero, rfl⟩

section Multiples

variable {s : Session} {c : ContextId} {a b v : Value} {as : List Value} {p : Number → Prop} (calculates : s.Calculates c)

include calculates

theorem calculates_limited (recursion iteration : Int) : (s.limited recursion iteration).Calculates c :=
  ⟨calculates.standard, fun f => (calculates.silent f).of_contents rfl rfl⟩

theorem factor_limited (recursion iteration : Int) : Factor (s.limited recursion iteration) c reciprocal :=
  factor_reciprocal (b := .int 0) (calculates_limited calculates recursion iteration) (by decide +kernel)

theorem Multiple.rests (multiple : Multiple v) : s.Fixes c v := by
  refine harmless_of_comes (k := 2) (j := 0) fun recursion iteration => ⟨.ok v, fun _ same => (Except.ok.inj same).symm, ?_⟩
  have factor := factor_limited calculates recursion iteration
  rcases multiple with rfl | ⟨p, stands, rfl⟩
  · exact factor.rests.mono (by omega) (by omega)
  · exact factor.comes_scaled (calculates_limited calculates recursion iteration) .before stands

theorem Scalable.rests (scalable : Scalable v) : s.Fixes c v := by
  rcases scalable with ⟨x, rfl⟩ | multiple
  · exact fixes_number x
  · exact multiple.rests calculates

theorem leads_multiple {n : Nat} (multiple : Multiple v) : s.Leads c n v Graded :=
  ((multiple.rests calculates).mono fun _ same => same ▸ .inr multiple).leads n

theorem harmless_once {n : Number} (couple : Couple n reciprocal as) : s.Harmless c (call "Times" as) Graded := by
  cases rests : n.isRestless with
  | true =>
    have zero : (Number.int 0).isZero = true := by decide +kernel
    exact ((factor_reciprocal calculates zero).endless calculates couple rests).harmless
  | false =>
    refine harmless_of_comes (k := 2) (j := 1) fun recursion iteration => ?_
    obtain ⟨o, product, stands, comes⟩ :=
      (factor_limited calculates recursion iteration).comes_product (calculates_limited calculates _ _) couple rests
    refine ⟨o, fun r same => ?_, comes⟩
    subst same
    cases product with
    | zero => exact .inl ⟨.int 0, fun _ => rfl, rfl⟩
    | one => exact .inr (.inl rfl)
    | scaled => exact .inr (.inr ⟨n, stands n rfl, rfl⟩)

theorem harmless_twice (p m : Number) (stands : p.Stands) :
    s.Harmless c (call "Times" [call "Times" [.number p, reciprocal], .number m]) Graded := by
  refine harmless_of_leads fun n => ?_
  have rest : ∀ x ∈ [call "Times" [.number p, reciprocal], .number m], s.Fixes c x :=
    forall_mem_pair.2 ⟨Multiple.rests calculates (.inr ⟨p, stands, rfl⟩), fixes_number m⟩
  have flat : flatArgs (sym "Times") [call "Times" [.number p, reciprocal], .number m] =
      [.number p, reciprocal, .number m] := by
    have head : (sym "Times").equal (sym "Times") = true := by simp [Value.equal, number?, same_refl]
    have inner : (sym "Power").equal (sym "Times") = false := by decide +kernel
    simp [flatArgs, head, reciprocal, inner]
  refine leads_ring_fixes calculates .times rest
    ⟨forall_mem_pair.2 ⟨rfl, rfl⟩, fun cs _ perm => ?_⟩
  replace perm : cs.Perm (reciprocal :: [p, m].map .number) := perm.trans (.trans (.of_eq flat) (.swap ..))
  refine ⟨fun y member => ?_, fun q made => ?_⟩
  · rcases List.mem_cons.1 (perm.mem_iff.1 member) with rfl | number
    · rfl
    · exact ordinary_numbers [p, m] "List" y number
  obtain ⟨x, y, z, rfl⟩ := List.length_eq_three.1 perm.length_eq
  rcases times_mixed rfl rfl perm (by simp) made with rfl | rfl | ⟨k, -, -, rfl⟩
  · exact leads_given (.inr rfl) (.inl ⟨.int 0, fun _ => rfl, rfl⟩)
  · exact leads_of_new (differs_call rfl rfl) (leads_multiple calculates (.inl rfl))
  · -- The new product has fewer factors.
    have new : (call "Times" [.number k, reciprocal]).differs (call "Times" [x, y, z]) = true := by
      simp [differs, Value.equal, number?, Value.same, sameItems]
    exact leads_of_new new ((harmless_once calculates .before).leads n)

theorem harmless_numbers (x y : Number) : s.Harmless c (call "Times" [.number x, .number y]) Graded := by
  refine (harmless_reckon calculates .times (counts_number x) (counts_number y)).mono ?_
  rintro r ⟨x, y, rfl, rfl, made⟩
  obtain ⟨e, sorted, made⟩ := Except.bind_ok made
  obtain ⟨cs, perm, rfl⟩ := sortArgs_perm sorted
  obtain ⟨ms, rfl⟩ := exists_numbers [x, y] perm
  have several : 2 ≤ ms.length := by simpa using perm.length_eq.ge
  exact .inl (times_numbers_graded several made)

theorem harmless_half (first : s.Serves c a Scalable) : s.Harmless c (call "Divide" [a, int 2]) Graded := by
  refine harmless_of_leads fun n => ?_
  refine leads_plain (f := .divide) calculates (.cons first (.cons (counts_number (.int 2)) .nil)) (by decide)
    (by decide) fun bs holds => ?_
  obtain ⟨v, _, scalable, ⟨_, rfl, rfl⟩, rfl⟩ := forall₂_pair.1 holds
  have single := fun f other another => scalable.apart (f := f) other another
  refine ⟨List.forall_mem_cons.2 ⟨⟨single _ (by decide) (by decide), single _ (by decide) (by decide)⟩,
    single_numbers [.int 2]⟩, proceeds_of_pure (x := Arithmetic.divide (call "Divide" [v, int 2]) [v, int 2]) rfl
    fun q given => ?_⟩
  have two : (Number.int 2).isZero = false := by decide +kernel
  simp only [Arithmetic.divide, number?, two, Bool.false_eq_true, if_false] at given
  cases inverse : (Number.int 2).inverse with
  | error f =>
    rw [inverse] at given
    cases given
  | ok m =>
    rw [inverse] at given
    cases given
    refine leads_of_new (differs_call rfl rfl) (Harmless.leads ?_ n)
    rcases scalable with ⟨x, rfl⟩ | rfl | ⟨p, stands, rfl⟩
    · exact harmless_numbers calculates x m
    · exact harmless_once calculates .after
    · exact harmless_twice calculates p m stands

theorem harmless_zeroPlus (first : s.Counts c a (· = .int 0)) (second : s.Serves c b Graded) :
    s.Harmless c (call "Plus" [a, b]) Scalable := by
  refine harmless_of_leads fun n => ?_
  refine leads_ring calculates (.cons first (.cons second .nil)) .plus fun bs holds => ?_
  obtain ⟨_, v, ⟨_, rfl, rfl⟩, graded, rfl⟩ := forall₂_pair.1 holds
  have apart : ∀ f ∈ ["Sequence", "List", RingOp.plus.name], v.argsOf? f = none := by
    have other := fun f other another => graded.scalable.apart (f := f) other another
    simp only [List.forall_mem_cons, RingOp.name]
    exact ⟨other _ (by decide) (by decide), other _ (by decide) (by decide), other _ (by decide) (by decide),
      List.forall_mem_nil _⟩
  refine Couple.proceeds .plus (.before (n := .int 0)) apart fun cs couple q made => ?_
  rcases graded with ⟨y, -, rfl⟩ | multiple
  · obtain ⟨ms, rfl⟩ := exists_numbers [.int 0, y] couple.perm
    obtain ⟨z, rfl⟩ := fold_numbers .plus ms made
    exact leads_given (.inr rfl) (.inl ⟨z, rfl⟩)
  · obtain ⟨total, sum, same⟩ := plus_couple couple multiple.callable (apart _ (by decide)) multiple.simplifyTerm made
    have zero : Arithmetic.sumOf [.int 0] = .ok (.int 0) := by decide +kernel
    cases sum.symm.trans zero
    obtain rfl : q = v := same
    refine leads_of_new (differs_call multiple.callable (apart _ (by decide))) ?_
    exact ((multiple.rests calculates).mono fun _ same => same ▸ .inr multiple).leads n

theorem harmless_byZero (first : s.Counts c a p) (second : s.Counts c b (· = .int 0)) :
    s.Harmless c (call "Divide" [a, b]) Graded := by
  refine harmless_of_leads fun n => ?_
  refine leads_plain (f := .divide) calculates (.cons first (.cons second .nil)) (by decide) (by decide)
    fun bs holds => ?_
  obtain ⟨x, _, -, rfl, rfl⟩ := forall₂_counts holds
  refine ⟨single_numbers [x, .int 0], proceeds_of_pure (x := .ok (call "Times" [.number x, reciprocal])) rfl ?_⟩
  rintro _ ⟨⟩
  exact leads_of_new (differs_call rfl rfl) ((harmless_once calculates .before).leads n)

end Multiples

end Symbolic
