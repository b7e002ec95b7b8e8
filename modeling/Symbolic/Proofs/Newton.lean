import Symbolic.Newton
import Symbolic.Stored
import Symbolic.Proofs.Evaluation.Remainders
import Symbolic.Proofs.Evaluation.Variables
import Symbolic.Proofs.Substitution

/-!
Where Newton's iteration ends. A guess is a number or, once a guess was zero, a multiple of the reciprocal of zero,
which stays as it is. The test is true exactly if the guess is a number whose square is far from the number
(`harmless_tooFar`), so a step is made only from a number, and gives a guess of this kind again (`harmless_improved`).
Main statement: if the program returns, it gives the guess for which the test was not true and the number of rounds
that its loop made, and leaves no values behind under the names that it is written with.
-/
namespace Symbolic.Newton

open Value Session
open Arithmetic (lift)

/-! ### The test -/

/-- The test of the loop: whether the square of a guess is further from a number than a tolerance. -/
def tooFar (g t n : Value) : Value :=
  call "Greater" [call "Abs" [call "Subtract" [call "Power" [g, int 2], n]], t]

def square (x : Number) : Except Error Value := Arithmetic.powerOfNumbers (.number x) (int 2) x (.int 2)

/-- How far the square of a number is from a number. -/
def Distance (x n e : Number) : Prop :=
  ∃ p m d, square x = .ok (.number p) ∧ RingOp.times.reckon (.int (-1)) n = .ok (.number m) ∧
    RingOp.plus.reckon p m = .ok (.number d) ∧ d.abs = .ok e

theorem Distance.unique {x n e f : Number} (first : Distance x n e) (second : Distance x n f) : e = f := by
  obtain ⟨p, m, d, squared, opposite, sum, absolute⟩ := first
  obtain ⟨q, k, b, squaredToo, oppositeToo, sumToo, absoluteToo⟩ := second
  cases squared.symm.trans squaredToo
  cases opposite.symm.trans oppositeToo
  cases sum.symm.trans sumToo
  exact Except.ok.inj (absolute.symm.trans absoluteToo)

/-- A guess is a number, and its square is further from a number than the tolerance. -/
def Far (g : Value) (n : Number) : Prop :=
  ∃ x e, g = .number x ∧ Distance x n e ∧ e.compare .gt (.ofFloat 1e-10) = .ok true

section Test

variable {s : Session} {c : ContextId} {a b : Value} {x : Number} (calculates : s.Calculates c)

theorem square_cases {r : Value} (made : square x = .ok r) :
    r = call "Power" [.number x, int 2] ∨ ∃ p, r = .number p := by
  have gives : Calculation.power.Gives [x, .int 2] (square x) := Calculation.gives_power (Bool.and_false _)
  rw [made] at gives
  rcases gives.plain r rfl with same | atom
  · exact .inl same
  · have sound : Calculation.power.answers r = true := gives.sound
    cases r with
    | number p => exact .inr ⟨p, rfl⟩
    | expr => cases atom
    | _ => cases sound

include calculates

theorem harmless_square (base : s.Counts c a (· = x)) :
    s.Harmless c (call "Power" [a, int 2]) fun r => square x = .ok r := by
  refine (harmless_power calculates base (counts_number (.int 2)) ?_).mono ?_
  · rintro _ rfl
    rfl
  · rintro r ⟨_, _, rfl, rfl, made⟩
    exact made

theorem harmless_tooFar_computed (base : s.Counts c a (· = x)) (tolerance : s.Counts c b (· = .ofFloat 1e-10))
    (n : Number) (computed : ∀ r, square x = .ok r → ∃ p, r = .number p) :
    s.Harmless c (tooFar a b (.number n)) fun r => r.isTrue = true ↔ Far (.number x) n := by
  have squared : s.Counts c (call "Power" [a, int 2]) fun p => square x = .ok (.number p) := by
    refine counts_of_callable ((harmless_square calculates base).mono fun r made => ?_) rfl
    obtain ⟨p, rfl⟩ := computed r made
    exact ⟨p, made, rfl⟩
  have difference : s.Counts c (call "Subtract" [call "Power" [a, int 2], .number n]) fun d => ∃ p m,
      square x = .ok (.number p) ∧ RingOp.times.reckon (.int (-1)) n = .ok (.number m) ∧
        RingOp.plus.reckon p m = .ok (.number d) := by
    refine counts_of_callable ((harmless_difference calculates squared n).mono ?_) rfl
    rintro r ⟨p, m, made, opposite, sum⟩
    obtain ⟨d, rfl⟩ := reckon_number sum
    exact ⟨d, ⟨p, m, made, opposite, sum⟩, rfl⟩
  have distance : s.Counts c (call "Abs" [call "Subtract" [call "Power" [a, int 2], .number n]]) (Distance x n) := by
    refine counts_of_callable ((harmless_abs calculates difference).mono ?_) rfl
    rintro r ⟨d, e, ⟨p, m, made, opposite, sum⟩, absolute, rfl⟩
    exact ⟨e, ⟨p, m, d, made, opposite, sum, absolute⟩, rfl⟩
  refine (harmless_greater calculates distance tolerance).mono ?_
  rintro r ⟨e, _, held, far, rfl, compared, rfl⟩
  constructor
  · intro (above : held = true)
    exact ⟨x, e, rfl, far, above ▸ compared⟩
  · rintro ⟨_, f, ⟨⟩, other, above⟩
    cases far.unique other
    exact Except.ok.inj (compared.symm.trans above)

omit calculates in
/-- The square of a symbol or of a value itself serves where it stays the square of the value. -/
theorem serves_square {y : Value} (other : y.isSymbol = false)
    (squared : s.Harmless c (call "Power" [a, int 2]) (· = call "Power" [y, int 2]))
    (source : a.isSymbol = true ∨ a = y) : s.Serves c (call "Power" [a, int 2]) (· = call "Power" [y, int 2]) := by
  refine squared.mono fun z made => ⟨made, fun same => ?_⟩
  rcases source with symbol | rfl
  · rw [made] at same
    obtain ⟨_, _, ⟨⟩, -, items⟩ := same_expr same
    rw [sameItems, Bool.and_eq_true] at items
    cases a with
    | symbol x =>
      rw [same_symbol_iff.1 items.1] at other
      cases other
    | _ => cases symbol
  · rfl

theorem harmless_tooFar_stuck {y : Value} (other : y.isSymbol = false) (stays : s.Fixes c (call "Power" [y, int 2]))
    (squared : s.Harmless c (call "Power" [a, int 2]) (· = call "Power" [y, int 2]))
    (source : a.isSymbol = true ∨ a = y) {p : Number → Prop} (tolerance : s.Counts c b p) (n : Number) :
    s.Harmless c (tooFar a b (.number n)) fun r => r.isTrue = false := by
  have inert : Inert s c (call "Power" [y, int 2]) := ⟨⟨_, rfl⟩, stays⟩
  exact inert.harmless_above calculates (serves_square other squared source) n tolerance

/-- The square of a multiple of the reciprocal of zero stays a power. -/
theorem harmless_squareOfMultiple {y : Value} (multiple : Multiple y) (base : s.Serves c a (· = y)) :
    s.Harmless c (call "Power" [a, int 2]) (· = call "Power" [y, int 2]) := by
  refine harmless_of_leads fun n => ?_
  refine leads_plain (f := .power) calculates (.cons base (.cons (counts_number (.int 2)) .nil)) (by decide) (by decide)
    fun bs holds => ?_
  obtain ⟨y, _, rfl, ⟨_, rfl, rfl⟩, rfl⟩ := forall₂_pair.1 holds
  have apart := fun f other another => Scalable.apart (.inr multiple) (f := f) other another
  have stays : Arithmetic.power (call "Power" [y, int 2]) [y, int 2] = .ok (call "Power" [y, int 2]) := by
    have zero : (int 2).equal (int 0) = false := by decide +kernel
    have one : (int 2).equal (int 1) = false := by decide +kernel
    have unit : y.equal (int 1) = false := by
      rcases multiple with rfl | ⟨p, -, rfl⟩ <;> simp [reciprocal, Value.equal, number?, Value.same]
    rw [Arithmetic.power, number_of_callable multiple.callable]
    simp only [zero, one, unit, Bool.false_eq_true, if_false]
  refine ⟨List.forall_mem_cons.2 ⟨⟨apart _ (by decide) (by decide), apart _ (by decide) (by decide)⟩,
    single_numbers [.int 2]⟩, proceeds_of_pure (x := .ok (call "Power" [y, int 2])) (congrArg Step.ofExcept stays) ?_⟩
  rintro _ ⟨⟩
  exact leads_given (.inl rfl) rfl

omit calculates in
theorem not_far_of_multiple {g : Value} (multiple : Multiple g) (n : Number) : ¬ Far g n := by
  rintro ⟨x, e, rfl, -⟩
  cases multiple.callable

omit calculates in
/-- What comes only to a value serves for it where it is a symbol or the value itself. -/
theorem serves_guess {g : Value} (base : s.Harmless c a (· = g)) (source : a.isSymbol = true ∨ a = g) :
    s.Serves c a (· = g) := by
  refine base.mono fun v made => ⟨made, fun same => ?_⟩
  rcases source with symbol | itself
  · cases a with
    | symbol => exact (same_symbol_iff.1 same).symm.trans made
    | _ => cases symbol
  · exact itself

/-- The test of a guess, which is written as a symbol or as the guess itself. -/
theorem harmless_tooFar {g : Value} (graded : Graded g) (base : s.Harmless c a (· = g))
    (source : a.isSymbol = true ∨ a = g) (tolerance : s.Counts c b (· = .ofFloat 1e-10)) (n : Number) :
    s.Harmless c (tooFar a b (.number n)) fun r => r.isTrue = true ↔ Far g n := by
  rcases graded with ⟨x, -, rfl⟩ | multiple
  · have counts : s.Counts c a (· = x) := by
      rcases source with symbol | rfl
      · refine counts_of_callable (base.mono fun _ same => ⟨x, rfl, same⟩) ?_
        cases a with
        | symbol => rfl
        | _ => cases symbol
      · exact counts_number x
    by_cases stuck : square x = .ok (call "Power" [.number x, int 2])
    · have far : ¬ Far (.number x) n := by
        rintro ⟨_, _, ⟨⟩, ⟨p, _, _, squared, -⟩, -⟩
        cases stuck.symm.trans squared
      have squared {e : Value} (base : s.Counts c e (· = x)) :
          s.Harmless c (call "Power" [e, int 2]) (· = call "Power" [.number x, int 2]) :=
        (harmless_square calculates base).mono fun r made => (Except.ok.inj (stuck.symm.trans made)).symm
      refine (harmless_tooFar_stuck calculates rfl (squared (counts_number x)) (squared counts) source tolerance n).mono
        fun r untrue => ?_
      exact iff_of_false (Bool.eq_false_iff.1 untrue) far
    · refine harmless_tooFar_computed calculates counts tolerance n fun r made => ?_
      exact (square_cases made).resolve_left fun same => stuck (same ▸ made)
  · have squared {e : Value} (base : s.Serves c e (· = g)) := harmless_squareOfMultiple calculates multiple base
    have other : g.isSymbol = false := by rcases multiple with rfl | ⟨p, -, rfl⟩ <;> rfl
    refine (harmless_tooFar_stuck calculates other (squared ((multiple.rests calculates).serves rfl))
      (squared (serves_guess base source)) source tolerance n).mono fun r untrue => ?_
    exact iff_of_false (Bool.eq_false_iff.1 untrue) (not_far_of_multiple multiple n)

end Test

/-! ### One round -/

theorem reckon_ints {a b : Int} {r : Value} (made : RingOp.plus.reckon (.int a) (.int b) = .ok r) :
    r = int (a + b) := by
  obtain ⟨e, sorted, made⟩ := Except.bind_ok made
  obtain ⟨cs, perm, rfl⟩ := sortArgs_perm sorted
  have couple : Couple (.int a) (int b) cs := Couple.before.of_perm perm
  cases couple with
  | before =>
    have total := RingOp.plus.fold_ints [a, b]
    exact (Except.ok.inj (made.symm.trans total)).trans (by simp [RingOp.total])
  | after =>
    have total := RingOp.plus.fold_ints [b, a]
    exact (Except.ok.inj (made.symm.trans total)).trans (by simp [RingOp.total, Int.add_comm])

section Rounds

variable {s : Session} {c : ContextId} {a : Value} {x : Number} (calculates : s.Calculates c)

include calculates

/-- The next guess after a number, where the only zero is the integer. -/
theorem harmless_improved (zero : x.isZero = true → x = .int 0) (base : s.Counts c a (· = x)) (n : Number) :
    s.Harmless c (call "Divide" [call "Plus" [a, call "Divide" [.number n, a]], int 2]) Graded := by
  have sum : s.Harmless c (call "Plus" [a, call "Divide" [.number n, a]]) Scalable := by
    by_cases vanishes : x.isZero = true
    · obtain rfl := zero vanishes
      refine harmless_zeroPlus calculates base (serves_of_apart ?_ fun v graded => ?_)
      · exact harmless_byZero calculates (counts_number n) base
      · exact graded.scalable.apart (by decide) (by decide)
    · have quotient : s.Counts c (call "Divide" [.number n, a]) fun _ => True := by
        refine counts_of_callable ((harmless_quotient calculates (counts_number n) base ?_).mono ?_) rfl
        · rintro _ rfl
          exact Bool.eq_false_iff.2 vanishes
        · rintro r ⟨_, _, m, -, -, -, made⟩
          obtain ⟨z, rfl⟩ := reckon_number made
          exact ⟨z, trivial, rfl⟩
      refine (harmless_reckon calculates .plus base quotient).mono ?_
      rintro r ⟨_, _, -, -, made⟩
      exact .inl (reckon_number made)
  refine harmless_half calculates (serves_of_apart sum fun v scalable => ?_)
  exact scalable.apart (by decide) (by decide)

end Rounds

def locals (g : Value) (k : Nat) : String → Option Value :=
  Function.update (Function.update (Function.update (fun _ => none) "guess1" (some g)) "tol2" (some closeness)) "iters3"
    (some (int k))

section Locals

variable {s : Session} {g h : Value} {k : Nat}

theorem locals_none {f : String} (other : f ∉ ["guess1", "tol2", "iters3"]) : locals g k f = none := by
  simp only [List.mem_cons, List.not_mem_nil, or_false, not_or] at other
  simp [locals, Function.update_of_ne, other]

theorem locals_guess : Function.update (locals g k) "guess1" (some h) = locals h k := by
  funext x
  simp only [locals, Function.update_apply]
  split_ifs <;> simp_all

theorem locals_steps : Function.update (locals g k) "iters3" (some (int (k + 1 : Nat))) = locals g (k + 1) := by
  simp only [locals, Function.update_idem]

theorem calculates_of_locals (stores : s.Stores globalId (locals g k)) : s.Calculates globalId := by
  refine stores.calculates fun f => locals_none ?_
  rcases f with _ | _ | _ | _ | _ | _ | _ | _ | _ | _ | (_ | _ | _ | _) | _ | _ <;> decide

end Locals

def test (n : Number) : Value := tooFar (sym "guess1") (sym "tol2") (.number n)

def step (n : Number) : Value :=
  call "CompoundExpression"
    [call "Set" [sym "guess1",
        call "Divide" [call "Plus" [sym "guess1", call "Divide" [.number n, sym "guess1"]], int 2]],
      call "Set" [sym "iters3", call "Plus" [sym "iters3", int 1]]]

section Steps

variable {s : Session} {x : Number} {k : Nat}

theorem moves_guess (stores : s.Stores globalId (locals (.number x) k)) (zero : x.isZero = true → x = .int 0)
    (n : Number) :
    s.Moves globalId (call "Set" [sym "guess1",
        call "Divide" [call "Plus" [sym "guess1", call "Divide" [.number n, sym "guess1"]], int 2]])
      fun _ t => ∃ g, Graded g ∧ t.Stores globalId (locals g k) := by
  have calculates := calculates_of_locals stores
  have after (v : Value) : (s.assigned globalId "guess1" v).Stores globalId (locals v k) :=
    locals_guess ▸ stores.assigned "guess1" v
  have base : s.Counts globalId (sym "guess1") (· = x) := stores.counts_symbol (by simp [locals])
  have assigns := stores.moves_assignment (x := "guess1") (locals_none (by decide)) rfl
    (harmless_improved calculates zero base n) (fun v graded => ?closed) fun v graded as => ?new
  case closed =>
    have stays {t : Session} (calculates : t.Calculates globalId) : t.Harmless globalId v Graded :=
      (graded.scalable.rests calculates).mono fun _ same => same ▸ graded
    exact ⟨graded.scalable.apart (by decide) (by decide), stays calculates, stays (calculates_of_locals (after v))⟩
  case new =>
    rcases graded with ⟨y, -, rfl⟩ | multiple
    · exact differs_of_basic rfl
    · exact differs_call multiple.callable (Scalable.apart (.inr multiple) (by decide) (by decide))
  refine assigns.mono ?_
  rintro r _ ⟨-, v, graded, rfl⟩
  exact ⟨v, graded, after v⟩

theorem moves_steps {g : Value} (stores : s.Stores globalId (locals g k)) :
    s.Moves globalId (call "Set" [sym "iters3", call "Plus" [sym "iters3", int 1]]) fun r t =>
      r = int (k + 1 : Nat) ∧ t.Stores globalId (locals g (k + 1)) := by
  have calculates := calculates_of_locals stores
  have after : (s.assigned globalId "iters3" (int (k + 1 : Nat))).Stores globalId (locals g (k + 1)) :=
    locals_steps ▸ stores.assigned "iters3" (int (k + 1 : Nat))
  have counts : s.Counts globalId (sym "iters3") (· = .int k) := stores.counts_symbol (by simp [locals])
  have sum : s.Harmless globalId (call "Plus" [sym "iters3", int 1]) (· = int (k + 1 : Nat)) := by
    refine (harmless_reckon calculates .plus counts (counts_number (.int 1))).mono ?_
    rintro r ⟨_, _, rfl, rfl, made⟩
    exact reckon_ints made
  have assigns := stores.moves_assignment (x := "iters3") (locals_none (by decide)) rfl sum
    (fun v same => ?closed) fun v same as => ?new
  case closed =>
    subst same
    exact ⟨rfl, harmless_atom rfl, harmless_atom rfl⟩
  case new =>
    subst same
    exact differs_of_basic rfl
  refine assigns.mono ?_
  rintro r _ ⟨rfl, _, rfl, rfl⟩
  exact ⟨rfl, after⟩

theorem moves_step (stores : s.Stores globalId (locals (.number x) k)) (zero : x.isZero = true → x = .int 0)
    (n : Number) : s.Moves globalId (step n) fun _ t =>
      ∃ g, Graded g ∧ t.Stores globalId (locals g (k + 1)) := by
  refine stores.moves_compound (locals_none (by decide)) ?_ (moves_guess stores zero n)
    (Q := fun r t => ∃ g, Graded g ∧ r = int (k + 1 : Nat) ∧ t.Stores globalId (locals g (k + 1))) ?_ ?_
  · exact forall_mem_pair.2 ⟨rfl, rfl⟩
  · rintro _ t ⟨g, graded, held⟩
    exact (moves_steps held).mono fun _ _ last => ⟨g, graded, last⟩
  · rintro _ t ⟨g, graded, rfl, held⟩
    refine ⟨differs_of_basic rfl, (harmless_atom rfl).moves.mono ?_⟩
    rintro _ _ ⟨-, rfl⟩
    exact ⟨g, graded, held⟩

end Steps

/-! ### The loop -/

/-- Where the loop may end: the last guess is stored with the number of steps, and the square of the guess is not found
to be far from the number. -/
structure Ended (n : Number) (g : Value) (k : Nat) (s : Session) : Prop where
  graded : Graded g
  stores : s.Stores globalId (locals g k)
  close : ¬ Far g n

theorem harmless_test {s : Session} {g : Value} {k : Nat} (graded : Graded g)
    (stores : s.Stores globalId (locals g k)) (n : Number) :
    s.Harmless globalId (test n) fun r => r.isTrue = true ↔ Far g n := by
  have calculates := calculates_of_locals stores
  have base : s.Harmless globalId (sym "guess1") (· = g) :=
    stores.harmless_symbol (by simp [locals]) (graded.scalable.rests calculates)
  exact harmless_tooFar calculates graded base (.inl rfl) (stores.counts_symbol (by simp [locals, closeness, real])) n

theorem rounds_end {n : Number} {g : Value} {m fuel d i j k : Nat} {s u : Session} (graded : Graded g)
    (stores : s.Stores globalId (locals g j))
    (run : Control.rounds (evaluate m) globalId (test n) [step n] fuel (s.recount d i) = .ok k u) :
    ∃ h t l, Ended n h (j + k) t ∧ u = t.recount d l := by
  have ends := rounds_ok
    (I := fun k s => ∃ g, Graded g ∧ s.Stores globalId (locals g k))
    (T := fun k s v => ∃ g, Graded g ∧ s.Stores globalId (locals g k) ∧ (v.isTrue = true ↔ Far g n))
    ?tests ?steps ⟨g, graded, stores⟩ run
  case tests =>
    rintro k s ⟨g, graded, stores⟩
    exact (harmless_test graded stores n).mono fun v told => ⟨g, graded, stores, told⟩
  case steps =>
    rintro k s v ⟨g, graded, stores, told⟩ true
    -- A guess whose square is found to be far away is a number.
    obtain ⟨x, -, rfl, -⟩ := told.1 true
    rcases graded with ⟨_, zero, ⟨⟩⟩ | multiple
    · exact moves_step stores zero n
    · cases multiple.callable
  obtain ⟨t, l, v, rfl, ⟨h, graded, stores, told⟩, exit⟩ := ends
  exact ⟨h, t, l, ⟨graded, stores, fun far => Bool.eq_false_iff.1 exit (told.2 far)⟩, rfl⟩

/-! ### The program -/

def initials (n : Value) : List Scope.Local :=
  [.initial guess (call "Divide" [n, int 2]), .initial tolerance closeness, .initial steps (int 0)]

/-- What the program calls its variables. -/
def newNames : List (Value × Value) :=
  [(guess, sym "guess1"), (tolerance, sym "tol2"), (steps, sym "iters3")]

/-- The program up to the end of its loop, with the rounds of the loop counted. The loop has the fuel, and what is
around it has some more. -/
def rounds (fuel : Nat) (n : Value) : Eval Nat :=
  deeper do
    let table ← Scope.rename (evaluate (fuel + 2)) globalId [] (initials n)
    let test ← Step.ofExcept ((notClose n).substituteTable false table)
    let step ← Step.ofExcept ((improve n).substituteTable false table)
    deeper (deeper (Control.rounds (evaluate fuel) globalId test [step] fuel))

section Renaming

variable {es : List (Symbol × Value)} {f : String} (kept : Bindings.lookup ⟨f⟩ es = none)

include kept

theorem substitute_kept {as bs : List Value} (args : List.Forall₂ (fun a b => a.substitute false es = .ok b) as bs) :
    (call f as).substitute false es = .ok (call f bs) := by
  have head : (sym f).substitute false es = .ok (sym f) := by rw [sym, substitute, kept, Option.getD_none]
  exact (substitute_expr_ok rfl).2 ⟨sym f, bs, head, args, rfl, rfl⟩

theorem substitute_single {a b : Value} (arg : a.substitute false es = .ok b) :
    (call f [a]).substitute false es = .ok (call f [b]) :=
  substitute_kept kept (.cons arg .nil)

theorem substitute_pair {a b v w : Value} (first : a.substitute false es = .ok v)
    (second : b.substitute false es = .ok w) : (call f [a, b]).substitute false es = .ok (call f [v, w]) :=
  substitute_kept kept (.cons first (.cons second .nil))

end Renaming

theorem substitute_notClose (n : Number) : (notClose (.number n)).substituteTable false newNames = .ok (test n) :=
  substitute_pair rfl (substitute_single rfl (substitute_pair rfl (substitute_pair rfl rfl rfl) rfl)) rfl

theorem substitute_improve (n : Number) : (improve (.number n)).substituteTable false newNames = .ok (step n) :=
  substitute_pair rfl
    (substitute_pair rfl rfl (substitute_pair rfl (substitute_pair rfl rfl (substitute_pair rfl rfl rfl)) rfl))
    (substitute_pair rfl rfl (substitute_pair rfl rfl rfl))

theorem substitute_body (n : Number) :
    (call "CompoundExpression" [call "While" [notClose (.number n), improve (.number n)],
      ofItems [guess, steps]]).substituteTable false newNames =
    .ok (call "CompoundExpression" [call "While" [test n, step n], ofItems [sym "guess1", sym "iters3"]]) :=
  substitute_pair rfl (substitute_pair rfl (substitute_notClose n) (substitute_improve n)) (substitute_pair rfl rfl rfl)

theorem rename_initials {n : Number} {fuel d i : Nat} {table : List (Value × Value)} {u : Session}
    (run : Scope.rename (evaluate fuel) globalId [] (initials (.number n)) (initial.recount d i) = .ok table u) :
    table = newNames ∧ ∃ g, ∃ s : Session, ∃ j, Graded g ∧ s.Stores globalId (locals g 0) ∧
      u = s.recount d j := by
  have start := initial_vacant.stores.generate "guess"
  have calculates := start.calculates fun _ => rfl
  have number : Scalable (.number n) := .inl ⟨n, rfl⟩
  have half := harmless_half calculates (((fixes_number n).mono fun _ same => same ▸ number).serves number)
  have names : "guess" ++ Nat.repr 1 = "guess1" ∧ "tol" ++ Nat.repr 2 = "tol2" ∧ "iters" ++ Nat.repr 3 = "iters3" :=
    ⟨rfl, rfl, rfl⟩
  obtain ⟨g, j, graded, run⟩ := rename_initial names.1 half run rfl
  obtain ⟨_, j, rfl, run⟩ := rename_initial names.2.1 (harmless_atom rfl) run rfl
  obtain ⟨_, j, rfl, run⟩ := rename_initial names.2.2 (harmless_atom rfl) run rfl
  obtain ⟨rfl, rfl⟩ := Step.pure_ok.1 run
  refine ⟨?_, g, _, j, graded, ?_, rfl⟩
  · simp [writeKey, newNames, guess, tolerance, steps, sym, Value.same]
  · exact (((start.assigned "guess1" g).generate "tol").assigned "tol2" closeness).generate "iters" |>.assigned "iters3"
      (int 0)

section Program

variable {n : Number} {g : Value} {k : Nat} {s : Session}

theorem Ended.harmless_pair (ended : Ended n g k s) {a b : Value} (first : s.Serves globalId a (· = g))
    (second : s.Counts globalId b (· = .int k)) : s.Harmless globalId (ofItems [a, b]) (· = ofItems [g, int k]) := by
  have unlisted := ended.stores.unlisted (locals_none (by decide))
  refine (unlisted.harmless_pair first second ?_ ?_).mono ?_
  · rintro _ rfl
    exact ended.graded.scalable.apart (by decide) (by decide)
  · rintro _ ⟨x, -, rfl⟩
    rfl
  · rintro r ⟨_, _, rfl, ⟨_, rfl, rfl⟩, rfl⟩
    rfl

theorem Ended.rests (ended : Ended n g k s) : s.Fixes globalId g :=
  ended.graded.scalable.rests (calculates_of_locals ended.stores)

theorem Ended.harmless_list (ended : Ended n g k s) : s.Fixes globalId (ofItems [g, int k]) :=
  ended.harmless_pair (ended.rests.serves rfl) (counts_number (.int k))

theorem Ended.harmless_answer (ended : Ended n g k s) :
    s.Harmless globalId (ofItems [sym "guess1", sym "iters3"]) (· = ofItems [g, int k]) :=
  ended.harmless_pair (serves_guess (ended.stores.harmless_symbol (by simp [locals]) ended.rests) (.inl rfl))
    (ended.stores.counts_symbol (by simp [locals, int]))

theorem loop_ok {fuel d i : Nat} {r : Value} {u : Session} (graded : Graded g)
    (stores : s.Stores globalId (locals g 0))
    (run : evaluate (fuel + 2) globalId (call "While" [test n, step n]) (s.recount d i) = .ok r u) :
    ∃ k w h t l,
      deeper (Control.rounds (evaluate (fuel + 1)) globalId (test n) [step n] (fuel + 1)) (s.recount d i) = .ok k w ∧
        Ended n h k t ∧ u = t.recount d l := by
  have silent := stores.silent (f := "While") (locals_none (by decide))
  rw [evaluate_held (s := s.recount d i) while_verbatim stores.standard (silent.toUndefined.of_contents rfl rfl)
    (silent.unarranged.of_contexts rfl) (forall_mem_pair.2 ⟨rfl, rfl⟩)] at run
  obtain ⟨room, w, inner, rfl⟩ := deeper_ok.1 run
  obtain ⟨q, x, looped, last⟩ := Step.bind_ok inner
  replace looped : Control.loopWhile _ _ _ _ _ _ = _ := looped
  rw [loopWhile_eq_rounds] at looped
  obtain ⟨k, y, counted, rest⟩ := Step.bind_ok looped
  obtain ⟨rfl, rfl⟩ := Step.pure_ok.1 rest
  obtain ⟨h, t, l, ended, rfl⟩ := rounds_end graded stores counted
  rw [Nat.zero_add] at ended
  have rests := ended.stores.harmless_unset (x := "Null") (locals_none (by decide))
  obtain ⟨_, l, ⟨-, rfl⟩, rfl⟩ := rests.moves.again (differs_call rfl rfl) last
  exact ⟨k, _, h, _, l, deeper_ok.2 ⟨room, _, counted, rfl⟩, ended, rfl⟩

theorem body_ok {fuel d i : Nat} {r : Value} {u : Session} (graded : Graded g)
    (stores : s.Stores globalId (locals g 0))
    (run : evaluate (fuel + 3) globalId (call "CompoundExpression" [call "While" [test n, step n],
      ofItems [sym "guess1", sym "iters3"]]) (s.recount d i) = .ok r u) :
    ∃ k w h t l,
      deeper (deeper (Control.rounds (evaluate (fuel + 1)) globalId (test n) [step n] (fuel + 1))) (s.recount d i) =
        .ok k w ∧ Ended n h k t ∧ r = ofItems [h, int k] ∧ u = t.recount d l := by
  have silent := stores.silent (f := "CompoundExpression") (locals_none (by decide))
  rw [evaluate_held (s := s.recount d i) compound_verbatim stores.standard (silent.toUndefined.of_contents rfl rfl)
    (silent.unarranged.of_contexts rfl) (forall_mem_pair.2 ⟨rfl, rfl⟩)] at run
  obtain ⟨room, w, inner, rfl⟩ := deeper_ok.1 run
  obtain ⟨q, x, ran, last⟩ := Step.bind_ok inner
  obtain ⟨_, y, looped, ran⟩ := Step.bind_ok ran
  obtain ⟨k, z, h, t, l, counted, ended, rfl⟩ := loop_ok graded stores looped
  obtain ⟨q, y, listed, ran⟩ := Step.bind_ok ran
  obtain ⟨rfl, l, rfl⟩ := ended.harmless_answer.run listed
  obtain ⟨rfl, rfl⟩ := Step.pure_ok.1 ran
  obtain ⟨_, l, ⟨rfl, rfl⟩, rfl⟩ := ended.harmless_list.moves.again (differs_call rfl rfl) last
  exact ⟨k, _, h, _, l, deeper_ok.2 ⟨room, z, counted, rfl⟩, ended, rfl, rfl⟩

theorem module_verbatim : Verbatim "Module" .moduleScope := ⟨rfl, by decide, by decide⟩

theorem sqrt_ok {fuel : Nat} {r : Value} {u : Session} (run : sqrt fuel (.number n) initial = .ok r u) :
    ∃ k w g s l, rounds fuel (.number n) initial = .ok k w ∧ Ended n g k s ∧ r = ofItems [g, int k] ∧
      u = s.recount 0 l := by
  cases fuel with
  | zero => cases run
  | succ fuel =>
    have silent := initial_vacant.stores.silent (f := "Module") rfl
    replace run := evaluate_more run (Nat.le_add_right _ 3)
    rw [program, evaluate_held module_verbatim initial_vacant.standard silent.toUndefined silent.unarranged
      (forall_mem_pair.2 ⟨rfl, rfl⟩)] at run
    obtain ⟨room, w, inner, rfl⟩ := deeper_ok.1 run
    obtain ⟨q, x, ran, last⟩ := Step.bind_ok inner
    obtain ⟨table, y, renamed, ran⟩ := Step.bind_ok ran
    obtain ⟨rfl, g, s, j, graded, stores, rfl⟩ := rename_initials renamed
    obtain ⟨e, y, written, ran⟩ := Step.bind_ok ran
    obtain ⟨replaced, rfl⟩ := Step.ofExcept_ok.1 written
    cases (substitute_body n).symm.trans replaced
    obtain ⟨k, z, h, t, l, counted, ended, rfl, rfl⟩ := body_ok graded stores ran
    obtain ⟨_, l, ⟨rfl, rfl⟩, rfl⟩ := ended.harmless_list.moves.again (differs_call rfl rfl) last
    refine ⟨k, _, h, _, l, deeper_ok.2 ⟨room, z, ?_, rfl⟩, ended, rfl, rfl⟩
    refine (Step.bind_of_ok renamed).trans ?_
    refine (Step.bind_of_ok (Step.ofExcept_ok.2 ⟨substitute_notClose n, rfl⟩)).trans ?_
    exact (Step.bind_of_ok (Step.ofExcept_ok.2 ⟨substitute_improve n, rfl⟩)).trans counted

/-- If the program returns, it gives a list of a guess and the number of rounds of its loop. No session in which
nothing is said about arithmetic finds the square of the guess to be too far from the number. The names that the program
is written with have no values afterwards. -/
theorem sqrt_ends {fuel : Nat} {r : Value} {t : Session} (run : sqrt fuel (.number n) initial = .ok r t) :
    (∃ g k u, rounds fuel (.number n) initial = .ok k u ∧ r = ofItems [g, int k] ∧
      ∀ m s v w, s.Calculates globalId → evaluate m globalId (tooFar g closeness (.number n)) s = .ok v w →
        v.isTrue = false) ∧
    t.Calculates globalId ∧
      ∀ x ∈ ["guess", "tol", "iters"], t.stored globalId (sym x) "own" = .ok (definitionsValue []) := by
  obtain ⟨k, u, g, s, l, counted, ended, rfl, rfl⟩ := sqrt_ok run
  have stores : (s.recount 0 l).Stores globalId (locals g k) := ended.stores.of_contents rfl rfl rfl
  refine ⟨⟨g, k, u, counted, rfl, ?_⟩, calculates_of_locals stores, ?_⟩
  · intro m t q w calculates ran
    have told := harmless_tooFar calculates ended.graded (ended.graded.scalable.rests calculates) (.inr rfl)
      (counts_number (.ofFloat 1e-10)) n
    obtain ⟨exactly, -⟩ := told.run (d := t.depth) (i := t.iterations) ran
    exact Bool.eq_false_iff.2 fun true => ended.close (exactly.1 true)
  · intro x member
    have unset : locals g k x = none := by
      fin_cases member <;> exact locals_none (by decide)
    show Except.ok (definitionsValue _) = _
    cases found : (s.recount 0 l).definitions? globalId (sym x) .own with
    | none => rfl
    | some i => exact congrArg (fun ds => Except.ok (definitionsValue ds)) (stores.unset unset found)

end Program

/-- The program returns a guess that is the same as the given value after so many rounds, with all that follows. -/
def Finishes (fuel : Nat) (n : Number) (root : Value) (k : Nat) : Prop :=
  ∃ g t u, sqrt fuel (.number n) initial = .ok (ofItems [g, int k]) t ∧ g.same root = true ∧
    rounds fuel (.number n) initial = .ok k u ∧
    (∀ m s v w, s.Calculates globalId → evaluate m globalId (tooFar g closeness (.number n)) s = .ok v w →
      v.isTrue = false) ∧
    t.Calculates globalId ∧
      ∀ x ∈ ["guess", "tol", "iters"], t.stored globalId (sym x) "own" = .ok (definitionsValue [])

/-- Zero is its own root, and no round is needed for that. From `-4` as a complex number, the first round leads to zero,
the second divides by it, and what this gives is not found to be far from a root. -/
theorem sqrt_finishes : Finishes 11 (.int 0) (int 0) 0 ∧
    Finishes 11 (.ofComplex ⟨-4.0, 0.0⟩) (call "Times" [.number (.ofComplex ⟨-2.0, 0.0⟩), reciprocal]) 2 := by
  have finishes {n : Number} {root : Value} {k : Nat}
      (returned : Step.returns (·.same (ofItems [root, int k])) (sqrt 11 (.number n) initial) = true) :
      Finishes 11 n root k := by
    obtain ⟨r, t, run, same⟩ := Step.returns_iff.1 returned
    obtain ⟨⟨g, j, u, counted, rfl, close⟩, calculates, unset⟩ := sqrt_ends run
    obtain ⟨near, rfl⟩ : g.same root = true ∧ j = k := by
      simpa [ofItems, call, int, Value.same, sameItems, number?] using same
    exact ⟨g, t, u, run, near, counted, close, calculates, unset⟩
  exact ⟨finishes (by decide +kernel), finishes (by decide +kernel)⟩

end Symbolic.Newton
