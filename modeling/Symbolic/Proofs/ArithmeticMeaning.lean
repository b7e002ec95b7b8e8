import Symbolic.Proofs.NormalForm

/-!
The meaning of arithmetic terms. Under an assignment of integers to symbols a term stands
for an integer. The laws of arithmetic keep it, so evaluation keeps it, and a term without
symbols evaluates to the integer that it stands for.
-/
namespace Symbolic

open Value

/-- The operations on integers; other names and numbers of arguments mean nothing. -/
def operate : String → List Int → Int
  | "Plus", xs => xs.sum
  | "Times", xs => xs.prod
  | "Minus", [x] => -x
  | "Subtract", [x, y] => x - y
  | "Abs", [x] => x.natAbs
  | "Power", [x, n] => x ^ n.toNat
  | _, _ => 0

mutual

def meaning (assign : Symbol → Int) : Value → Int
  | .number (.int n) => n
  | .symbol x => assign x
  | .expr (.symbol f) as _ => operate f.name (meanings assign as)
  | _ => 0

def meanings (assign : Symbol → Int) : List Value → List Int
  | [] => []
  | a :: as => meaning assign a :: meanings assign as

end

section Laws

variable {assign : Symbol → Int}

theorem meanings_eq (as : List Value) : meanings assign as = as.map (meaning assign) := by
  induction as with
  | nil => rfl
  | cons a as ih => rw [meanings, ih, List.map_cons]

theorem meaning_call (f : String) (as : List Value) :
    meaning assign (call f as) = operate f (as.map (meaning assign)) := by
  rw [meaning, meanings_eq]

theorem meaning_ring (op : RingOp) (as : List Value) :
    meaning assign (call op.name as) = op.total (as.map (meaning assign)) := by
  rw [meaning_call]
  cases op <;> rfl

theorem meaning_plus (as : List Value) : meaning assign (call "Plus" as) = (as.map (meaning assign)).sum :=
  meaning_ring .plus as

theorem meaning_times (as : List Value) : meaning assign (call "Times" as) = (as.map (meaning assign)).prod :=
  meaning_ring .times as

theorem meaning_int (n : Int) : meaning assign (int n) = n := by
  rw [meaning]

theorem meaning_abs (a : Value) : meaning assign (call "Abs" [a]) = (meaning assign a).natAbs := by
  rw [meaning_call]
  rfl

theorem meaning_power (a : Value) (n : Int) :
    meaning assign (call "Power" [a, int n]) = meaning assign a ^ n.toNat := by
  rw [meaning_call, List.map_cons, List.map_singleton, meaning_int]
  rfl

theorem meaning_soleOrCall_times (as : List Value) :
    meaning assign (Arithmetic.soleOrCall "Times" as) = (as.map (meaning assign)).prod := by
  unfold Arithmetic.soleOrCall
  split
  · simp
  · exact meaning_times as

theorem Rewrites.meaning_eq {v w : Value} (rewrites : Rewrites v w) : meaning assign v = meaning assign w := by
  induction rewrites with
  | refl => rfl
  | trans _ _ first second => exact first.trans second
  | inside f before after _ ih => simp only [meaning_call, List.map_append, List.map_cons, ih]
  | permute op perm =>
    rw [meaning_ring, meaning_ring]
    exact op.total_perm (perm.map _)
  | splice op before inner after =>
    simp only [meaning_ring, List.map_append, List.map_cons]
    cases op <;> simp [RingOp.total]
  | collect op ns rest =>
    have same : ns.map (meaning assign ∘ int) = ns := List.map_id'' meaning_int ns
    simp only [meaning_ring, List.map_append, List.map_map, List.map_cons, same, meaning_int]
    cases op <;> simp [RingOp.total]
  | unit op rest =>
    simp only [meaning_ring, List.map_cons, meaning_int]
    cases op <;> simp [RingOp.total, RingOp.unit]
  | sole op a =>
    rw [meaning_ring, List.map_singleton]
    cases op <;> simp [RingOp.total]
  | absorb rest => simp [meaning_times, meaning_int]
  | minus a =>
    rw [meaning_call, meaning_times]
    simp [operate, meaning_int]
  | subtract a b =>
    rw [meaning_call, meaning_plus]
    simp [operate, meaning_times, meaning_int, sub_eq_add_neg]
  | abs n => rw [meaning_abs, meaning_int, meaning_int]
  | absProduct n rest =>
    simp [meaning_abs, meaning_times, meaning_int, meaning_soleOrCall_times, Int.natAbs_mul]
  | power m positive => rw [meaning_power, meaning_int, meaning_int]
  | powerZero a => rw [meaning_power, meaning_int, Int.toNat_zero, pow_zero]
  | powerOne a => rw [meaning_power, Int.toNat_one, pow_one]

end Laws

def Vocabulary.arithmetic (atom : String → Prop) : Vocabulary where
  atom := atom
  head f := f ∈ ["Plus", "Times", "Minus", "Subtract", "Abs", "Power"]
  ring op := by cases op <;> simp [RingOp.name]

/-- A stable term of arithmetic without symbols is an integer. -/
theorem Stable.closed {atom : String → Prop} {v : Value} (stable : Stable v) (term : IsTerm (.arithmetic atom) v)
    (none : ∀ x, ¬ atom x) : ∃ n, v = int n := by
  induction term with
  | integer n => exact ⟨n, rfl⟩
  | atom present => exact (none _ present).elim
  | @apply f as head legal args ih =>
    have term : IsTerm (.arithmetic atom) (call f as) := .apply head legal args
    have integer : ∀ a ∈ as, ∃ n, a = int n := fun a member => ih a member (stable.arg member)
    have folded := stable.folded
    -- A call of integers folds to something else under every head.
    exfalso
    cases legal with
    | ring op =>
      have normal := stable.normalArgs term
      match as, normal with
      | a :: b :: rest, normal =>
        obtain ⟨n, rfl⟩ := integer b (by simp)
        cases normal.numberFirst (int n) (by simp)
      | [], normal | [_], normal => simpa using normal.several
    | minus | subtract => simpa using stable.not_difference term
    | abs a =>
      obtain ⟨n, rfl⟩ := integer a (by simp)
      cases folded
    | power a positive =>
      obtain ⟨m, rfl⟩ := integer a (by simp)
      cases (powerOfNumbers_eq positive).symm.trans folded
    | free as free =>
      have built : ∀ g ∈ ["Plus", "Times", "Minus", "Subtract", "Abs", "Power"], (Builtin.ofName? g).isSome = true := by
        decide
      exact free.ne (built f head) rfl

/-- In a session without definitions evaluation gives a term of arithmetic over the same symbols that
stands for the same integer under every assignment. Without symbols it gives that integer. -/
theorem evaluate_meaning {s t : Session} {c : ContextId} {fuel : Nat} {e r : Value} {atom : String → Prop}
    (bare : s.Bare c) (term : IsTerm (.arithmetic atom) e) (run : evaluate fuel c e s = .ok r t) :
    IsTerm (.arithmetic atom) r ∧ (∀ assign, meaning assign r = meaning assign e) ∧
      ((∀ x, ¬ atom x) → ∀ assign, r = int (meaning assign e)) := by
  obtain ⟨_, outcome⟩ := evaluate_settles bare fuel s.depth s.iterations e r t term run
  have resultTerm := outcome.rewrites.isTerm term
  have kept : ∀ assign, meaning assign r = meaning assign e := fun assign => outcome.rewrites.meaning_eq.symm
  refine ⟨resultTerm, kept, ?_⟩
  intro none assign
  obtain ⟨n, rfl⟩ := outcome.stable.closed resultTerm none
  rw [← kept assign, meaning_int]

/-- `|-2 a (b + 1 - 1)^2 - 0|`, written out. -/
def absoluteProduct (a b : Value) : Value :=
  call "Abs" [call "Subtract" [call "Times" [int (-2), a,
    call "Power" [call "Plus" [b, int 1, int (-1)], int 2]], int 0]]

theorem absoluteProduct_isTerm {atom : String → Prop} {a b : Value} (left : IsTerm (.arithmetic atom) a)
    (right : IsTerm (.arithmetic atom) b) : IsTerm (.arithmetic atom) (absoluteProduct a b) := by
  have base : IsTerm (.arithmetic atom) (call "Plus" [b, int 1, int (-1)]) :=
    .ofRing .plus (by simp [right, IsTerm.integer])
  have square : IsTerm (.arithmetic atom) (call "Power" [call "Plus" [b, int 1, int (-1)], int 2]) :=
    .apply (by simp [Vocabulary.arithmetic]) (.power _ (by decide)) (by simp [base, IsTerm.integer])
  have product : IsTerm (.arithmetic atom) (call "Times" [int (-2), a,
      call "Power" [call "Plus" [b, int 1, int (-1)], int 2]]) :=
    .ofRing .times (by simp [left, square, IsTerm.integer])
  have difference : IsTerm (.arithmetic atom) (call "Subtract" [call "Times" [int (-2), a,
      call "Power" [call "Plus" [b, int 1, int (-1)], int 2]], int 0]) :=
    .apply (by simp [Vocabulary.arithmetic]) (.subtract _ _) (by simp [product, IsTerm.integer])
  exact .apply (by simp [Vocabulary.arithmetic]) (.abs _) (by simp [difference])

theorem evaluate_meaning_absoluteProduct :
    (∃ r t, evaluate 20 0 (absoluteProduct (sym "x") (sym "y")) Session.initial = .ok r t ∧
      ∀ assign, meaning assign r = meaning assign (absoluteProduct (sym "x") (sym "y"))) ∧
    ∃ t, evaluate 20 0 (absoluteProduct (int 3) (int 5)) Session.initial = .ok (int 150) t := by
  constructor
  · have found : Step.returns (fun _ => true)
        (evaluate 20 0 (absoluteProduct (sym "x") (sym "y")) Session.initial) = true := by
      decide +kernel
    obtain ⟨r, t, run, _⟩ := Step.returns_iff.1 found
    have term : IsTerm (.arithmetic fun _ => True) (absoluteProduct (sym "x") (sym "y")) :=
      absoluteProduct_isTerm (.atom trivial) (.atom trivial)
    exact ⟨r, t, run, (evaluate_meaning Session.initial_bare term run).2.1⟩
  · have found : Step.returns (fun _ => true)
        (evaluate 20 0 (absoluteProduct (int 3) (int 5)) Session.initial) = true := by
      decide +kernel
    obtain ⟨r, t, run, _⟩ := Step.returns_iff.1 found
    have term : IsTerm (.arithmetic fun _ => False) (absoluteProduct (int 3) (int 5)) :=
      absoluteProduct_isTerm (.integer 3) (.integer 5)
    refine ⟨t, ?_⟩
    rw [run, (evaluate_meaning Session.initial_bare term run).2.2 (fun _ => id) fun _ => 0]
    rfl

end Symbolic
