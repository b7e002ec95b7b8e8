import Symbolic.Proofs.CanonicalOrder
import Symbolic.Proofs.Computation
import Symbolic.Proofs.Evaluation.Terms

/-!
The laws by which evaluation rewrites arithmetic terms. Flattening, sorting and every
builtin on terms are sequences of these laws, so that whatever the laws keep, evaluation
keeps as well.
-/
namespace Symbolic

open Value

/-- Rewriting by the laws of arithmetic, at any place and any number of times. -/
inductive Rewrites : Value → Value → Prop
  | refl (v : Value) : Rewrites v v
  | trans {u v w : Value} : Rewrites u v → Rewrites v w → Rewrites u w
  | inside (f : String) (before after : List Value) {a b : Value} :
    Rewrites a b → Rewrites (call f (before ++ a :: after)) (call f (before ++ b :: after))
  | permute (op : RingOp) {as bs : List Value} : as.Perm bs → Rewrites (call op.name as) (call op.name bs)
  | splice (op : RingOp) (before inner after : List Value) :
    Rewrites (call op.name (before ++ call op.name inner :: after)) (call op.name (before ++ inner ++ after))
  /-- Integers in front are combined. -/
  | collect (op : RingOp) (ns : List Int) (rest : List Value) :
    Rewrites (call op.name (ns.map int ++ rest)) (call op.name (int (op.total ns) :: rest))
  | unit (op : RingOp) (rest : List Value) : Rewrites (call op.name (int op.unit :: rest)) (call op.name rest)
  | sole (op : RingOp) (a : Value) : Rewrites (call op.name [a]) a
  | absorb (rest : List Value) : Rewrites (call "Times" (int 0 :: rest)) (int 0)
  | minus (a : Value) : Rewrites (call "Minus" [a]) (call "Times" [int (-1), a])
  | subtract (a b : Value) : Rewrites (call "Subtract" [a, b]) (call "Plus" [a, call "Times" [int (-1), b]])
  | abs (n : Int) : Rewrites (call "Abs" [int n]) (int n.natAbs)
  | absProduct (n : Int) (rest : List Value) :
    Rewrites (call "Abs" [call "Times" (int n :: rest)])
      (call "Abs" [call "Times" [int (-n), Arithmetic.soleOrCall "Times" rest]])
  | power (m : Int) {n : Int} : 0 ≤ n → Rewrites (call "Power" [int m, int n]) (int (m ^ n.toNat))
  | powerZero (a : Value) : Rewrites (call "Power" [a, int 0]) (int 1)
  | powerOne (a : Value) : Rewrites (call "Power" [a, int 1]) a

namespace Rewrites

theorem args {f : String} {as bs : List Value} (related : List.Forall₂ Rewrites as bs) :
    Rewrites (call f as) (call f bs) := by
  -- The arguments in front are rewritten already; the induction moves one more of them there.
  have after : ∀ before : List Value, Rewrites (call f (before ++ as)) (call f (before ++ bs)) := by
    induction related with
    | nil => exact fun before => .refl _
    | @cons a b as bs first rest ih =>
      intro before
      refine .trans (.inside f before as first) ?_
      simpa using ih (before ++ [b])
  exact after []

theorem eq_of_int {v w : Value} (rewrites : Rewrites v w) {n : Int} (integer : v = int n) : w = int n := by
  induction rewrites with
  | refl => exact integer
  | trans _ _ first second => exact second (first integer)
  | _ => cases integer

end Rewrites

/-- Arguments under a head may be replaced by others, as long as integers stay. -/
theorem Legal.replace {f : String} {before after : List Value} {a b : Value}
    (legal : Legal f (before ++ a :: after)) (integer : ∀ n, a = int n → b = int n) :
    Legal f (before ++ b :: after) := by
  generalize whole : before ++ a :: after = as at legal
  cases legal with
  | ring op => exact .ring op _
  | free _ free => exact .free _ free
  | minus c | abs c =>
    obtain ⟨rfl, here⟩ | ⟨_, _, there⟩ := List.append_eq_cons_iff.1 whole
    · cases here
      constructor
    · simp at there
  | subtract c d =>
    have length := congrArg List.length whole
    match before, after, whole with
    | [], [_], _ => exact .subtract b _
    | [_], [], _ => exact .subtract _ b
    | [], [], _ | [], _ :: _ :: _, _ | [_], _ :: _, _ | _ :: _ :: _, _, _ => simp at length
  | power c positive =>
    have length := congrArg List.length whole
    match before, after, whole with
    | [], [_], whole =>
      cases whole
      exact .power b positive
    | [_], [], whole =>
      cases whole
      rw [integer _ rfl]
      exact .power _ positive
    | [], [], _ | [], _ :: _ :: _, _ | [_], _ :: _, _ | _ :: _ :: _, _, _ => simp at length

section Terms

variable {V : Vocabulary} {as : List Value} {a : Value}

theorem IsTerm.opposite (term : IsTerm V a) : IsTerm V (call "Times" [int (-1), a]) := by
  refine .ofRing .times fun x member => ?_
  rcases List.mem_pair.1 member with rfl | rfl
  · exact .integer _
  · exact term

theorem IsTerm.soleOrCall (op : RingOp) (terms : ∀ a ∈ as, IsTerm V a) :
    IsTerm V (Arithmetic.soleOrCall op.name as) := by
  unfold Arithmetic.soleOrCall
  split
  · exact terms _ (by simp)
  · exact .ofRing op terms

end Terms

theorem Rewrites.isTerm {V : Vocabulary} {v w : Value} (rewrites : Rewrites v w) (term : IsTerm V v) :
    IsTerm V w := by
  induction rewrites with
  | refl => exact term
  | trans _ _ first second => exact second (first term)
  | inside f before after inner ih =>
    refine .apply term.head (term.legal.replace fun n => inner.eq_of_int) fun x member => ?_
    rcases List.mem_append.1 member with old | new
    · exact term.arg (by simp [old])
    · rcases List.mem_cons.1 new with rfl | old
      · exact ih (term.arg (by simp))
      · exact term.arg (by simp [old])
  | permute op perm => exact .ofRing op fun a member => term.arg (perm.mem_iff.2 member)
  | splice op before inner after =>
    refine .ofRing op fun a member => ?_
    have nested : IsTerm V (call op.name inner) := term.arg (by simp)
    simp only [List.mem_append] at member
    rcases member with (old | new) | old
    · exact term.arg (by simp [old])
    · exact nested.arg new
    · exact term.arg (by simp [old])
  | collect op ns rest =>
    refine .ofRing op fun a member => ?_
    rcases List.mem_cons.1 member with rfl | old
    · exact .integer _
    · exact term.arg (by simp [old])
  | unit op rest => exact .ofRing op fun a member => term.arg (by simp [member])
  | sole op a => exact term.arg (by simp)
  | absorb | abs | power | powerZero => exact .integer _
  | minus a => exact (term.arg (by simp)).opposite
  | subtract a b =>
    refine .ofRing .plus fun x member => ?_
    rcases List.mem_pair.1 member with rfl | rfl
    · exact term.arg (by simp)
    · exact (term.arg (by simp)).opposite
  | absProduct n rest =>
    have inner : IsTerm V (call "Times" (int n :: rest)) := term.arg (by simp)
    have factors : ∀ a ∈ rest, IsTerm V a := fun a member => inner.arg (by simp [member])
    refine .apply term.head (.abs _) fun x member => ?_
    rw [List.mem_singleton.1 member]
    refine .ofRing .times fun y inside => ?_
    rcases List.mem_pair.1 inside with rfl | rfl
    · exact .integer _
    · exact .soleOrCall .times factors
  | powerOne a => exact term.arg (by simp)

end Symbolic
