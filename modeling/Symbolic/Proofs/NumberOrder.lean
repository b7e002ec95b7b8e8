import Mathlib.Data.List.Pairwise
import Symbolic.Proofs.CanonicalOrder

/-!
Sorting numbers. Numbers are put in the order of their texts, and only numbers with one text are compared by size. The
texts of complex numbers are marked, so these are compared with each other alone, and two of them that are not the same
have no order. Main statement: numbers that can be written are sorted unless two of them clash (`sorted_numbers`).
-/
namespace Symbolic

open Value

namespace Number

/-! ### The mark of complex numbers -/

theorem unmarked_digits (n : Nat) : 'j' ∉ Nat.toDigits 10 n := fun member => by
  cases Nat.isDigit_of_mem_toDigits (by decide) (by decide) member

theorem unmarked_zeros (n : Nat) : 'j' ∉ (zeros n).toList := by
  simp [zeros]

theorem unmarked_exponent (e : Int) : 'j' ∉ (exponentText e).toList := by
  unfold exponentText
  simp only
  split <;> split <;> simp [unmarked_digits]

theorem unmarked_decimal {l : Layout} (suffix : 'j' ∉ l.wholeSuffix.toList) (d : Decimal) :
    'j' ∉ (l.decimal d).toList := by
  have digits := unmarked_digits d.digits
  have head (k : Nat) : 'j' ∉ (Nat.toDigits 10 d.digits).take k := fun member => digits (List.mem_of_mem_take member)
  have tail (k : Nat) : 'j' ∉ (Nat.toDigits 10 d.digits).drop k := fun member => digits (List.mem_of_mem_drop member)
  unfold Layout.decimal
  simp only [Nat.toList_repr]
  split
  · split
    · simp [digits, unmarked_zeros, suffix]
    · split
      · simp [digits, unmarked_zeros]
      · simp [head, tail]
  · split
    · simp [head, unmarked_exponent]
    · simpa [head, unmarked_exponent] using tail 1

theorem unmarked_real (x : Float) : 'j' ∉ (realText x).toList := by
  have suffix : 'j' ∉ Layout.standard.wholeSuffix.toList := by decide +kernel
  have size : 'j' ∉ (Layout.standard.magnitude x).toList := by
    unfold Layout.magnitude
    split
    · split
      · simp [suffix]
      · exact unmarked_decimal suffix _
    · split <;> simp
  rw [realText, Layout.real]
  split <;> simp [size]

/-- The texts of complex numbers are marked, and no others. -/
theorem mark_mem_text (n : Number) : 'j' ∈ n.text.toList ↔ n.isComplex = true := by
  cases n with
  | int k =>
    refine iff_of_false ?_ (by simp [isComplex])
    rw [text, toList_intText]
    split <;> simp [unmarked_digits]
  | real x => exact iff_of_false (unmarked_real x) (by simp [isComplex])
  | complex z =>
    refine iff_of_true ?_ rfl
    rw [text, Complex.text]
    split <;> simp

theorem isComplex_of_text {a b : Number} (same : a.text = b.text) : a.isComplex = b.isComplex := by
  rw [Bool.eq_iff_iff, ← mark_mem_text, ← mark_mem_text, same]

/-! ### Numbers without an order -/

/-- Whether two numbers are complex and have one text, but are not the same. -/
def clashes (a b : Number) : Bool := a.isComplex && a.text == b.text && !a.same b

theorem clashes_iff {a b : Number} :
    a.clashes b = true ↔ a.isComplex = true ∧ a.text = b.text ∧ a.identity ≠ b.identity := by
  rw [clashes, Bool.and_eq_true, Bool.and_eq_true, Bool.not_eq_true', beq_iff_eq, Bool.eq_false_iff, Ne, same_iff,
    and_assoc]

theorem clashes_self (a : Number) : a.clashes a = false := by
  rw [Bool.eq_false_iff, Ne, clashes_iff]
  exact fun clash => clash.2.2 rfl

theorem clashes_symm {a b : Number} (clash : a.clashes b = true) : b.clashes a = true := by
  obtain ⟨complex, text, apart⟩ := clashes_iff.1 clash
  exact clashes_iff.2 ⟨(isComplex_of_text text).symm.trans complex, text.symm, apart.symm⟩

theorem not_clashes_symm {a b : Number} (apart : a.clashes b = false) : b.clashes a = false :=
  Bool.eq_false_iff.2 fun clash => Bool.eq_false_iff.1 apart (clashes_symm clash)

/-- What has the text of two numbers that clash clashes with one of them. -/
theorem clashes_or {a b c : Number} (clash : b.clashes c = true) (tied : a.text = b.text) :
    a.clashes b = true ∨ a.clashes c = true := by
  obtain ⟨complex, text, apart⟩ := clashes_iff.1 clash
  have also := (isComplex_of_text tied).trans complex
  by_cases same : a.identity = b.identity
  · exact .inr (clashes_iff.2 ⟨also, tied.trans text, fun sameToo => apart (same.symm.trans sameToo)⟩)
  · exact .inl (clashes_iff.2 ⟨also, tied, same⟩)

/-- Numbers that clash have no order, and all others are put in the order of their texts. -/
theorem less_numbers (a b : Number) :
    if a.clashes b then less (.number a) (.number b) = .error (.arithmetic .unordered)
    else ∃ before, less (.number a) (.number b) = .ok before ∧
      if before then Text.Le a.text b.text else Text.Le b.text a.text := by
  have keys : (Value.number a).sortKey.compare (Value.number b).sortKey = Text.compare a.text b.text := rfl
  have even (clash : a.clashes b = true) : Text.compare a.text b.text = .eq := by
    rw [(clashes_iff.1 clash).2.1, Text.compare_self]
  unfold less precedes
  dsimp only
  rw [keys, show (Value.number a).keyNumber = a from rfl, show (Value.number b).keyNumber = b from rfl]
  cases order : Text.compare a.text b.text with
  | lt =>
    rw [if_neg fun clash => by cases order.symm.trans (even clash)]
    exact ⟨true, rfl, by simp [Text.Le, order]⟩
  | gt =>
    rw [if_neg fun clash => by cases order.symm.trans (even clash)]
    exact ⟨false, rfl, by simp [Text.Le, Text.compare_swap b.text, order]⟩
  | eq =>
    obtain tied : a.text = b.text := Std.LawfulEqCmp.eq_of_compare order
    have le : Text.Le a.text b.text ∧ Text.Le b.text a.text := by
      rw [tied]
      simp [Text.Le, Text.compare_self]
    cases same : a.same b with
    | true =>
      rw [if_neg (by simp [clashes, same])]
      exact ⟨false, rfl, le.2⟩
    | false =>
      rw [compare_eq, ← isComplex_of_text tied, Bool.or_self]
      cases complex : a.isComplex with
      | true => simp [clashes, complex, tied, same, Except.mapError]
      | false =>
        rw [if_neg (by simp [clashes, complex])]
        refine ⟨_, rfl, ?_⟩
        split
        · exact le.1
        · exact le.2

end Number

/-! ### Sorting -/

section Sorting

variable {x : Number} {ys zs ns : List Number}

/-- Whether numbers can be written but not be sorted, since two of them clash. -/
def disordered (ns : List Number) : Bool := ns.all Number.isWritable && ns.any fun a => ns.any (a.clashes ·)

/-- Numbers that are not put before all the others have been compared with the first that has their text. -/
theorem insertWith_numbers
    (run : insertWith (fun a b => less (.number a) (.number b)) x ys = .ok zs)
    (ordered : ys.Pairwise fun a b => Text.Le a.text b.text) (apart : ys.Pairwise fun a b => a.clashes b = false) :
    (zs.Pairwise fun a b => Text.Le a.text b.text) ∧ ∀ y ∈ ys, y.clashes x = false := by
  induction ys generalizing zs with
  | nil =>
    cases run
    exact ⟨List.pairwise_singleton _ _, by simp⟩
  | cons y ys ih =>
    obtain ⟨first, rest⟩ := List.pairwise_cons.1 ordered
    obtain ⟨apartFirst, apartRest⟩ := List.pairwise_cons.1 apart
    have compared := Number.less_numbers y x
    split at compared
    · rcases insertWith_cons run with ⟨asked, -⟩ | ⟨asked, -⟩ <;> cases compared.symm.trans asked
    next clash =>
    obtain ⟨before, answered, order⟩ := compared
    rcases insertWith_cons run with ⟨asked, rfl⟩ | ⟨asked, ws, inserted, rfl⟩ <;> cases answered.symm.trans asked
    · have all : ∀ z ∈ y :: ys, Text.Le x.text z.text :=
        List.forall_mem_cons.2 ⟨order, fun z member => Text.le_trans order (first z member)⟩
      refine ⟨List.pairwise_cons.2 ⟨all, ordered⟩, List.forall_mem_cons.2 ⟨Bool.eq_false_iff.2 clash, fun z member => ?_⟩⟩
      -- A number further on that clashes ties with the first, which then clashes with one of the two.
      by_contra clashes
      rw [Bool.not_eq_false] at clashes
      have tied : y.text = z.text := by
        refine Text.le_antisymm (first z member) ?_
        rw [(Number.clashes_iff.1 clashes).2.1]
        exact order
      rcases Number.clashes_or clashes tied with near | far
      · rw [apartFirst z member] at near
        cases near
      · exact clash far
    · obtain ⟨sorted, others⟩ := ih inserted rest apartRest
      refine ⟨List.pairwise_cons.2 ⟨fun z member => ?_, sorted⟩,
        List.forall_mem_cons.2 ⟨Bool.eq_false_iff.2 clash, others⟩⟩
      rcases List.mem_cons.1 ((insertWith_perm inserted).mem_iff.1 member) with rfl | later
      · exact order
      · exact first z later

theorem sortWith_numbers (run : sortWith (fun a b => less (.number a) (.number b)) ns = .ok zs) :
    (zs.Pairwise fun a b => Text.Le a.text b.text) ∧ ns.Pairwise fun a b => a.clashes b = false := by
  induction ns generalizing zs with
  | nil =>
    cases run
    exact ⟨.nil, .nil⟩
  | cons n ns ih =>
    obtain ⟨ys, sorted, inserted⟩ := Except.bind_ok run
    obtain ⟨ordered, apart⟩ := ih sorted
    have perm := sortWith_perm sorted
    obtain ⟨sortedToo, others⟩ := insertWith_numbers inserted ordered (apart.perm perm.symm Number.not_clashes_symm)
    refine ⟨sortedToo, List.pairwise_cons.2 ⟨fun m member => ?_, apart⟩⟩
    exact Number.not_clashes_symm (others m (perm.mem_iff.2 member))

theorem areWritable_numbers (ns : List Number) : areWritable (ns.map .number) = ns.all Number.isWritable := by
  induction ns with
  | nil => rfl
  | cons n ns ih => rw [List.map_cons, areWritable, ih, List.all_cons, Value.isWritable]

/-- Numbers are sorted unless one of them cannot be written or two of them clash. -/
theorem sorted_numbers (ns : List Number) :
    if ns.all Number.isWritable then
      if disordered ns then sorted (ns.map .number) = .error (.arithmetic .unordered)
      else ∃ ms : List Number, ms.Perm ns ∧ sorted (ns.map .number) = .ok (ms.map .number)
    else sorted (ns.map .number) = .error .malformed := by
  rw [← areWritable_numbers]
  split
  · next writable =>
    have every : ns.all Number.isWritable = true := (areWritable_numbers ns).symm.trans writable
    have sorting : sorted (ns.map .number) =
        (sortWith (fun a b => less (.number a) (.number b)) ns).map (List.map .number) := by
      rw [sorted_eq, requireWritable, if_pos writable, ← sortWith_map]
      rfl
    rw [sorting]
    cases run : sortWith (fun a b => less (.number a) (.number b)) ns with
    | ok ms =>
      rw [if_neg ?_]
      · exact ⟨ms, sortWith_perm run, rfl⟩
      · rw [disordered, every, Bool.true_and, Bool.not_eq_true, List.any_eq_false]
        intro a aIn clash
        obtain ⟨b, bIn, clash⟩ := List.any_eq_true.1 clash
        have symm : Std.Symm fun a b : Number => a.clashes b = false := ⟨fun _ _ => Number.not_clashes_symm⟩
        have apart := (sortWith_numbers run).2.forall_of_forall (fun a _ => Number.clashes_self a) aIn bIn
        rw [apart] at clash
        cases clash
    | error e =>
      obtain ⟨b, bIn, a, aIn, fails⟩ := exists_of_sortWith_error run
      have compared := Number.less_numbers a b
      split at compared
      · next clash =>
        rw [if_pos]
        · exact congrArg Except.error (Except.error.inj (fails.symm.trans compared))
        · rw [disordered, every, Bool.true_and]
          exact List.any_eq_true.2 ⟨a, aIn, List.any_eq_true.2 ⟨b, bIn, clash⟩⟩
      · obtain ⟨_, asked, -⟩ := compared
        cases fails.symm.trans asked
  · next unwritable => exact sorted_of_unwritable (Bool.eq_false_iff.2 unwritable)

end Sorting
end Symbolic
