import Mathlib.Algebra.Order.Ring.Nat
import Mathlib.Data.String.Basic
import Symbolic.Proofs.CanonicalOrder

/-!
What the canonical order makes of integers, texts, symbols and expressions: they come in four sections, one after
the other. Texts are in the order of their code points, symbols in that of their names, and expressions are ordered by
depth, then by leaves, then by what is written for them. Integers are in the order of their decimal texts, which is
not that of their values: filled up with zeros to one length, texts without signs are compared like numbers
(`repr_le_iff`), and with a minus sign in front of both the greater number comes first
(`textLe_iff`). Main statement: the sections, and exactly which lists have their integers in the order of
their values.
-/
namespace Symbolic

open Value

section Digits

def digitsValue (cs : List Char) : Nat := Nat.ofDigitChars 10 cs 0

theorem digitsValue_cons (c : Char) (cs : List Char) :
    digitsValue (c :: cs) = (c.toNat - '0'.toNat) * 10 ^ cs.length + digitsValue cs := by
  unfold digitsValue
  rw [Nat.ofDigitChars_cons, Nat.ofDigitChars_eq_ofDigitChars_zero, Nat.mul_zero, Nat.zero_add, Nat.mul_comm]

theorem digitsValue_toDigits (n : Nat) : digitsValue (Nat.toDigits 10 n) = n := Nat.ofDigitChars_ten_toDigits

theorem digitsValue_lt {cs : List Char} (digits : ∀ c ∈ cs, c.isDigit = true) : digitsValue cs < 10 ^ cs.length := by
  induction cs with
  | nil => decide
  | cons c cs ih =>
    obtain ⟨first, rest⟩ := List.forall_mem_cons.1 digits
    have digit : c.toNat - '0'.toNat ≤ 9 := by
      have bound := (Char.isDigit_iff_toNat.1 first).2
      have nine : '9'.toNat = '0'.toNat + 9 := rfl
      omega
    calc digitsValue (c :: cs) = (c.toNat - '0'.toNat) * 10 ^ cs.length + digitsValue cs := digitsValue_cons c cs
      _ < 9 * 10 ^ cs.length + 10 ^ cs.length := Nat.add_lt_add_of_le_of_lt (Nat.mul_le_mul_right _ digit) (ih rest)
      _ = 10 ^ (c :: cs).length := by rw [List.length_cons, Nat.pow_succ]; omega

/-- Numbers of a unit that is above what is added to them are compared by how often they have the unit. -/
theorem units_le_iff {a b u v unit : Nat} (left : u < unit) (right : v < unit) :
    a * unit + u ≤ b * unit + v ↔ a < b ∨ a = b ∧ u ≤ v := by
  rcases Nat.lt_trichotomy a b with less | rfl | more
  · have := Nat.mul_le_mul_right unit less
    rw [Nat.succ_mul] at this
    omega
  · omega
  · have := Nat.mul_le_mul_right unit more
    rw [Nat.succ_mul] at this
    omega

/-- Texts are compared by their first characters and then by the rest. -/
theorem ofList_cons_le_iff (c d : Char) (cs ds : List Char) :
    Text.Le (String.ofList (c :: cs)) (String.ofList (d :: ds)) ↔ Text.codePoint c < Text.codePoint d ∨
      Text.codePoint c = Text.codePoint d ∧ Text.Le (String.ofList cs) (String.ofList ds) := by
  simp only [Text.Le, Text.compare, Text.codePoints, String.toList_ofList, List.map_cons, List.compareLex_cons_cons,
    Ordering.isLE_then_iff_or, Nat.compare_eq_lt, Nat.compare_eq_eq]

theorem codePoint_digit {c : Char} (digit : c.isDigit = true) : Text.codePoint c = c.toNat := by
  have bound := (Char.isDigit_iff_toNat.1 digit).2
  have nine : '9'.toNat = 57 := rfl
  have none : c.toNat - Text.halfShift = 0 := by
    rw [Text.halfShift]
    omega
  rw [Text.codePoint, none]
  rfl

/-- Of two rows of digits, one that is not longer comes first if what it stands for, filled up with zeros to the length
of the other, is not greater. -/
theorem digits_le_iff {cs ds : List Char} (left : ∀ c ∈ cs, c.isDigit = true) (right : ∀ d ∈ ds, d.isDigit = true)
    (shorter : cs.length ≤ ds.length) :
    Text.Le (String.ofList cs) (String.ofList ds) ↔
      digitsValue cs * 10 ^ (ds.length - cs.length) ≤ digitsValue ds := by
  induction cs generalizing ds with
  | nil =>
    have first : Text.Le (String.ofList []) (String.ofList ds) := by
      cases ds <;> simp [Text.Le, Text.compare, Text.codePoints, List.compareLex]
    have zero : digitsValue [] = 0 := rfl
    simp [zero, first]
  | cons c cs ih =>
    cases ds with
    | nil => simp at shorter
    | cons d ds =>
      obtain ⟨first, rest⟩ := List.forall_mem_cons.1 left
      obtain ⟨second, others⟩ := List.forall_mem_cons.1 right
      have fits : cs.length ≤ ds.length := Nat.le_of_succ_le_succ shorter
      have filled : 10 ^ cs.length * 10 ^ (ds.length - cs.length) = 10 ^ ds.length := by
        rw [← Nat.pow_add, Nat.add_sub_cancel' fits]
      have below : digitsValue cs * 10 ^ (ds.length - cs.length) < 10 ^ ds.length := by
        rw [← filled]
        exact Nat.mul_lt_mul_of_pos_right (digitsValue_lt rest) (Nat.pow_pos (by decide))
      -- Filled up, both first digits count in units of `10 ^ ds.length`.
      rw [ofList_cons_le_iff, ih rest others fits, digitsValue_cons, digitsValue_cons, List.length_cons,
        List.length_cons, Nat.add_sub_add_right, Nat.add_mul, Nat.mul_assoc, filled,
        units_le_iff below (digitsValue_lt others), codePoint_digit first, codePoint_digit second]
      have := (Char.isDigit_iff_toNat.1 first).1
      have := (Char.isDigit_iff_toNat.1 second).1
      grind

end Digits

section Integers

/-- How many decimal digits a number has; zero has one. -/
def digitCount (n : Nat) : Nat := (Nat.toDigits 10 n).length

theorem repr_le_iff {a b : Nat} (less : a ≤ b) :
    Text.Le (Nat.repr a) (Nat.repr b) ↔ a * 10 ^ (digitCount b - digitCount a) ≤ b := by
  have digits : ∀ n : Nat, ∀ c ∈ Nat.toDigits 10 n, c.isDigit = true :=
    fun n c member => Nat.isDigit_of_mem_toDigits (by decide) (by decide) member
  have compared := digits_le_iff (digits a) (digits b) (length_toDigits_le less)
  rw [digitsValue_toDigits, digitsValue_toDigits] at compared
  exact compared

/-- The text of an integer does not come after that of another. -/
def TextLe (m n : Int) : Prop := Text.Le (Number.intText m) (Number.intText n)

/-- When the texts of an integer and of a greater one are in order. Without signs the smaller number, filled up with
zeros to the length of the other, is not above it. Behind two signs the smaller integer has the greater number, and
the other one, filled up, is above that. -/
def TextsAscend (m n : Int) : Prop :=
  (0 ≤ m → m.natAbs * 10 ^ (digitCount n.natAbs - digitCount m.natAbs) ≤ n.natAbs) ∧
  (n < 0 → m.natAbs < n.natAbs * 10 ^ (digitCount m.natAbs - digitCount n.natAbs))

instance (m n : Int) : Decidable (TextsAscend m n) := inferInstanceAs (Decidable (_ ∧ _))

theorem minus_append (s : String) : "-" ++ s = String.ofList ('-' :: s.toList) := by simp

theorem minus_le_iff (s t : String) : Text.Le ("-" ++ s) ("-" ++ t) ↔ Text.Le s t := by
  rw [minus_append, minus_append, ofList_cons_le_iff]
  simp

/-- A minus sign comes before all digits. -/
theorem minus_le_repr (s : String) (b : Nat) : Text.Le ("-" ++ s) (Nat.repr b) := by
  obtain ⟨d, ds, form⟩ := List.exists_cons_of_ne_nil (Nat.toDigits_ne_nil : Nat.toDigits 10 b ≠ [])
  have digit : d.isDigit = true :=
    Nat.isDigit_of_mem_toDigits (by decide) (by decide) (form ▸ List.mem_cons_self : d ∈ Nat.toDigits 10 b)
  have digits : Nat.repr b = String.ofList (d :: ds) := congrArg String.ofList form
  rw [minus_append, digits, ofList_cons_le_iff, codePoint_digit digit]
  exact .inl (Nat.lt_of_lt_of_le (by decide) (Char.isDigit_iff_toNat.1 digit).1)

theorem textLe_antisymm {m n : Int} (first : TextLe m n) (second : TextLe n m) : m = n :=
  intText_injective (Text.le_antisymm first second)

theorem textLe_iff {m n : Int} (less : m < n) : TextLe m n ↔ TextsAscend m n := by
  unfold TextsAscend
  by_cases positive : 0 ≤ m
  · have bothPositive : ¬ n < 0 := by omega
    rw [TextLe, Number.intText, if_neg (by omega), Number.intText, if_neg bothPositive, repr_le_iff (by omega)]
    simp [positive, bothPositive]
  · by_cases negative : n < 0
    · -- Behind the signs the greater number is that of `m`, so that the texts are compared the other way round.
      have strict : TextLe m n ↔ ¬ TextLe n m :=
        ⟨fun first second => Int.ne_of_lt less (textLe_antisymm first second), (Text.le_total _ _).resolve_right⟩
      rw [strict, TextLe, Number.intText, if_pos negative, Number.intText, if_pos (by omega), minus_le_iff,
        repr_le_iff (by omega), Nat.not_le]
      simp [positive, negative]
    · rw [TextLe, Number.intText, if_pos (by omega), Number.intText, if_neg negative]
      simp [positive, negative, minus_le_repr]

end Integers

namespace Value

/-- What the canonical order has a section for. -/
inductive Sectioned : Value → Prop
  | integer (n : Int) : Sectioned (int n)
  | text (s : String) : Sectioned (.text s)
  | symbol (x : Symbol) : Sectioned (.symbol x)
  | expr (h : Value) (as : List Value) (t : SymbolSet) : Sectioned (.expr h as t)

structure Sections where
  integers : List Int
  texts : List String
  symbols : List Symbol
  expressions : List Value
  areExprs : ∀ e ∈ expressions, e.isExpr = true

/-- An expression is not larger than another: depths are compared first, then the numbers of leaves, then the texts. -/
def SizeLe (a b : Value) : Prop :=
  a.depth < b.depth ∨ a.depth = b.depth ∧
    (a.leafCount < b.leafCount ∨ a.leafCount = b.leafCount ∧ Text.Le a.display b.display)

namespace Sections

def values (s : Sections) : List Value :=
  s.integers.map int ++ (s.texts.map .text ++ (s.symbols.map .symbol ++ s.expressions))

/-- Every section is in its order; that of the integers is given. -/
structure Ordered (s : Sections) (rel : Int → Int → Prop) : Prop where
  integers : s.integers.Pairwise rel
  texts : s.texts.Pairwise Text.Le
  symbols : s.symbols.Pairwise fun x y => Text.Le x.name y.name
  expressions : s.expressions.Pairwise SizeLe

theorem int_mem_values {s : Sections} {n : Int} : int n ∈ s.values ↔ n ∈ s.integers := by
  have foreign : int n ∉ s.expressions := fun member => by cases s.areExprs _ member
  simp [values, foreign]

end Sections

@[simp] theorem rank_int (n : Int) : (int n).sortKey.rank = 0 := rfl

@[simp] theorem rank_text (t : String) : (text t).sortKey.rank = 1 := rfl

@[simp] theorem rank_symbol (x : Symbol) : (symbol x).sortKey.rank = 2 := rfl

theorem rank_of_isExpr {a : Value} (expression : a.isExpr = true) : a.sortKey.rank = 3 := by
  cases a <;> cases expression
  rfl

theorem Before.rank_le {a b : Value} (before : Before a b) : a.sortKey.rank ≤ b.sortKey.rank := by
  rw [Before, SortKey.le_iff] at before
  omega

/-- Values of one rank and then values of higher ranks are in order if both are. -/
theorem pairwise_before_append {as bs : List Value} (k : Nat) (left : ∀ a ∈ as, a.sortKey.rank = k)
    (right : ∀ b ∈ bs, k < b.sortKey.rank) : (as ++ bs).Pairwise Before ↔ as.Pairwise Before ∧ bs.Pairwise Before := by
  have across : ∀ a ∈ as, ∀ b ∈ bs, Before a b :=
    fun a first b second => SortKey.le_iff.2 (.inl (by rw [left a first]; exact right b second))
  rw [List.pairwise_append]
  exact ⟨fun both => ⟨both.1, both.2.1⟩, fun both => ⟨both.1, both.2, across⟩⟩

/-- Among values of higher ranks there are none of a rank. -/
theorem eq_nil_of_rank {α : Type} {f : α → Value} {k : Nat} {as : List α} {vs : List Value}
    (rank : ∀ a, (f a).sortKey.rank = k) (inside : ∀ a ∈ as, f a ∈ vs) (higher : ∀ v ∈ vs, k < v.sortKey.rank) :
    as = [] := by
  refine List.eq_nil_iff_forall_not_mem.2 fun a member => ?_
  have impossible := higher (f a) (inside a member)
  rw [rank] at impossible
  exact Nat.lt_irrefl k impossible

theorem before_int {m n : Int} : Before (int m) (int n) ↔ TextLe m n := by
  simp [Before, SortKey.le_iff, sortKey, display, Number.text, TextLe]

theorem before_text {t u : String} : Before (text t) (text u) ↔ Text.Le t u := by
  simp [Before, SortKey.le_iff, sortKey]

theorem before_symbol {x y : Symbol} : Before (symbol x) (symbol y) ↔ Text.Le x.name y.name := by
  simp [Before, SortKey.le_iff, sortKey]

theorem before_expr {a b : Value} (left : a.isExpr = true) (right : b.isExpr = true) : Before a b ↔ SizeLe a b := by
  cases a <;> cases left
  cases b <;> cases right
  simp [Before, SortKey.le_iff, sortKey, SizeLe]

/-- Sections are in canonical order one after the other if each is, the integers by their texts. -/
theorem Sections.pairwise_before_iff (s : Sections) : s.values.Pairwise Before ↔ s.Ordered TextLe := by
  have last : ∀ e ∈ s.expressions, e.sortKey.rank = 3 := fun e member => rank_of_isExpr (s.areExprs e member)
  have expressions : s.expressions.Pairwise Before ↔ s.expressions.Pairwise SizeLe := by
    refine List.Pairwise.iff_of_mem fun left right => ?_
    exact before_expr (s.areExprs _ left) (s.areExprs _ right)
  rw [values, pairwise_before_append 0 (by simp) (by simp +contextual [or_imp, forall_and, last]),
    pairwise_before_append 1 (by simp) (by simp +contextual [or_imp, last]),
    pairwise_before_append 2 (by simp) (by simp +contextual [last])]
  simp only [List.pairwise_map, before_int, before_text, before_symbol, expressions]
  exact ⟨fun each => ⟨each.1, each.2.1, each.2.2.1, each.2.2.2⟩,
    fun each => ⟨each.integers, each.texts, each.symbols, each.expressions⟩⟩

/-- What is in canonical order and has a section is in sections. -/
theorem exists_sections {zs : List Value} (sectioned : ∀ z ∈ zs, Sectioned z) (ordered : zs.Pairwise Before) :
    ∃ s : Sections, s.values = zs := by
  induction zs with
  | nil => exact ⟨⟨[], [], [], [], by simp⟩, rfl⟩
  | cons z zs ih =>
    obtain ⟨kind, others⟩ := List.forall_mem_cons.1 sectioned
    obtain ⟨first, rest⟩ := List.pairwise_cons.1 ordered
    obtain ⟨s, rfl⟩ := ih others rest
    -- Sections of a lower rank than that of `z` are empty, so that `z` goes to the front of its own.
    have higher : ∀ k, k < z.sortKey.rank → ∀ v ∈ s.values, k < v.sortKey.rank :=
      fun k less v member => Nat.lt_of_lt_of_le less (first v member).rank_le
    have noIntegers : 0 < z.sortKey.rank → s.integers = [] := fun less =>
      eq_nil_of_rank rank_int (fun n member => by simp [Sections.values, member]) (higher 0 less)
    have noTexts : 1 < z.sortKey.rank → s.texts = [] := fun less =>
      eq_nil_of_rank rank_text (fun t member => by simp [Sections.values, member]) (higher 1 less)
    have noSymbols : 2 < z.sortKey.rank → s.symbols = [] := fun less =>
      eq_nil_of_rank rank_symbol (fun x member => by simp [Sections.values, member]) (higher 2 less)
    cases kind with
    | integer n => exact ⟨{ s with integers := n :: s.integers }, rfl⟩
    | text t =>
      refine ⟨{ s with texts := t :: s.texts }, ?_⟩
      simp [Sections.values, noIntegers (by simp)]
    | symbol x =>
      refine ⟨{ s with symbols := x :: s.symbols }, ?_⟩
      simp [Sections.values, noIntegers (by simp), noTexts (by simp)]
    | expr h as t =>
      have rank := rank_of_isExpr (rfl : (Value.expr h as t).isExpr = true)
      refine ⟨⟨s.integers, s.texts, s.symbols, .expr h as t :: s.expressions, ?_⟩, ?_⟩
      · exact List.forall_mem_cons.2 ⟨rfl, s.areExprs⟩
      · simp [Sections.values, noIntegers, noTexts, noSymbols, rank]

section Sorted

variable {xs : List Value}

/-- Sorting yields a permutation in sections, the integers in a given order. -/
def SortsIntoSections (xs : List Value) (rel : Int → Int → Prop) : Prop :=
  ∃ s : Sections, sorted xs = .ok s.values ∧ s.values.Perm xs ∧ s.Ordered rel

theorem toldApart_of_sectioned (sectioned : ∀ x ∈ xs, Sectioned x) : ToldApart xs :=
  toldApart_of_integers fun x member => by
    cases sectioned x member with
    | integer n => exact .inr ⟨n, rfl⟩
    | _ => exact .inl rfl

theorem sortsIntoSections_by_text (sectioned : ∀ x ∈ xs, Sectioned x) (writable : areWritable xs = true) :
    SortsIntoSections xs TextLe := by
  have perm := canonicalSort_perm xs
  have ordered := canonicalSort_pairwise xs
  obtain ⟨s, values⟩ := exists_sections (fun z member => sectioned z (perm.mem_iff.1 member)) ordered
  rw [← values] at perm ordered
  have result := sorted_of_writable writable (toldApart_of_sectioned sectioned)
  exact ⟨s, by rw [result, values], perm, s.pairwise_before_iff.1 ordered⟩

theorem Sections.ordered_of_sorted {s : Sections} (sectioned : ∀ x ∈ xs, Sectioned x)
    (result : sorted xs = .ok s.values) :
    areWritable xs = true ∧ s.Ordered TextLe := by
  cases writable : areWritable xs with
  | true =>
    rw [sorted_of_writable writable (toldApart_of_sectioned sectioned)] at result
    rw [← s.pairwise_before_iff, ← Except.ok.inj result]
    exact ⟨rfl, canonicalSort_pairwise xs⟩
  | false =>
    rw [sorted_of_unwritable writable] at result
    cases result

/-- In sections that are in order by both, the smaller one of two integers has the smaller text. -/
theorem Sections.Ordered.textLe {s : Sections} (byValue : s.Ordered (· ≤ ·)) (byText : s.Ordered TextLe) {m n : Int}
    (first : m ∈ s.integers) (second : n ∈ s.integers) : m < n → TextLe m n := by
  -- No integer stands before a smaller one, so that the text of `m` comes first with `m`.
  refine List.Pairwise.forall_of_forall_of_flip (R := fun a b => a < b → TextLe a b)
    (fun a _ impossible => absurd impossible (Int.lt_irrefl a)) ?_ ?_ first second
  · refine byText.integers.imp ?_
    intro a b texts _
    exact texts
  · refine byValue.integers.imp ?_
    intro a b values impossible
    exact absurd impossible (Int.not_lt.2 values)

/-- The integers are in the order of their values if their texts are in that order. -/
theorem sortsIntoSections_by_value_iff (sectioned : ∀ x ∈ xs, Sectioned x) :
    SortsIntoSections xs (· ≤ ·) ↔
      areWritable xs = true ∧ ∀ m n, int m ∈ xs → int n ∈ xs → m < n → TextsAscend m n := by
  constructor
  · rintro ⟨s, result, perm, byValue⟩
    obtain ⟨writable, byText⟩ := Sections.ordered_of_sorted sectioned result
    refine ⟨writable, fun m n first second less => ?_⟩
    rw [← perm.mem_iff, Sections.int_mem_values] at first second
    exact (textLe_iff less).1 (byValue.textLe byText first second less)
  · rintro ⟨writable, ascend⟩
    obtain ⟨s, result, perm, byText⟩ := sortsIntoSections_by_text sectioned writable
    refine ⟨s, result, perm, { byText with integers := ?_ }⟩
    refine List.Pairwise.imp_of_mem (fun {m n} first second texts => ?_) byText.integers
    rw [← Sections.int_mem_values, perm.mem_iff] at first second
    refine Int.not_lt.1 fun less => Int.ne_of_lt less ?_
    exact textLe_antisymm ((textLe_iff less).2 (ascend n m second first less)) texts

/-- An integer and a smaller one stay in this order if their texts are in it. -/
theorem descending_pair {m n : Int} (less : m < n) (descend : ¬ TextsAscend m n)
    (writable : areWritable [int n, int m] = true) :
    sorted [int n, int m] = .ok [int n, int m] ∧ ¬ SortsIntoSections [int n, int m] (· ≤ ·) := by
  have sectioned : ∀ x ∈ [int n, int m], Sectioned x := by
    simp only [List.forall_mem_cons]
    exact ⟨.integer n, .integer m, by simp⟩
  have texts : TextLe n m := (Text.le_total _ _).resolve_right fun ascend => descend ((textLe_iff less).1 ascend)
  have ordered : [int n, int m].Pairwise Before := by simp [before_int, texts]
  have result := sorted_of_writable writable (toldApart_of_sectioned sectioned)
  refine ⟨by rw [result, canonicalSort_of_pairwise ordered], fun sections => descend ?_⟩
  exact ((sortsIntoSections_by_value_iff sectioned).1 sections).2 m n (by simp) (by simp) less

/-- Values are sorted into sections, the integers by their texts, unless one of them has no text. The integers are
in the order of their values exactly if, of any two, the smaller one has the smaller text. -/
theorem sorted_in_sections (sectioned : ∀ x ∈ xs, Sectioned x) :
    (areWritable xs = true → SortsIntoSections xs TextLe) ∧
    (areWritable xs = false → sorted xs = .error .malformed) ∧
    (SortsIntoSections xs (· ≤ ·) ↔
      areWritable xs = true ∧ ∀ m n, int m ∈ xs → int n ∈ xs → m < n → TextsAscend m n) :=
  ⟨sortsIntoSections_by_text sectioned, sorted_of_unwritable, sortsIntoSections_by_value_iff sectioned⟩

end Sorted

/-- Values of all sections, with integers of different signs and lengths. -/
def assortment : List Value :=
  [call "g" [int 10, sym "x"], sym "b", .text "b", int 305, call "f" [call "f" []], int (-7), .text "B", call "f" [],
    int 30, sym "a", int 29]

theorem assortment_sectioned : ∀ x ∈ assortment, Sectioned x := by
  simp only [assortment, List.forall_mem_cons]
  exact ⟨.expr .., .symbol _, .text _, .integer _, .expr .., .integer _, .text _, .expr .., .integer _, .symbol _,
    .integer _, by simp⟩

theorem assortment_sorted_in_sections :
    (∀ x ∈ assortment, Sectioned x) ∧ SortsIntoSections assortment (· ≤ ·) := by
  refine ⟨assortment_sectioned, (sorted_in_sections assortment_sectioned).2.2.2 ⟨by decide +kernel, ?_⟩⟩
  have integers : ∀ k, int k ∈ assortment → k = 305 ∨ k = -7 ∨ k = 30 ∨ k = 29 := by simp [assortment]
  intro m n first second less
  rcases integers m first with rfl | rfl | rfl | rfl <;> rcases integers n second with rfl | rfl | rfl | rfl
  all_goals first | decide | cases less

/-- Ten comes before two and minus one before minus two, since their texts do. An integer that is too long to be
written is not sorted at all. -/
theorem integers_out_of_order :
    (sorted [int 10, int 2] = .ok [int 10, int 2] ∧ ¬ SortsIntoSections [int 10, int 2] (· ≤ ·)) ∧
    (sorted [int (-1), int (-2)] = .ok [int (-1), int (-2)] ∧ ¬ SortsIntoSections [int (-1), int (-2)] (· ≤ ·)) ∧
    sorted [longInteger] = .error .malformed ∧ ¬ SortsIntoSections [longInteger] (· ≤ ·) := by
  have unsorted : sorted [longInteger] = .error .malformed := sorted_of_unwritable (by decide +kernel)
  refine ⟨descending_pair (by decide) (by decide) (by decide +kernel),
    descending_pair (by decide) (by decide) (by decide +kernel), unsorted, ?_⟩
  rintro ⟨s, result, _⟩
  rw [unsorted] at result
  cases result

end Value
end Symbolic
