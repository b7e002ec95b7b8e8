import Symbolic.Canonical
import Symbolic.Proofs.QuotedText

/-!
The written form of expressions is unambiguous: integers, texts, symbols with the names of
identifiers and expressions of such values can be told apart by what is written for them, also
inside a longer text (`Legible.unambiguous`). An expression starts with the innermost of its heads, and
what follows are lists of arguments in brackets. So the canonical order tells such values apart.
-/
namespace Symbolic

open Value

/-- A character of a name: a letter or a digit, an underscore, or anything beyond ASCII. -/
def isWordChar (c : Char) : Bool := c.isAlphanum || c == '_' || decide (128 ≤ c.toNat)

/-- A name that is shaped like an identifier: word characters, of which the first is no digit. -/
def isIdentifier (name : String) : Bool :=
  match name.toList with
  | [] => false
  | c :: cs => !c.isDigit && (c :: cs).all isWordChar

/-- A value that can be read back from its text. -/
inductive Readable : Value → Prop
  | integer (n : Int) : Readable (int n)
  | symbol {x : String} : isIdentifier x = true → Readable (sym x)
  | call {f : String} {as : List Value} : isIdentifier f = true → (∀ a ∈ as, Readable a) → Readable (call f as)

/-- A value that is told by what is written for it. -/
inductive Legible : Value → Prop
  | integer (n : Int) : Legible (int n)
  | text (s : String) : Legible (.text s)
  | symbol {x : String} : isIdentifier x = true → Legible (sym x)
  | expr {h : Value} {as : List Value} : h.canHead = true → Legible h → (∀ a ∈ as, Legible a) →
      Legible (.expr h as ⟨[], List.Pairwise.nil⟩)

theorem Readable.legible {a : Value} (readable : Readable a) : Legible a := by
  induction readable with
  | integer n => exact .integer n
  | symbol identifier => exact .symbol identifier
  | call identifier _ args => exact .expr rfl (.symbol identifier) args

section Words

/-- No mark that structures a text is among the characters. -/
def Unmarked (cs : List Char) : Prop := ∀ c ∈ cs, c ≠ '[' ∧ c ≠ ']' ∧ c ≠ ','

/-- The rest of a text after a word: it is empty or starts with a mark. -/
def Marked (cs : List Char) : Prop := ∀ c, cs.head? = some c → c = '[' ∨ c = ']' ∨ c = ','

/-- A word and the rest of a text are told apart by the first mark. -/
theorem unmarked_append {xs ys us ws : List Char} (left : Unmarked xs) (right : Unmarked ys) (leftRest : Marked us)
    (rightRest : Marked ws) (same : xs ++ us = ys ++ ws) : xs = ys ∧ us = ws := by
  induction xs generalizing ys with
  | nil =>
    cases ys with
    | nil => exact ⟨rfl, same⟩
    | cons y ys =>
      have marked := leftRest y (by rw [List.nil_append] at same; rw [same]; rfl)
      have unmarked := right y (by simp)
      grind
  | cons x xs ih =>
    cases ys with
    | nil =>
      have marked := rightRest x (by rw [List.nil_append] at same; rw [← same]; rfl)
      have unmarked := left x (by simp)
      grind
    | cons y ys =>
      obtain ⟨rfl, rest⟩ := List.cons.inj same
      obtain ⟨rfl, rfl⟩ := ih (fun c member => left c (by simp [member]))
        (fun c member => right c (by simp [member])) rest
      exact ⟨rfl, rfl⟩

/-- A character of a name or of a number. -/
def isPlainChar (c : Char) : Bool := isWordChar c || c == '-'

theorem plain_identifier {x : String} (identifier : isIdentifier x = true) : ∀ c ∈ x.toList, isPlainChar c = true := by
  intro c member
  unfold isIdentifier at identifier
  split at identifier
  · cases identifier
  · next d ds form =>
    rw [form] at member
    have word := List.all_eq_true.1 (Bool.and_eq_true_iff.1 identifier).2 c member
    rw [isPlainChar, word, Bool.true_or]

theorem length_toDigits_le {m n : Nat} (le : m ≤ n) :
    (Nat.toDigits 10 m).length ≤ (Nat.toDigits 10 n).length := by
  have positive : 0 < (Nat.toDigits 10 n).length := Nat.length_toDigits_pos
  have bound := (Nat.length_toDigits_le_iff (by decide) positive).1 (Nat.le_refl (Nat.toDigits 10 n).length)
  exact (Nat.length_toDigits_le_iff (by decide) positive).2 (Nat.lt_of_le_of_lt le bound)

theorem toList_intText (n : Int) :
    (Number.intText n).toList = if n < 0 then '-' :: Nat.toDigits 10 n.natAbs else Nat.toDigits 10 n.natAbs := by
  unfold Number.intText
  split <;> simp

theorem plain_int (n : Int) : ∀ c ∈ (Number.intText n).toList, isPlainChar c = true := by
  have digits : ∀ c ∈ Nat.toDigits 10 n.natAbs, isPlainChar c = true := by
    intro c member
    have digit := Nat.isDigit_of_mem_toDigits (by decide) (by decide) member
    simp [isPlainChar, isWordChar, Char.isAlphanum, digit]
  rw [toList_intText]
  split
  · exact List.forall_mem_cons.2 ⟨by decide, digits⟩
  · exact digits

theorem unmarked_of_plain {cs : List Char} (plain : ∀ c ∈ cs, isPlainChar c = true) : Unmarked cs := by
  intro c member
  have char := plain c member
  refine ⟨?_, ?_, ?_⟩
  all_goals
    rintro rfl
    cases char

/-- A name or a number does not start as a quoted text does. -/
theorem plain_ne_quoted {cs : List Char} {s : String} (plain : ∀ c ∈ cs, isPlainChar c = true) (some : cs ≠ [])
    (us ws : List Char) : cs ++ us ≠ (Text.quoted s).toList ++ ws := by
  intro same
  obtain ⟨c, cs, rfl⟩ := List.exists_cons_of_ne_nil some
  rw [Text.toList_quoted] at same
  obtain ⟨rfl, _⟩ := List.cons.inj same
  have char := plain _ List.mem_cons_self
  rcases Text.quoteOf_cases s.toList with quote | quote <;> rw [quote] at char <;> cases char

theorem intText_injective {m n : Int} (same : Number.intText m = Number.intText n) : m = n := by
  have digits : ∀ {a b : Nat}, Nat.toDigits 10 a = Nat.toDigits 10 b → a = b := by
    intro a b same
    rw [← Nat.ofDigitChars_ten_toDigits (n := a), same, Nat.ofDigitChars_ten_toDigits]
  have signed : ∀ a b : Nat, '-' :: Nat.toDigits 10 a ≠ Nat.toDigits 10 b := by
    intro a b same
    have member : '-' ∈ Nat.toDigits 10 b := same ▸ List.mem_cons_self
    have digit := Nat.isDigit_of_mem_toDigits (by decide) (by decide) member
    cases digit
  have texts := congrArg String.toList same
  rw [toList_intText, toList_intText] at texts
  split at texts <;> split at texts
  · have := digits (List.cons.inj texts).2
    omega
  · exact (signed _ _ texts).elim
  · exact (signed _ _ texts.symm).elim
  · have := digits texts
    omega

theorem intText_ne_identifier {x : String} (n : Int) (identifier : isIdentifier x = true) :
    Number.intText n ≠ x := by
  rintro rfl
  unfold isIdentifier at identifier
  rw [toList_intText] at identifier
  split at identifier
  · cases identifier
  · next c cs form =>
    split at form
    · obtain ⟨rfl, _⟩ := List.cons.inj form
      simp [isWordChar, List.all_cons] at identifier
    · have digit := Nat.isDigit_of_mem_toDigits (by decide) (by decide)
        (form ▸ List.mem_cons_self : c ∈ Nat.toDigits 10 n.natAbs)
      simp [digit] at identifier

end Words

section Texts

/-- The text of a value among arguments, where texts are quoted. -/
def written : Value → String
  | .text s => Text.quoted s
  | v => v.display

theorem written_of_canHead {h : Value} (callable : h.canHead = true) : written h = h.display := by
  cases h with
  | text s => cases callable
  | _ => rfl

/-- The characters of arguments, and of arguments that follow another one. -/
def argsText (as : List Value) : List Char := (commaSeparated (displayArgs as)).toList

def moreText : List Value → List Char
  | [] => []
  | as => ',' :: ' ' :: argsText as

theorem displayArgs_cons (a : Value) (as : List Value) : displayArgs (a :: as) = written a :: displayArgs as := by
  cases a <;> simp [displayArgs, written]

theorem argsText_cons (a : Value) (as : List Value) : argsText (a :: as) = (written a).toList ++ moreText as := by
  cases as with
  | nil => simp [argsText, displayArgs_cons, commaSeparated, displayArgs, moreText]
  | cons b bs => simp [argsText, displayArgs_cons, commaSeparated, moreText, String.intercalate_cons_cons]

/-- The value at the front of a text: what is left when all arguments are taken off. -/
def front : Value → Value
  | .expr h _ _ => front h
  | v => v

/-- The arguments that are taken off, those of the innermost head first. -/
def applied : Value → List (List Value)
  | .expr h as _ => applied h ++ [as]
  | _ => []

/-- The characters of lists of arguments in brackets. -/
def bracketed : List (List Value) → List Char
  | [] => []
  | as :: ass => '[' :: (argsText as ++ ']' :: bracketed ass)

theorem bracketed_append (ass bss : List (List Value)) : bracketed (ass ++ bss) = bracketed ass ++ bracketed bss := by
  induction ass with
  | nil => rfl
  | cons as ass ih => simp [bracketed, ih]

theorem written_eq {a : Value} (legible : Legible a) :
    (written a).toList = (written (front a)).toList ++ bracketed (applied a) := by
  induction legible with
  | integer | text | symbol => exact (List.append_nil _).symm
  | @expr h as callable _ _ head _ =>
    have text : (written (.expr h as ⟨[], List.Pairwise.nil⟩)).toList = (written h).toList ++ bracketed [as] := by
      rw [written_of_canHead callable]
      simp [written, display, bracketed, argsText]
    rw [text, head, front, applied, bracketed_append, List.append_assoc]

theorem eq_of_front {a b : Value} (left : Legible a) (right : Legible b) (fronts : front a = front b)
    (args : applied a = applied b) : a = b := by
  have bare : ∀ {h : Value} {as : List Value} {t : SymbolSet}, applied (.expr h as t) ≠ [] := by
    intro h as t
    rw [applied]
    simp
  induction left generalizing b with
  | integer | text | symbol =>
    cases right with
    | integer | text | symbol => exact fronts
    | expr => exact (bare args.symm).elim
  | expr _ _ _ head _ =>
    cases right with
    | integer | text | symbol => exact (bare args).elim
    | expr _ other _ =>
      obtain ⟨inner, last⟩ := List.append_inj' args rfl
      rw [head other fronts inner, List.singleton_inj.1 last]

end Texts

section Fronts

/-- What can stand at the front of a text. -/
inductive Leaf : Value → Prop
  | integer (n : Int) : Leaf (int n)
  | text (s : String) : Leaf (.text s)
  | symbol {x : String} : isIdentifier x = true → Leaf (sym x)

theorem Legible.leaf {a : Value} (legible : Legible a) : Leaf (front a) := by
  induction legible with
  | integer n => exact .integer n
  | text s => exact .text s
  | symbol identifier => exact .symbol identifier
  | expr _ _ _ head _ => exact head

theorem intText_ne_nil (n : Int) : (Number.intText n).toList ≠ [] := by
  rw [toList_intText]
  split
  · simp
  · exact Nat.toDigits_ne_nil

theorem identifier_ne_nil {x : String} (identifier : isIdentifier x = true) : x.toList ≠ [] := by
  intro empty
  simp [isIdentifier, empty] at identifier

/-- The value at the front is told from a text in which a mark follows it. -/
theorem Leaf.unambiguous {a b : Value} {u w : List Char} (left : Leaf a) (right : Leaf b) (leftRest : Marked u)
    (rightRest : Marked w) (same : (written a).toList ++ u = (written b).toList ++ w) : a = b ∧ u = w := by
  cases left with
  | text s =>
    cases right with
    | text t =>
      obtain ⟨rfl, rest⟩ := Text.quoted_append same
      exact ⟨rfl, rest⟩
    | integer n => exact (plain_ne_quoted (plain_int n) (intText_ne_nil n) w u same.symm).elim
    | symbol identifier =>
      exact (plain_ne_quoted (plain_identifier identifier) (identifier_ne_nil identifier) w u same.symm).elim
  | integer m =>
    cases right with
    | text t => exact (plain_ne_quoted (plain_int m) (intText_ne_nil m) u w same).elim
    | integer n =>
      obtain ⟨words, rest⟩ := unmarked_append (unmarked_of_plain (plain_int m)) (unmarked_of_plain (plain_int n))
        leftRest rightRest same
      exact ⟨by rw [intText_injective (String.toList_inj.1 words)], rest⟩
    | symbol identifier =>
      obtain ⟨words, _⟩ := unmarked_append (unmarked_of_plain (plain_int m))
        (unmarked_of_plain (plain_identifier identifier)) leftRest rightRest same
      exact (intText_ne_identifier m identifier (String.toList_inj.1 words)).elim
  | @symbol x identifier =>
    cases right with
    | text t =>
      exact (plain_ne_quoted (plain_identifier identifier) (identifier_ne_nil identifier) u w same).elim
    | integer n =>
      obtain ⟨words, _⟩ := unmarked_append (unmarked_of_plain (plain_identifier identifier))
        (unmarked_of_plain (plain_int n)) leftRest rightRest same
      exact (intText_ne_identifier n identifier (String.toList_inj.1 words).symm).elim
    | @symbol y other =>
      obtain ⟨words, rest⟩ := unmarked_append (unmarked_of_plain (plain_identifier identifier))
        (unmarked_of_plain (plain_identifier other)) leftRest rightRest same
      obtain rfl : x = y := String.toList_inj.1 words
      exact ⟨rfl, rest⟩

theorem Legible.ne_bracket {a : Value} (legible : Legible a) (us ws : List Char) :
    (written a).toList ++ us ≠ ']' :: ws := by
  have plain : ∀ {cs vs : List Char}, (∀ c ∈ cs, isPlainChar c = true) → cs ≠ [] → cs ++ vs ≠ ']' :: ws := by
    intro cs vs plain some same
    obtain ⟨c, cs, rfl⟩ := List.exists_cons_of_ne_nil some
    obtain ⟨rfl, _⟩ := List.cons.inj same
    cases plain _ List.mem_cons_self
  have leaf := legible.leaf
  rw [written_eq legible, List.append_assoc]
  generalize front a = v at leaf
  cases leaf with
  | integer n => exact plain (plain_int n) (intText_ne_nil n)
  | symbol identifier => exact plain (plain_identifier identifier) (identifier_ne_nil identifier)
  | text s =>
    intro same
    rw [written, Text.toList_quoted] at same
    rcases Text.quoteOf_cases s.toList with quote | quote <;> simp [quote] at same

end Fronts

section Arguments

/-- The rest of a text after a value: it is empty or ends the value. -/
def Closed (cs : List Char) : Prop := ∀ c, cs.head? = some c → c = ']' ∨ c = ','

theorem Closed.marked {cs : List Char} (closed : Closed cs) (ass : List (List Value)) :
    Marked (bracketed ass ++ cs) := by
  intro c first
  cases ass with
  | nil => exact .inr (closed c first)
  | cons as ass => exact .inl (Option.some.inj first).symm

theorem Closed.ne_open {cs ds : List Char} (closed : Closed cs) : cs ≠ '[' :: ds := by
  rintro rfl
  rcases closed '[' rfl with impossible | impossible <;> cases impossible

theorem moreText_closed (as : List Value) (cs : List Char) : Closed (moreText as ++ ']' :: cs) := by
  intro c first
  cases as with
  | nil => exact .inl (Option.some.inj first).symm
  | cons a as => exact .inr (Option.some.inj first).symm

/-- What is written for a value determines the value and where it ends. -/
def Unambiguous (a : Value) : Prop :=
  ∀ b, Legible b → ∀ u w, Closed u → Closed w → (written a).toList ++ u = (written b).toList ++ w → a = b ∧ u = w

theorem argsText_injective {as bs : List Value} {u w : List Char} (each : ∀ a ∈ as, Legible a ∧ Unambiguous a)
    (right : ∀ b ∈ bs, Legible b) (same : argsText as ++ ']' :: u = argsText bs ++ ']' :: w) :
    as = bs ∧ u = w := by
  -- No argument starts with a bracket, so that a bracket in its place says that there are none.
  have apart : ∀ {a : Value} {as : List Value} {u w : List Char}, Legible a →
      argsText (a :: as) ++ u ≠ ']' :: w := by
    intro a as u w legible same
    rw [argsText_cons, List.append_assoc] at same
    exact legible.ne_bracket _ _ same
  induction as generalizing bs with
  | nil =>
    cases bs with
    | nil => exact ⟨rfl, (List.cons.inj same).2⟩
    | cons b bs => exact (apart (right b (by simp)) same.symm).elim
  | cons a as ih =>
    cases bs with
    | nil => exact (apart (each a (by simp)).1 same).elim
    | cons b bs =>
      rw [argsText_cons, argsText_cons, List.append_assoc, List.append_assoc] at same
      obtain ⟨rfl, rest⟩ := (each a (by simp)).2 b (right b (by simp)) _ _ (moreText_closed as u)
        (moreText_closed bs w) same
      have others : as = bs ∧ u = w := by
        match as, bs with
        | [], [] => exact ⟨rfl, (List.cons.inj rest).2⟩
        | [], _ :: _ | _ :: _, [] => simp [moreText] at rest
        | c :: cs, d :: ds =>
          refine ih (fun x member => each x (by simp [member])) (fun x member => right x (by simp [member])) ?_
          simpa [moreText] using rest
      exact ⟨by rw [others.1], others.2⟩

theorem bracketed_injective {ass bss : List (List Value)} {u w : List Char}
    (each : ∀ as ∈ ass, ∀ a ∈ as, Legible a ∧ Unambiguous a) (right : ∀ bs ∈ bss, ∀ b ∈ bs, Legible b)
    (leftClosed : Closed u) (rightClosed : Closed w) (same : bracketed ass ++ u = bracketed bss ++ w) :
    ass = bss ∧ u = w := by
  induction ass generalizing bss with
  | nil =>
    cases bss with
    | nil => exact ⟨rfl, same⟩
    | cons bs bss => exact (leftClosed.ne_open same).elim
  | cons as ass ih =>
    cases bss with
    | nil => exact (rightClosed.ne_open same.symm).elim
    | cons bs bss =>
      have inner : argsText as ++ ']' :: (bracketed ass ++ u) = argsText bs ++ ']' :: (bracketed bss ++ w) := by
        simpa [bracketed] using same
      obtain ⟨rfl, rest⟩ := argsText_injective (each as (by simp)) (right bs (by simp)) inner
      obtain ⟨rfl, rfl⟩ := ih (fun bs member => each bs (by simp [member]))
        (fun bs member => right bs (by simp [member])) rest
      exact ⟨rfl, rfl⟩

theorem Legible.applied {a : Value} (legible : Legible a) : ∀ as ∈ applied a, ∀ x ∈ as, Legible x := by
  induction legible with
  | integer | text | symbol =>
    intro as member
    cases member
  | expr _ _ args head _ =>
    intro as member
    rcases List.mem_append.1 member with inner | last
    · exact head as inner
    · rw [List.mem_singleton.1 last]
      exact args

/-- A value is told by its text if its arguments, and those of its heads, are. -/
theorem Legible.unambiguous_of_applied {a : Value} (legible : Legible a)
    (each : ∀ as ∈ Symbolic.applied a, ∀ x ∈ as, Unambiguous x) : Unambiguous a := by
  intro b right u w leftClosed rightClosed same
  rw [written_eq legible, written_eq right, List.append_assoc, List.append_assoc] at same
  obtain ⟨fronts, rest⟩ := legible.leaf.unambiguous right.leaf (leftClosed.marked _) (rightClosed.marked _) same
  obtain ⟨args, after⟩ := bracketed_injective
    (fun as member x inside => ⟨legible.applied as member x inside, each as member x inside⟩) right.applied
    leftClosed rightClosed rest
  exact ⟨eq_of_front legible right fronts args, after⟩

/-- Legible values are told by what is written for them, also inside longer texts. -/
theorem Legible.unambiguous {a : Value} (legible : Legible a) : Unambiguous a := by
  refine legible.unambiguous_of_applied ?_
  induction legible with
  | integer | text | symbol =>
    intro as member
    cases member
  | expr _ _ args head each =>
    intro as member
    rcases List.mem_append.1 member with inner | last
    · exact head as inner
    · rw [List.mem_singleton.1 last]
      exact fun x inside => (args x inside).unambiguous_of_applied (each x inside)

theorem written_injective {a b : Value} (left : Legible a) (right : Legible b) (same : written a = written b) :
    a = b := by
  have closed : Closed [] := fun c first => by cases first
  exact (left.unambiguous b right [] [] closed closed (by rw [same])).1

end Arguments

theorem Legible.sortKey_injective {a b : Value} (left : Legible a) (right : Legible b) (same : a.sortKey = b.sortKey) :
    a = b := by
  -- Expressions and integers are displayed as they are written; texts and symbols are their own keys.
  have texts := congrArg SortKey.text same
  have ranks := congrArg SortKey.rank same
  cases left with
  | integer m =>
    cases right with
    | integer n => exact written_injective (.integer m) (.integer n) texts
    | text | symbol | expr => cases ranks
  | text s =>
    cases right with
    | text t =>
      obtain rfl : s = t := texts
      rfl
    | integer | symbol | expr => cases ranks
  | @symbol x _ =>
    cases right with
    | @symbol y _ =>
      obtain rfl : x = y := texts
      rfl
    | integer | text | expr => cases ranks
  | expr callable head args =>
    cases right with
    | expr other heads others => exact written_injective (.expr callable head args) (.expr other heads others) texts
    | integer | text | symbol => cases ranks

theorem sortKey_injective {a b : Value} (left : Readable a) (right : Readable b) (same : a.sortKey = b.sortKey) :
    a = b :=
  left.legible.sortKey_injective right.legible same

end Symbolic
