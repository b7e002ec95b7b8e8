import Symbolic.Text.Quoted

/-!
Quoted texts can be read back. What a character is written as tells the character and where it ends
(`readOne_escape`), and no character starts with the quote, so a quoted text tells the text and where it
ends, whatever follows it (`quoted_append`).
-/
namespace Symbolic.Text

section Codes

def hexValue (c : Char) : Nat := if c.isDigit then c.toNat - 48 else c.toNat - 87

def ofHexDigits (cs : List Char) : Nat := cs.foldl (fun n c => 16 * n + hexValue c) 0

theorem ofHexDigits_append (cs ds : List Char) :
    ofHexDigits (cs ++ ds) = ds.foldl (fun n c => 16 * n + hexValue c) (ofHexDigits cs) := List.foldl_append

theorem hexValue_digitChar : ∀ n < 16, hexValue n.digitChar = n := by decide

theorem ofHexDigits_toDigits (n : Nat) : ofHexDigits (Nat.toDigits 16 n) = n := by
  induction n using Nat.base_induction 16 (by decide) with
  | single m small =>
    rw [Nat.toDigits_of_lt_base small]
    simp [ofHexDigits, hexValue_digitChar m small]
  | digit m k small positive ih =>
    rw [← Nat.toDigits_append_toDigits (by decide) positive small, ofHexDigits_append, ih,
      Nat.toDigits_of_lt_base small]
    simp [hexValue_digitChar k small]

theorem ofHexDigits_zeros (k : Nat) (ds : List Char) :
    ofHexDigits (List.replicate k '0' ++ ds) = ofHexDigits ds := by
  have zero : ofHexDigits (List.replicate k '0') = 0 := by
    induction k with
    | zero => rfl
    | succ k ih => rw [List.replicate_succ', ofHexDigits_append, ih]; rfl
  rw [ofHexDigits_append, zero]
  rfl

variable {width n : Nat}

theorem toList_hexDigits : (hexDigits width n).toList =
    List.replicate (width - (Nat.toDigits 16 n).length) '0' ++ Nat.toDigits 16 n :=
  String.toList_ofList

theorem ofHexDigits_hexDigits : ofHexDigits (hexDigits width n).toList = n := by
  rw [toList_hexDigits, ofHexDigits_zeros, ofHexDigits_toDigits]

theorem length_hexDigits (fits : (Nat.toDigits 16 n).length ≤ width) : (hexDigits width n).toList.length = width := by
  rw [toList_hexDigits, List.length_append, List.length_replicate]
  omega

end Codes

section Reading

/-- Reads the character of a code point that is written with a number of digits. -/
def readCode (width : Nat) (cs : List Char) : Char × List Char :=
  (charOf (ofHexDigits (cs.take width)), cs.drop width)

def readEscape (d : Char) (cs : List Char) : Char × List Char :=
  if d = 'n' then ('\n', cs)
  else if d = 'r' then ('\r', cs)
  else if d = 't' then ('\t', cs)
  else if d = 'x' then readCode 2 cs
  else if d = 'u' then readCode 4 cs
  else if d = 'U' then readCode 8 cs
  else (d, cs)

def readOne : List Char → Option (Char × List Char)
  | [] => none
  | c :: cs =>
    if c = '\\' then
      match cs with
      | [] => none
      | d :: ds => some (readEscape d ds)
    else some (c, cs)

variable {q : Char}

theorem readCode_hexDigits (width : Nat) (c : Char) (cs : List Char) (some : 0 < width)
    (bounded : codePoint c < Nat.pow 16 width) :
    readCode width ((hexDigits width (codePoint c)).toList ++ cs) = (c, cs) := by
  have length := length_hexDigits ((Nat.length_toDigits_le_iff (by decide) some).2 bounded)
  rw [readCode, List.take_left' length, List.drop_left' length, ofHexDigits_hexDigits, charOf_codePoint]

theorem quoteOf_cases (cs : List Char) : quoteOf cs = '\'' ∨ quoteOf cs = '"' := by
  unfold quoteOf
  split
  · exact .inr rfl
  · exact .inl rfl

/-- The mark after the backslash says how many digits follow. -/
theorem readOne_code (digits : String) (cs : List Char) :
    readOne (("\\x" ++ digits).toList ++ cs) = some (readCode 2 (digits.toList ++ cs)) ∧
    readOne (("\\u" ++ digits).toList ++ cs) = some (readCode 4 (digits.toList ++ cs)) ∧
    readOne (("\\U" ++ digits).toList ++ cs) = some (readCode 8 (digits.toList ++ cs)) := by
  simp [readOne, readEscape]

theorem readOne_escape (quote : q = '\'' ∨ q = '"') (c : Char) (cs : List Char) :
    readOne ((escape q c).toList ++ cs) = some (c, cs) := by
  have least : codePoint c ≤ c.toNat := by
    unfold codePoint
    split <;> omega
  unfold escape
  split
  · next special =>
    rw [Bool.or_eq_true, beq_iff_eq, beq_iff_eq] at special
    rcases special with rfl | rfl
    · rcases quote with rfl | rfl <;> simp [readOne, readEscape]
    · simp [readOne, readEscape]
  · next ordinary =>
    rw [Bool.or_eq_true, beq_iff_eq, beq_iff_eq, not_or] at ordinary
    split
    · next line => simp [beq_iff_eq.1 line, readOne, readEscape]
    split
    · next back => simp [beq_iff_eq.1 back, readOne, readEscape]
    split
    · next tab => simp [beq_iff_eq.1 tab, readOne, readEscape]
    split
    · simp [readOne, ordinary.2]
    -- The number of digits is the least of 2, 4 and 8 that is enough.
    simp only
    split
    · next small =>
      have bounded : codePoint c < 0x100 := by omega
      rw [(readOne_code _ cs).1, readCode_hexDigits 2 c cs (by decide) bounded]
    split
    · next small =>
      have bounded : codePoint c < 0x10000 := by omega
      rw [(readOne_code _ cs).2.1, readCode_hexDigits 4 c cs (by decide) bounded]
    · have valid : c.toNat < 0xd800 ∨ 0xdfff < c.toNat ∧ c.toNat < 0x110000 := c.valid
      have bounded : codePoint c < 0x100000000 := by omega
      rw [(readOne_code _ cs).2.2, readCode_hexDigits 8 c cs (by decide) bounded]

theorem escape_ne_quote (quote : q = '\'' ∨ q = '"') (c : Char) (cs ds : List Char) :
    (escape q c).toList ++ cs ≠ q :: ds := by
  intro same
  have read := readOne_escape quote c cs
  have apart : q ≠ '\\' := by rcases quote with rfl | rfl <;> decide
  simp only [same, readOne, if_neg apart] at read
  obtain ⟨rfl, rfl⟩ := Prod.mk.inj (Option.some.inj read)
  -- The quote itself is written with a backslash before it.
  have first : (escape q q).toList = ['\\', q] := by simp [escape]
  rw [first] at same
  exact apart (List.cons.inj same).1.symm

end Reading

section Delimiting

variable {q : Char} {s t : List Char} {u w : List Char}

/-- The characters of a text, as they stand between the quotes. -/
def escaped (q : Char) (cs : List Char) : List Char := cs.flatMap fun c => (escape q c).toList

theorem toList_quoted (s : String) :
    (quoted s).toList = quoteOf s.toList :: (escaped (quoteOf s.toList) s.toList ++ [quoteOf s.toList]) := by
  have joined : ∀ cs : List Char, (String.join (cs.map (escape (quoteOf s.toList)))).toList =
      escaped (quoteOf s.toList) cs := by
    intro cs
    induction cs with
    | nil => rfl
    | cons c cs ih => simp [String.join_cons, ih, escaped]
  simp [quoted, joined]

theorem escaped_append (quote : q = '\'' ∨ q = '"') (same : escaped q s ++ q :: u = escaped q t ++ q :: w) :
    s = t ∧ u = w := by
  induction s generalizing t with
  | nil =>
    cases t with
    | nil => exact ⟨rfl, (List.cons.inj same).2⟩
    | cons d t =>
      rw [escaped, escaped, List.flatMap_cons, List.append_assoc] at same
      exact (escape_ne_quote quote d _ _ same.symm).elim
  | cons c s ih =>
    cases t with
    | nil =>
      rw [escaped, escaped, List.flatMap_cons, List.append_assoc] at same
      exact (escape_ne_quote quote c _ _ same).elim
    | cons d t =>
      rw [escaped, escaped, List.flatMap_cons, List.flatMap_cons, List.append_assoc, List.append_assoc] at same
      have read := congrArg readOne same
      rw [readOne_escape quote, readOne_escape quote] at read
      obtain ⟨rfl, rest⟩ := Prod.mk.inj (Option.some.inj read)
      obtain ⟨rfl, rfl⟩ := ih rest
      exact ⟨rfl, rfl⟩

/-- Quoted texts are told apart, also where more follows. -/
theorem quoted_append {a b : String} (same : (quoted a).toList ++ u = (quoted b).toList ++ w) : a = b ∧ u = w := by
  rw [toList_quoted, toList_quoted] at same
  obtain ⟨quotes, rest⟩ := List.cons.inj same
  rw [quotes] at rest
  obtain ⟨texts, after⟩ := escaped_append (quoteOf_cases b.toList) (by simpa using rest)
  exact ⟨String.toList_inj.1 texts, after⟩

end Delimiting

end Symbolic.Text
