import Symbolic.Proofs.Elements
import Symbolic.Proofs.Pattern.Steps

/-!
When a pattern and a value belong together under bindings, said without a search. A
relation holds between a pattern and a value if every name has an equal value at each of
its places, and the arguments of a compound pattern divide the arguments of the value
among themselves, in order. What holds under bindings holds under all that extend them.
-/
namespace Symbolic

namespace Bindings

/-- Every name of the second bindings has the same value in the first. -/
def Extends (c b : Bindings) : Prop := ∀ x v, b.get? x = some v → c.get? x = some v

/-- A name has a value that is equal to the given one. -/
def Gives (b : Bindings) (x : Symbol) (e : Value) : Prop := ∃ v, b.get? x = some v ∧ v.equal e = true

theorem Extends.refl (b : Bindings) : b.Extends b := fun _ _ found => found

theorem Extends.trans {b c d : Bindings} (upper : d.Extends c) (lower : c.Extends b) : d.Extends b :=
  fun x v found => upper x v (lower x v found)

theorem Gives.mono {b c : Bindings} {x : Symbol} {e : Value} (extends_ : c.Extends b) (gives : b.Gives x e) :
    c.Gives x e := by
  obtain ⟨v, found, same⟩ := gives
  exact ⟨v, extends_ x v found, same⟩

theorem lookup_place_self (x : Symbol) (v : Value) (es : List (Symbol × Value)) :
    lookup x (place x v es) = some v := by
  fun_induction place x v es with
  | case1 => simp [lookup]
  | case2 => simp [lookup]
  | case3 => simp [lookup]
  | case4 t w es ne _ ih => simp [lookup, ne, ih]

theorem lookup_place_of_ne {x y : Symbol} (ne : y ≠ x) (v : Value) (es : List (Symbol × Value)) :
    lookup y (place x v es) = lookup y es := by
  fun_induction place x v es with
  | case1 => simp [lookup, ne]
  | case2 => simp [lookup, ne]
  | case3 => simp [lookup, ne]
  | case4 t w es _ _ ih => simp only [lookup, ih]

theorem insert_extends {b : Bindings} {x : Symbol} (free : b.get? x = none) (v : Value) :
    (b.insert x v).Extends b := by
  intro y w found
  have ne : y ≠ x := by
    rintro rfl
    rw [free] at found
    cases found
  exact (lookup_place_of_ne ne v b.entries).trans found

/-- A name that is bound had an equal value, or was free and has the new one. -/
theorem bind_cases {b c : Bindings} {x : Symbol} {v : Value} (run : b.bind x v = .ok c) :
    (∃ old, b.get? x = some old ∧ old.equal v = true ∧ c = b) ∨ b.get? x = none ∧ c = b.insert x v := by
  unfold bind at run
  split at run
  · next old found =>
    split at run
    · next same =>
      cases run
      exact .inl ⟨old, found, same, rfl⟩
    · cases run
  · next free =>
    split at run
    · cases run
      exact .inr ⟨free, rfl⟩
    · cases run

theorem bind_extends {b c : Bindings} {x : Symbol} {v : Value} (run : b.bind x v = .ok c) : c.Extends b := by
  rcases bind_cases run with ⟨_, _, _, rfl⟩ | ⟨free, rfl⟩
  · exact .refl _
  · exact insert_extends free v

/-- A name that was bound to a value equal to itself has an equal value, and no other name changed. -/
theorem bind_ok {b c : Bindings} {x : Symbol} {v : Value} (self : v.equal v = true)
    (run : b.bind x v = .ok c) : c.Extends b ∧ c.Gives x v := by
  refine ⟨bind_extends run, ?_⟩
  rcases bind_cases run with ⟨old, found, same, rfl⟩ | ⟨_, rfl⟩
  · exact ⟨old, found, same⟩
  · exact ⟨v, lookup_place_self x v b.entries, self⟩

end Bindings

namespace Pattern

open Value

/-- The head of a value is the one that a blank with the given arguments asks for. If an absent
constraint is taken to ask for nothing (`lax`), it fits every head. -/
def HeadFits (lax : Bool) (cs : List Value) (e : Value) : Prop :=
  ∀ c, cs.head? = some c → (lax = true ∧ c = .null) ∨ ∃ k, e.headOf = .ok k ∧ k.equal c = true

/-- A sequence blank, the least length of what it takes, and its arguments. -/
inductive SequenceBlank : Value → Nat → List Value → Prop
  | sequence (cs : List Value) (t : SymbolSet) : SequenceBlank (.expr (sym "BlankSequence") cs t) 1 cs
  | nullSequence (cs : List Value) (t : SymbolSet) : SequenceBlank (.expr (sym "BlankNullSequence") cs t) 0 cs

/-- A pattern that takes a segment of arguments: a sequence blank, or one that is named. -/
inductive SegmentPattern : Value → Option Symbol → Nat → List Value → Prop
  | blank {q : Value} {n : Nat} {cs : List Value} (form : SequenceBlank q n cs) : SegmentPattern q none n cs
  | named {q : Value} {n : Nat} {cs : List Value} (x : Symbol) (t : SymbolSet) (form : SequenceBlank q n cs) :
    SegmentPattern (.expr (sym "Pattern") [.symbol x, q] t) (some x) n cs

mutual

/-- The patterns for one value that are built from atoms, symbols, `Verbatim`, `Blank`, names,
`Alternatives` and compound patterns. -/
inductive IsPattern : Value → Prop
  | literal {v : Value} (basic : (v.isAtom || v.isSymbol) = true) : IsPattern v
  | verbatim (q : Value) (t : SymbolSet) : IsPattern (.expr (sym "Verbatim") [q] t)
  | blank {cs : List Value} (t : SymbolSet) (single : cs.length ≤ 1) : IsPattern (.expr (sym "Blank") cs t)
  | named {q : Value} (x : Symbol) (t : SymbolSet) (inner : IsPattern q) :
    IsPattern (.expr (sym "Pattern") [.symbol x, q] t)
  | alternatives {ps : List Value} (t : SymbolSet) (choices : ∀ p ∈ ps, IsPattern p) :
    IsPattern (.expr (sym "Alternatives") ps t)
  | call {f : Symbol} {as : List Value} {t : SymbolSet} (plain : isConstruct (.expr (.symbol f) as t) = false)
    (args : ∀ a ∈ as, IsArgument a) : IsPattern (.expr (.symbol f) as t)
  | apply {h : Value} {as : List Value} (t : SymbolSet) (curried : h.isExpr = true) (head : IsPattern h)
    (args : ∀ a ∈ as, IsArgument a) : IsPattern (.expr h as t)

/-- What can stand among the arguments of a compound pattern. -/
inductive IsArgument : Value → Prop
  | one {p : Value} (pattern : IsPattern p) : IsArgument p
  | segment {p : Value} {name : Option Symbol} {n : Nat} {cs : List Value}
    (form : SegmentPattern p name n cs) (single : cs.length ≤ 1) : IsArgument p

end

mutual

/-- A pattern and a value belong together under bindings. With `lax`, an absent inner pattern and
an absent constraint ask for nothing. -/
inductive Relates (lax : Bool) (s : Bindings) : Value → Value → Prop
  | literal {v e : Value} (basic : (v.isAtom || v.isSymbol) = true) (same : v.equal e = true) :
    Relates lax s v e
  | verbatim {q e : Value} {t : SymbolSet} (same : q.equal e = true) :
    Relates lax s (.expr (sym "Verbatim") [q] t) e
  | blank {cs : List Value} {e : Value} {t : SymbolSet} (fits : HeadFits lax cs e) :
    Relates lax s (.expr (sym "Blank") cs t) e
  | named {x : Symbol} {q e : Value} {t : SymbolSet} (inner : Relates lax s q e) (bound : s.Gives x e) :
    Relates lax s (.expr (sym "Pattern") [.symbol x, q] t) e
  | name {x : Symbol} {e : Value} {t : SymbolSet} (allowed : lax = true) (bound : s.Gives x e) :
    Relates lax s (.expr (sym "Pattern") [.symbol x, .null] t) e
  | alternatives {ps : List Value} {p e : Value} {t : SymbolSet} (choice : p ∈ ps) (inner : Relates lax s p e) :
    Relates lax s (.expr (sym "Alternatives") ps t) e
  | compound {h k : Value} {as es : List Value} {t u : SymbolSet}
    (plain : isConstruct (.expr h as t) = false) (head : Relates lax s h k) (args : RelatesAll lax s as es) :
    Relates lax s (.expr h as t) (.expr k es u)

/-- Argument patterns divide values among themselves, in order: one value for a pattern of one value,
a segment for a sequence blank. A name of a segment has the list of its values. -/
inductive RelatesAll (lax : Bool) (s : Bindings) : List Value → List Value → Prop
  | nil : RelatesAll lax s [] []
  | one {p e : Value} {ps es : List Value} (single : IsPattern p) (here : Relates lax s p e)
    (later : RelatesAll lax s ps es) : RelatesAll lax s (p :: ps) (e :: es)
  | segment {p : Value} {name : Option Symbol} {n : Nat} {cs ps front back : List Value}
    (form : SegmentPattern p name n cs) (long : n ≤ front.length) (fits : ∀ e ∈ front, HeadFits lax cs e)
    (bound : ∀ x, name = some x → s.Gives x (ofItems front)) (later : RelatesAll lax s ps back) :
    RelatesAll lax s (p :: ps) (front ++ back)

end

mutual

theorem Relates.mono {lax : Bool} {s t : Bindings} (extends_ : t.Extends s) {p e : Value} :
    Relates lax s p e → Relates lax t p e
  | .literal basic same => .literal basic same
  | .verbatim same => .verbatim same
  | .blank fits => .blank fits
  | .named inner bound => .named (inner.mono extends_) (bound.mono extends_)
  | .name allowed bound => .name allowed (bound.mono extends_)
  | .alternatives choice inner => .alternatives choice (inner.mono extends_)
  | .compound plain head args => .compound plain (head.mono extends_) (args.mono extends_)

theorem RelatesAll.mono {lax : Bool} {s t : Bindings} (extends_ : t.Extends s) {ps es : List Value} :
    RelatesAll lax s ps es → RelatesAll lax t ps es
  | .nil => .nil
  | .one single here later => .one single (here.mono extends_) (later.mono extends_)
  | .segment form long fits bound later =>
    .segment form long fits (fun x named => (bound x named).mono extends_) (later.mono extends_)

end

/-- A named pattern relates to a value only through its name and its inner pattern. -/
theorem Relates.named_parts {lax : Bool} {s : Bindings} {x : Symbol} {q e : Value} {t : SymbolSet}
    (related : Relates lax s (.expr (sym "Pattern") [.symbol x, q] t) e) :
    (Relates lax s q e ∨ lax = true ∧ q = .null) ∧ s.Gives x e := by
  generalize form : Value.expr (sym "Pattern") [.symbol x, q] t = p at related
  cases related with
  | literal basic =>
    subst form
    cases basic
  | named inner bound =>
    cases form
    exact ⟨.inl inner, bound⟩
  | name allowed bound =>
    cases form
    exact ⟨.inr ⟨allowed, rfl⟩, bound⟩
  | compound plain =>
    cases form
    cases plain
  | verbatim | blank | alternatives => simp at form

/-- A compound pattern relates to an expression only through its head and its arguments. -/
theorem Relates.compound_parts {lax : Bool} {s : Bindings} {h e : Value} {as : List Value} {t : SymbolSet}
    (related : Relates lax s (.expr h as t) e) (plain : isConstruct (.expr h as t) = false) :
    ∃ k es u, e = .expr k es u ∧ Relates lax s h k ∧ RelatesAll lax s as es := by
  generalize form : Value.expr h as t = p at related plain
  cases related with
  | literal basic =>
    subst form
    cases basic
  | verbatim | blank | named | name | alternatives => cases plain
  | compound _ head args =>
    cases form
    exact ⟨_, _, _, rfl, head, args⟩

end Pattern
end Symbolic
