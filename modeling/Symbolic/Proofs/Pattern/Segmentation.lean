import Symbolic.Proofs.Pattern.Soundness

/-!
The ways to divide values among a row of patterns, said without a search. Each pattern takes
a segment, one segment follows the other, and the values that a name gets are equal to
each other and to the value that it had before. What the first pattern takes can be
split off: it fixes the value of its name for all the others.
-/
namespace Symbolic

open Value

/-- Elements without a NaN. -/
structure Value.Definite (v : Value) : Prop where
  element : v.isElement = true
  free : v.isNaNFree = true

theorem Value.Definite.ofItems {vs : List Value} (definite : ∀ v ∈ vs, v.Definite) : (ofItems vs).Definite where
  element := everywhere_expr.2 ⟨rfl, rfl, fun v member => (definite v member).element⟩
  free := everywhere_expr.2 ⟨rfl, rfl, fun v member => (definite v member).free⟩

namespace Bindings

/-- The bindings with more entries; a name that has a value keeps it. -/
def extend (b : Bindings) (cs : List (Symbol × Value)) : Bindings :=
  cs.foldl (fun b c => if (b.get? c.1).isSome then b else b.insert c.1 c.2) b

/-- The values in a list of entries are equal to those that their names have, and to the others of the
same name. -/
structure Agrees (b : Bindings) (cs : List (Symbol × Value)) : Prop where
  bound : ∀ c ∈ cs, ∀ v, b.get? c.1 = some v → v.equal c.2 = true
  alike : cs.Pairwise fun c d => c.1 = d.1 → c.2.equal d.2 = true

variable {b : Bindings} {c : Symbol × Value} {cs ds : List (Symbol × Value)} {x : Symbol} {v : Value}

theorem get_extend_one (b : Bindings) (c : Symbol × Value) (x : Symbol) :
    (b.extend [c]).get? x = (b.get? x).or (if x = c.1 then some c.2 else none) := by
  simp only [extend, List.foldl_cons, List.foldl_nil]
  cases bound : b.get? c.1 with
  | some v =>
    by_cases same : x = c.1
    · simp [same, bound]
    · simp [same]
  | none =>
    by_cases same : x = c.1
    · have placed : (b.insert c.1 c.2).get? c.1 = some c.2 := lookup_place_self c.1 c.2 b.entries
      simp [same, bound, placed]
    · have kept : (b.insert c.1 c.2).get? x = b.get? x := lookup_place_of_ne same c.2 b.entries
      simp [same, kept]

theorem extend_append (b : Bindings) (cs ds : List (Symbol × Value)) :
    b.extend (cs ++ ds) = (b.extend cs).extend ds :=
  List.foldl_append

theorem get_extend_cases (found : (b.extend cs).get? x = some v) : b.get? x = some v ∨ (x, v) ∈ cs := by
  induction cs generalizing b with
  | nil => exact .inl found
  | cons c cs ih =>
    rcases ih (b := b.extend [c]) found with early | late
    · rw [get_extend_one, Option.or_eq_some_iff] at early
      rcases early with before | ⟨_, here⟩
      · exact .inl before
      · obtain ⟨rfl, same⟩ := Option.ite_none_right_eq_some.1 here
        cases same
        exact .inr (List.mem_cons_self ..)
    · exact .inr (List.mem_cons_of_mem c late)

/-- Entries agree with bindings if the first does, and the others do once it has been bound. -/
theorem agrees_cons (definite : c.2.Definite) :
    b.Agrees (c :: cs) ↔ b.Agrees [c] ∧ (b.extend [c]).Agrees cs := by
  constructor
  · rintro ⟨bound, alike⟩
    obtain ⟨first, rest⟩ := List.pairwise_cons.1 alike
    refine ⟨⟨fun d member => ?_, List.pairwise_singleton _ c⟩, fun d member v found => ?_, rest⟩
    · obtain rfl := List.mem_singleton.1 member
      exact bound d (List.mem_cons_self ..)
    · rcases get_extend_cases found with before | here
      · exact bound d (List.mem_cons_of_mem c member) v before
      · obtain rfl := List.mem_singleton.1 here
        exact first d member rfl
  · rintro ⟨⟨first, _⟩, bound, alike⟩
    refine ⟨fun d member v found => ?_, List.pairwise_cons.2 ⟨fun d member same => ?_, alike⟩⟩
    · rcases List.mem_cons.1 member with rfl | later
      · exact first d (List.mem_singleton_self d) v found
      · exact bound d later v (by rw [get_extend_one, found]; rfl)
    · -- If the name had a value, both are equal to it; if not, it has the first one now.
      cases before : b.get? c.1 with
      | some v =>
        have left := first c (List.mem_singleton_self c) v before
        have right := bound d member v (by rw [get_extend_one, ← same, before]; rfl)
        exact equal_of_equal definite.element definite.free left right
      | none => exact bound d member c.2 (by rw [get_extend_one, ← same, before]; simp)

theorem agrees_append (definite : ∀ c ∈ cs, c.2.Definite) :
    b.Agrees (cs ++ ds) ↔ b.Agrees cs ∧ (b.extend cs).Agrees ds := by
  induction cs generalizing b with
  | nil => exact ⟨fun agrees => ⟨⟨by simp, .nil⟩, agrees⟩, fun both => both.2⟩
  | cons c cs ih =>
    have first : c.2.Definite := definite c (List.mem_cons_self ..)
    have later := ih (b := b.extend [c]) fun d member => definite d (List.mem_cons_of_mem c member)
    calc b.Agrees (c :: (cs ++ ds))
      _ ↔ b.Agrees [c] ∧ (b.extend [c]).Agrees (cs ++ ds) := agrees_cons first
      _ ↔ b.Agrees [c] ∧ (b.extend [c]).Agrees cs ∧ ((b.extend [c]).extend cs).Agrees ds := and_congr_right' later
      _ ↔ (b.Agrees [c] ∧ (b.extend [c]).Agrees cs) ∧ (b.extend (c :: cs)).Agrees ds := and_assoc.symm
      _ ↔ b.Agrees (c :: cs) ∧ (b.extend (c :: cs)).Agrees ds := and_congr_left' (agrees_cons first).symm

end Bindings

namespace Pattern

/-- What stands in a row of patterns: an atom or a symbol, a blank, or a sequence blank that takes at least
some number of values. The arguments of a blank begin with its constraint, if it has one. -/
inductive Item where
  | literal (v : Value)
  | blank (name : Option Symbol) (cs : List Value)
  | segment (name : Option Symbol) (atLeast : Nat) (cs : List Value)

/-- A pattern that an item is written as. -/
inductive Writes : Item → Value → Prop
  | literal {v : Value} (basic : (v.isAtom || v.isSymbol) = true) : Writes (.literal v) v
  | blank (cs : List Value) (t : SymbolSet) : Writes (.blank none cs) (.expr (sym "Blank") cs t)
  | named (x : Symbol) (cs : List Value) (t u : SymbolSet) :
    Writes (.blank (some x) cs) (.expr (sym "Pattern") [.symbol x, .expr (sym "Blank") cs t] u)
  | segment {p : Value} {name : Option Symbol} {n : Nat} {cs : List Value} (form : SegmentPattern p name n cs) :
    Writes (.segment name n cs) p

/-- An item takes a segment of values, as far as names are not concerned. An absent constraint asks for
nothing. -/
def Item.Takes : Item → List Value → Prop
  | .literal v, front => ∃ e, front = [e] ∧ v.equal e = true
  | .blank _ cs, front => ∃ e, front = [e] ∧ HeadFits true cs e
  | .segment _ n cs, front => n ≤ front.length ∧ ∀ e ∈ front, HeadFits true cs e

/-- What the name of an item gets: the value that a blank takes, or the list of a segment. -/
def Item.captured : Item → List Value → List (Symbol × Value)
  | .blank (some x) _, [e] => [(x, e)]
  | .segment (some x) _ _, front => [(x, ofItems front)]
  | _, _ => []

/-- What the names of a row of items get, from left to right. -/
def captures (items : List Item) (cut : List (List Value)) : List (Symbol × Value) :=
  (List.zipWith Item.captured items cut).flatten

/-- A way to divide values among items, one segment for each. -/
structure Segmentation (b : Bindings) (items : List Item) (es : List Value) (cut : List (List Value)) : Prop where
  whole : cut.flatten = es
  takes : List.Forall₂ Item.Takes items cut
  agrees : b.Agrees (captures items cut)

variable {b : Bindings} {item : Item} {items : List Item} {es front back : List Value} {cut : List (List Value)}

theorem captured_cases {c : Symbol × Value} (member : c ∈ item.captured front) :
    c.2 ∈ front ∨ c.2 = ofItems front := by
  unfold Item.captured at member
  split at member
  · obtain rfl := List.mem_singleton.1 member
    exact .inl (List.mem_singleton_self _)
  · obtain rfl := List.mem_singleton.1 member
    exact .inr rfl
  · cases member

theorem captured_definite (definite : ∀ e ∈ front, e.Definite) : ∀ c ∈ item.captured front, c.2.Definite := by
  intro c member
  rcases captured_cases member with inside | whole
  · exact definite _ inside
  · rw [whole]
    exact .ofItems definite

theorem segmentation_nil : Segmentation b [] es cut ↔ es = [] ∧ cut = [] := by
  constructor
  · rintro ⟨whole, takes, _⟩
    cases takes
    exact ⟨whole.symm, rfl⟩
  · rintro ⟨rfl, rfl⟩
    exact ⟨rfl, .nil, by simp [captures], .nil⟩

/-- The first item takes its segment and gives its name a value; the others divide the rest. -/
theorem segmentation_cons (definite : ∀ e ∈ front, e.Definite) :
    Segmentation b (item :: items) (front ++ back) (front :: cut) ↔
      (item.Takes front ∧ b.Agrees (item.captured front)) ∧
        Segmentation (b.extend (item.captured front)) items back cut := by
  have split : captures (item :: items) (front :: cut) = item.captured front ++ captures items cut := rfl
  constructor
  · rintro ⟨whole, takes, agrees⟩
    rw [split, Bindings.agrees_append (captured_definite definite)] at agrees
    cases takes with
    | cons first rest => exact ⟨⟨first, agrees.1⟩, List.append_cancel_left whole, rest, agrees.2⟩
  · rintro ⟨⟨first, agrees⟩, rfl, rest, later⟩
    refine ⟨rfl, .cons first rest, ?_⟩
    rw [split, Bindings.agrees_append (captured_definite definite)]
    exact ⟨agrees, later⟩

/-- A cut for a row of items has a first segment, which the values begin with. -/
theorem Segmentation.first (segmentation : Segmentation b (item :: items) es cut) :
    ∃ front later, cut = front :: later ∧ front ++ later.flatten = es ∧ item.Takes front ∧
      List.Forall₂ Item.Takes items later := by
  obtain ⟨whole, takes, _⟩ := segmentation
  cases takes with
  | @cons _ front _ later first rest => exact ⟨front, later, rfl, whole, first, rest⟩

/-! ### How many values items need -/

/-- What an item does in an argument list. -/
def Item.role : Item → Role
  | .segment name n cs => .segment (name.map .symbol) n (first? cs)
  | _ => .single

theorem Writes.role {p : Value} (writes : Writes item p) : role p = item.role := by
  cases writes with
  | literal basic => exact (IsPattern.literal basic).role
  | blank | named => rfl
  | segment form => exact form.role

theorem length_pos {p : Value} (writes : Writes item p) (some : takesNothing p = false) (takes : item.Takes front) :
    0 < front.length := by
  rw [takesNothing, writes.role] at some
  cases item with
  | literal | blank =>
    obtain ⟨e, rfl, _⟩ := takes
    exact Nat.one_pos
  | segment name n cs =>
    cases n with
    | zero => cases some
    | succ n => exact Nat.lt_of_lt_of_le n.succ_pos takes.1

theorem needed_cons_le {p : Value} {ps : List Value} {k n : Nat} (first : takesNothing p = false → 0 < k)
    (rest : neededAfterSegment ps ≤ n) : neededAfterSegment (p :: ps) ≤ k + n := by
  simp only [neededAfterSegment] at rest ⊢
  by_cases nothing : takesNothing p = true
  · rw [List.filter_cons_of_neg (by simp [nothing])]
    omega
  · have some := first (Bool.eq_false_iff.2 nothing)
    rw [List.filter_cons_of_pos (by simp [nothing]), List.length_cons]
    omega

/-- The values that patterns are taken to need are there wherever the items divide some. -/
theorem needed_le {ps : List Value} (written : List.Forall₂ Writes items ps)
    (takes : List.Forall₂ Item.Takes items cut) : neededAfterSegment ps ≤ cut.flatten.length := by
  induction written generalizing cut with
  | nil => exact Nat.zero_le _
  | @cons item p items ps writes written ih =>
    cases takes with
    | @cons _ front _ later first rest =>
      rw [List.flatten_cons, List.length_append]
      exact needed_cons_le (fun some => length_pos writes some first) (ih rest)

end Pattern
end Symbolic
