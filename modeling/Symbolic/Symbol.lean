import Symbolic.Text.Order

/-!
Symbols and finite sets of symbols. A symbol is its name; a set keeps its members in
the order of their names, each once, so that equal sets are equal lists.
-/
namespace Symbolic

/-- A symbol, known by its name. -/
structure Symbol where
  name : String
  deriving DecidableEq, Repr, Inhabited

namespace Symbol

/-- The order of symbols is the order of their names. -/
def Before (a b : Symbol) : Prop := Text.compare a.name b.name = .lt

instance (a b : Symbol) : Decidable (a.Before b) := inferInstanceAs (Decidable (_ = _))

variable {a b c : Symbol}

theorem Before.trans (first : a.Before b) (second : b.Before c) : a.Before c := Std.TransCmp.lt_trans first second

theorem Before.ne (before : a.Before b) : a ≠ b := by
  rintro rfl
  rw [Before, Text.compare_self] at before
  cases before

/-- Of two symbols one comes first. -/
theorem before_of_not (ne : a ≠ b) (after : ¬ a.Before b) : b.Before a := by
  unfold Before at after ⊢
  rw [Text.compare_swap] at after
  cases order : Text.compare b.name a.name with
  | lt => rfl
  | eq => exact absurd (congrArg Symbol.mk (Std.LawfulEqCmp.eq_of_compare order)).symm ne
  | gt => exact absurd (congrArg Ordering.swap order) after

end Symbol

/-- A finite set of symbols. -/
structure SymbolSet where
  members : List Symbol
  sorted : members.Pairwise Symbol.Before
  deriving DecidableEq

namespace SymbolSet

instance : Repr SymbolSet := ⟨fun s n => reprPrec s.members n⟩

theorem sorted_nil : ([] : List Symbol).Pairwise Symbol.Before := .nil

def empty : SymbolSet := ⟨[], sorted_nil⟩

instance : Inhabited SymbolSet := ⟨empty⟩

def contains (t : SymbolSet) (s : Symbol) : Bool := t.members.contains s

instance : Membership Symbol SymbolSet := ⟨fun t s => s ∈ t.members⟩

instance (s : Symbol) (t : SymbolSet) : Decidable (s ∈ t) := inferInstanceAs (Decidable (s ∈ t.members))

def isEmpty (t : SymbolSet) : Bool := t.members.isEmpty

def place (s : Symbol) : List Symbol → List Symbol
  | [] => [s]
  | t :: ts =>
    if s.Before t then s :: t :: ts
    else if t.Before s then t :: place s ts
    else t :: ts

theorem mem_of_mem_place {s x : Symbol} {ts : List Symbol} (h : x ∈ place s ts) : x = s ∨ x ∈ ts := by
  induction ts with
  | nil => simpa [place] using h
  | cons t ts ih =>
    simp only [place] at h
    split at h
    · simpa using h
    · split at h
      · rcases List.mem_cons.1 h with rfl | h
        · exact .inr (List.mem_cons_self ..)
        · exact (ih h).imp_right (List.mem_cons_of_mem t)
      · exact .inr h

theorem place_sorted {s : Symbol} {ts : List Symbol} (h : ts.Pairwise Symbol.Before) :
    (place s ts).Pairwise Symbol.Before := by
  induction ts with
  | nil => simp [place]
  | cons t ts ih =>
    obtain ⟨first, rest⟩ := List.pairwise_cons.1 h
    simp only [place]
    split
    · rename_i lt
      refine List.pairwise_cons.2 ⟨fun x hx => ?_, h⟩
      rcases List.mem_cons.1 hx with rfl | hx
      · exact lt
      · exact lt.trans (first x hx)
    · split
      · rename_i lt
        refine List.pairwise_cons.2 ⟨fun x hx => ?_, ih rest⟩
        rcases mem_of_mem_place hx with rfl | hx
        · exact lt
        · exact first x hx
      · exact h

def insert (t : SymbolSet) (s : Symbol) : SymbolSet := ⟨place s t.members, place_sorted t.sorted⟩

def ofList (ss : List Symbol) : SymbolSet := ss.foldl insert empty

def union (t u : SymbolSet) : SymbolSet := u.members.foldl insert t

def diff (t u : SymbolSet) : SymbolSet := ⟨t.members.filter (!u.contains ·), t.sorted.filter _⟩

def isSubset (t u : SymbolSet) : Bool := t.members.all u.contains

def meets (t u : SymbolSet) : Bool := t.members.any u.contains

end SymbolSet
end Symbolic
