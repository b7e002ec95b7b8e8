import Symbolic.Builtin.Control
import Symbolic.Proofs.Construction
import Symbolic.Proofs.Pattern.Threading

/-!
Matching a pattern that is an element against an element binds names to elements: to the value
or a part of it, to the list of a segment of its arguments, or to a default that stands in the pattern.
-/
namespace Symbolic.Pattern

open Value Step

section Binding

variable {σ : Type}

def Made (b : Bindings) : Prop := ∀ e ∈ b.entries, e.2.isElement = true

/-- Whatever was found binds names to elements. -/
def MadeIf (found : Option Bindings) : Prop := ∀ b, found = some b → Made b

abbrev MadeAll (found : List Bindings) : Prop := ∀ b ∈ found, Made b

theorem made_empty : Made .empty := fun _ member => by cases member

theorem keeps_made : Keeps (fun v => v.isElement = true) Made := by
  intro b c x v made element bound
  rcases Bindings.bind_cases bound with ⟨_, _, _, rfl⟩ | ⟨_, rfl⟩
  · exact made
  · intro e member
    rcases Bindings.mem_of_mem_place member with rfl | old
    · exact element
    · exact made e old

/-- A search that begins with names bound to elements ends with names bound to elements. -/
theorem matching_made (m : Settings σ) :
    (∀ attrs depth p e b, p.isElement = true → e.isElement = true → Made b →
      (matchOne m attrs depth p e b).Yields MadeIf) ∧
    ∀ all orderless depth ps es b, Elements ps → Elements es → Made b →
      (matchMany m all orderless depth ps es b).Yields MadeAll :=
  matching_keeps keeps_made m (hereditary_everywhere _) isElement_call.2

end Binding

theorem matchPlain_made {p e : Value} (pattern : p.isElement = true) (element : e.isElement = true) :
    (Control.matchPlain p e).Yields MadeIf :=
  (matching_made ⟨none, defaultDepth⟩).1 none 0 p e .empty pattern element made_empty

end Symbolic.Pattern
