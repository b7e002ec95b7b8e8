/-!
Classes of characters, given by the lengths of the runs of code points that are outside and
inside of the class by turns.
-/
namespace Symbolic.Text

/-- Whether a position lies inside of the class, if the first run does. -/
def liesInside (inside : Bool) : List Nat → Nat → Bool
  | [], _ => false
  | length :: runs, n => if n < length then inside else liesInside (!inside) runs (n - length)

/-- Whether a character belongs to the class with these runs, the first of which is outside. -/
def isWithin (runs : List Nat) (c : Char) : Bool := liesInside false runs c.toNat

end Symbolic.Text
