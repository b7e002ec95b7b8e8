import Symbolic.Text.Half

/-!
The order of texts by code point, in which a half of a pair keeps its place below the
characters that follow the halves.
-/
namespace Symbolic.Text

theorem codePoint_injective {a b : Char} (same : codePoint a = codePoint b) : a = b := by
  rw [← charOf_codePoint a, same, charOf_codePoint]

def codePoints (s : String) : List Nat := s.toList.map codePoint

theorem codePoints_injective {a b : String} (same : codePoints a = codePoints b) : a = b :=
  String.toList_injective ((List.map_inj_right fun _ _ => codePoint_injective).1 same)

/-- How two texts compare by code point. -/
def compare (a b : String) : Ordering := List.compareLex Ord.compare (codePoints a) (codePoints b)

instance : Std.TransCmp compare where
  eq_swap := by
    unfold compare
    exact Std.OrientedCmp.eq_swap
  isLE_trans := by
    unfold compare
    exact Std.TransCmp.isLE_trans

instance : Std.LawfulEqCmp compare where
  eq_of_compare := by
    unfold compare
    exact fun same => codePoints_injective (Std.LawfulEqCmp.eq_of_compare same)

theorem compare_self (a : String) : compare a a = .eq := Std.ReflCmp.compare_self

theorem compare_swap (a b : String) : compare a b = (compare b a).swap := Std.OrientedCmp.eq_swap

/-- One text is another one or comes before it. -/
def Le (a b : String) : Prop := (compare a b).isLE = true

variable {a b c : String}

theorem le_total (a b : String) : Le a b ∨ Le b a := by
  unfold Le
  rw [compare_swap b a]
  cases compare a b <;> decide

theorem le_trans (first : Le a b) (second : Le b c) : Le a c := Std.TransCmp.isLE_trans first second

theorem le_antisymm (first : Le a b) (second : Le b a) : a = b :=
  Std.LawfulEqCmp.eq_of_compare (Std.OrientedCmp.isLE_antisymm first second)

end Symbolic.Text
