/-!
Halves of surrogate pairs. Written in units of sixteen bits, a character beyond the basic
plane takes a pair of units, and one unit of a pair alone is no character. Texts can hold
such a half all the same: each of the 2048 halves has a private character that stands for it.
-/
namespace Symbolic.Text

/-- Whether a code point is half of a pair. -/
def isHalf (n : Nat) : Bool := 0xd800 ≤ n && n < 0xe000

/-- How far the characters that stand for halves are from the halves. -/
def halfShift : Nat := 0xf0000

def charOf (n : Nat) : Char := Char.ofNat (if isHalf n then n + halfShift else n)

def codePoint (c : Char) : Nat :=
  if isHalf (c.toNat - halfShift) then c.toNat - halfShift else c.toNat

/-- Whether a text holds half of a pair. -/
def hasHalf (s : String) : Bool := s.toList.any fun c => isHalf (codePoint c)

/-- A half is read back from the character that stands for it. -/
theorem codePoint_charOf_half {n : Nat} (h : isHalf n = true) : codePoint (charOf n) = n := by
  have bounds : 0xd800 ≤ n ∧ n < 0xe000 := by simpa [isHalf] using h
  have valid : (n + halfShift).isValidChar := by
    simp only [Nat.isValidChar, halfShift]
    omega
  have value : (charOf n).toNat = n + halfShift := by
    rw [charOf, if_pos h, Char.ofNat, dif_pos valid]
    rfl
  simp [codePoint, value, h]

theorem charOf_codePoint (c : Char) : charOf (codePoint c) = c := by
  have valid : c.toNat < 0xd800 ∨ 0xdfff < c.toNat ∧ c.toNat < 0x110000 := c.valid
  by_cases half : isHalf (c.toNat - halfShift) = true
  · have bounds : 0xd800 ≤ c.toNat - halfShift ∧ c.toNat - halfShift < 0xe000 := by simpa [isHalf] using half
    have back : c.toNat - halfShift + halfShift = c.toNat := by omega
    rw [codePoint, if_pos half, charOf, if_pos half, back, Char.ofNat_toNat]
  · have whole : ¬ isHalf c.toNat = true := by
      simp only [isHalf, Bool.and_eq_true, decide_eq_true_eq]
      omega
    rw [codePoint, if_neg half, charOf, if_neg whole, Char.ofNat_toNat]

end Symbolic.Text
