import Symbolic.Text.LetterContext

/-!
Upper, lower and title case of letters, as Unicode 14 maps them. A letter can turn into
several characters, and a capital sigma has two forms in lower case.
-/
namespace Symbolic.Text

/-- Letters in equal steps whose other case lies at one distance. -/
structure CaseRun where
  first : Nat
  count : Nat
  step : Nat
  distance : Int

def CaseRun.holds (r : CaseRun) (n : Int) : Bool :=
  r.first ≤ n && n < r.first + r.step * r.count && (n - r.first) % r.step == 0

/-- Runs after a code point, each given by the gap before it, the number of its letters and its distance. -/
def caseRuns (step : Nat) : Nat → List (Nat × Nat × Int) → List CaseRun
  | _, [] => []
  | n, (gap, count, distance) :: runs =>
    ⟨n + gap, count, step, distance⟩ :: caseRuns step (n + gap + step * count) runs

/-- Where the other case of a letter of the runs lies. -/
def across? (runs : List CaseRun) (n : Nat) : Option Nat :=
  (runs.find? (·.holds n)).map fun r => (↑n + r.distance).toNat

/-- The letter of the runs whose other case is this one. -/
def backAcross? (runs : List CaseRun) (n : Nat) : Option Nat :=
  (runs.find? fun r => r.holds (n - r.distance)).map fun r => (↑n - r.distance).toNat

/-- Small letters that stand right behind their capitals, by turns. -/
def alternatingRuns : List CaseRun := caseRuns 2 0 <| [
  (257, 24), (2, 3), (1, 8), (1, 23), (1, 3), (3, 2), (1, 1), (2, 1), (4, 1), (5, 1), (6, 3), (1, 1), (3, 1), (1, 1),
  (2, 2), (1, 1), (2, 1), (15, 8), (1, 9), (4, 1), (2, 20), (2, 9), (7, 1), (4, 1), (3, 5), (288, 2), (2, 1), (96, 12),
  (7, 1), (1, 1), (100, 17), (8, 27), (1, 7), (1, 48), (6352, 75), (10, 48), (643, 1), (2779, 1), (5, 3), (5, 1),
  (1, 1), (9, 50), (7, 2), (3, 1), (31052, 23), (18, 14), (134, 7), (2, 31), (9, 2), (1, 5), (3, 1), (3, 2), (2, 10),
  (10, 8), (3, 2), (5, 1), (4, 2), (27, 1)].map fun r => (r.1, r.2, -1)

/-- The other small letters that a capital belongs to. -/
def pairedRuns : List CaseRun := caseRuns 1 0 [
  (224, 23, -32), (1, 7, -32), (0, 1, 121), (128, 1, 195), (20, 1, 97), (4, 1, 163), (3, 1, 130), (32, 1, 56),
  (6, 1, -2), (2, 1, -2), (2, 1, -2), (16, 1, -79), (21, 1, -2), (75, 2, 10815), (15, 1, 10783), (0, 1, 10780),
  (0, 1, 10782), (0, 1, -210), (0, 1, -206), (1, 2, -205), (1, 1, -202), (1, 1, -203), (0, 1, 42319), (3, 1, -205),
  (0, 1, 42315), (1, 1, -207), (1, 1, 42280), (0, 1, 42308), (1, 1, -209), (0, 1, -211), (0, 1, 42308), (0, 1, 10743),
  (0, 1, 42305), (2, 1, -211), (1, 1, 10749), (0, 1, -213), (2, 1, -214), (7, 1, 10727), (2, 1, -218), (1, 1, 42307),
  (0, 1, -218), (3, 1, 42282), (0, 1, -218), (0, 1, -69), (0, 2, -217), (0, 1, -71), (5, 1, -219), (10, 1, 42261),
  (0, 1, 42258), (220, 3, 130), (46, 1, -38), (0, 3, -37), (1, 17, -32), (1, 9, -32), (0, 1, -64), (0, 2, -63),
  (8, 1, -8), (26, 1, 7), (0, 1, -116), (60, 32, -32), (0, 16, -80), (111, 1, -15), (145, 38, -48), (2889, 43, 3008),
  (2, 3, 3008), (760, 6, -8), (2427, 1, 35332), (3, 1, 3814), (16, 1, 35384), (369, 8, 8), (8, 6, 8), (10, 8, 8),
  (8, 8, 8), (8, 6, 8), (11, 1, 8), (1, 1, 8), (1, 1, 8), (1, 1, 8), (8, 8, 8), (8, 2, 74), (0, 4, 86), (0, 2, 100),
  (0, 2, 128), (0, 2, 112), (0, 2, 126), (50, 2, 8), (30, 2, 8), (14, 2, 8), (3, 1, 7), (360, 1, -28), (33, 16, -16),
  (848, 26, -26), (1862, 48, -48), (5, 1, -10795), (0, 1, -10792), (153, 38, -7264), (1, 1, -7264), (5, 1, -7264),
  (31334, 1, 48), (958, 1, -928), (28, 80, -38864), (21377, 26, -32), (1229, 40, -40), (136, 36, -40), (155, 11, -39),
  (1, 15, -39), (1, 7, -39), (1, 2, -39), (1795, 51, -64), (3021, 32, -32), (21888, 32, -32), (31394, 34, -34)]

def casePairs : List CaseRun := alternatingRuns ++ pairedRuns

/-- Letters that are not the lower case of their upper case. -/
def upperRuns : List CaseRun := caseRuns 1 0 [
  (181, 1, 743), (123, 1, -232), (77, 1, -300), (69, 1, -1), (2, 1, -1), (2, 1, -1), (38, 1, -1), (338, 1, 84),
  (124, 1, -31), (13, 1, -62), (0, 1, -57), (3, 1, -47), (0, 1, -54), (25, 1, -86), (0, 1, -80), (3, 1, -96),
  (6282, 1, -6254), (0, 1, -6253), (0, 1, -6244), (0, 2, -6242), (0, 1, -6243), (0, 1, -6236), (0, 1, -6181),
  (0, 1, 35266), (530, 1, -59), (290, 1, -7205)]

/-- Letters that are not the upper case of their lower case. -/
def lowerRuns : List CaseRun := caseRuns 1 0 [
  (453, 1, 1), (2, 1, 1), (2, 1, 1), (38, 1, 1), (513, 1, -60), (6825, 1, -7615), (233, 8, -8), (8, 8, -8), (8, 8, -8),
  (12, 1, -9), (15, 1, -9), (47, 1, -9), (297, 1, -7517), (3, 1, -8383), (0, 1, -8262)]

/-- Letters whose title case is another letter than their upper case. -/
def titleRuns : List CaseRun := caseRuns 1 0 [
  (452, 1, 1), (0, 1, 0), (0, 1, -1), (0, 1, 1), (0, 1, 0), (0, 1, -1), (0, 1, 1), (0, 1, 0), (0, 1, -1), (36, 1, 1),
  (0, 1, 0), (0, 1, -1), (3804, 43, 0), (2, 3, 0), (3712, 8, 8), (0, 8, 0), (0, 8, 8), (0, 8, 0), (0, 8, 8), (0, 8, 0),
  (3, 1, 9), (8, 1, 0), (6, 1, 9), (8, 1, 0), (38, 1, 9), (8, 1, 0)]

/-- Letters with an iota, which follows the capital in upper case. -/
def iotaRuns : List CaseRun := caseRuns 1 0 [
  (8064, 8, -120), (0, 8, -128), (0, 8, -104), (0, 8, -112), (0, 8, -56), (0, 8, -64), (2, 1, 8), (0, 1, -7202),
  (0, 1, -7214), (7, 1, -7211), (5, 1, 8), (0, 1, -7212), (0, 1, -7227), (7, 1, -7221), (37, 1, 8), (0, 1, -7242),
  (0, 1, -7269), (7, 1, -7251)]

/-- The other letters whose upper case is not a single letter. -/
def upperExpansions : List (Nat × List Nat) := [
  (0xdf, [0x53, 0x53]), (0x149, [0x2bc, 0x4e]), (0x1f0, [0x4a, 0x30c]), (0x390, [0x399, 0x308, 0x301]),
  (0x3b0, [0x3a5, 0x308, 0x301]), (0x587, [0x535, 0x552]), (0x1e96, [0x48, 0x331]), (0x1e97, [0x54, 0x308]),
  (0x1e98, [0x57, 0x30a]), (0x1e99, [0x59, 0x30a]), (0x1e9a, [0x41, 0x2be]), (0x1f50, [0x3a5, 0x313]),
  (0x1f52, [0x3a5, 0x313, 0x300]), (0x1f54, [0x3a5, 0x313, 0x301]), (0x1f56, [0x3a5, 0x313, 0x342]),
  (0x1fb6, [0x391, 0x342]), (0x1fb7, [0x391, 0x342, 0x399]), (0x1fc6, [0x397, 0x342]), (0x1fc7, [0x397, 0x342, 0x399]),
  (0x1fd2, [0x399, 0x308, 0x300]), (0x1fd3, [0x399, 0x308, 0x301]), (0x1fd6, [0x399, 0x342]),
  (0x1fd7, [0x399, 0x308, 0x342]), (0x1fe2, [0x3a5, 0x308, 0x300]), (0x1fe3, [0x3a5, 0x308, 0x301]),
  (0x1fe4, [0x3a1, 0x313]), (0x1fe6, [0x3a5, 0x342]), (0x1fe7, [0x3a5, 0x308, 0x342]), (0x1ff6, [0x3a9, 0x342]),
  (0x1ff7, [0x3a9, 0x342, 0x399]), (0xfb00, [0x46, 0x46]), (0xfb01, [0x46, 0x49]), (0xfb02, [0x46, 0x4c]),
  (0xfb03, [0x46, 0x46, 0x49]), (0xfb04, [0x46, 0x46, 0x4c]), (0xfb05, [0x53, 0x54]), (0xfb06, [0x53, 0x54]),
  (0xfb13, [0x544, 0x546]), (0xfb14, [0x544, 0x535]), (0xfb15, [0x544, 0x53b]), (0xfb16, [0x54e, 0x546]),
  (0xfb17, [0x544, 0x53d])]

/-- Letters whose title case is not a single letter. -/
def titleExpansions : List (Nat × List Nat) := [
  (0xdf, [0x53, 0x73]), (0x587, [0x535, 0x582]), (0x1fb2, [0x1fba, 0x345]), (0x1fb4, [0x386, 0x345]),
  (0x1fb7, [0x391, 0x342, 0x345]), (0x1fc2, [0x1fca, 0x345]), (0x1fc4, [0x389, 0x345]), (0x1fc7, [0x397, 0x342, 0x345]),
  (0x1ff2, [0x1ffa, 0x345]), (0x1ff4, [0x38f, 0x345]), (0x1ff7, [0x3a9, 0x342, 0x345]), (0xfb00, [0x46, 0x66]),
  (0xfb01, [0x46, 0x69]), (0xfb02, [0x46, 0x6c]), (0xfb03, [0x46, 0x66, 0x69]), (0xfb04, [0x46, 0x66, 0x6c]),
  (0xfb05, [0x53, 0x74]), (0xfb06, [0x53, 0x74]), (0xfb13, [0x544, 0x576]), (0xfb14, [0x544, 0x565]),
  (0xfb15, [0x544, 0x56b]), (0xfb16, [0x54e, 0x576]), (0xfb17, [0x544, 0x56d])]

def upper? (n : Nat) : Option (List Nat) :=
  (upperExpansions.lookup n).or <| ((across? iotaRuns n).map ([·, 0x399])).or <|
    (across? (casePairs ++ upperRuns) n).map ([·])

def lower? (n : Nat) : Option (List Nat) :=
  if n = 0x130 then some [0x69, 0x307] else ((backAcross? casePairs n).or (across? lowerRuns n)).map ([·])

def title? (n : Nat) : Option (List Nat) :=
  (titleExpansions.lookup n).or <| ((across? titleRuns n).map ([·])).or (upper? n)

/-- A character in another case, if it has one there. -/
def mapCase (case? : Nat → Option (List Nat)) (c : Char) : List Char :=
  ((case? c.toNat).map (·.map Char.ofNat)).getD [c]

def upperChar (c : Char) : List Char := if c.toNat < 0x80 then [c.toUpper] else mapCase upper? c

def lowerChar (c : Char) : List Char := if c.toNat < 0x80 then [c.toLower] else mapCase lower? c

def titleChar (c : Char) : List Char := if c.toNat < 0x80 then [c.toUpper] else mapCase title? c

/-- The lower case of a capital sigma at the end of a word and elsewhere. -/
def lowerSigma (final : Bool) : Char := if final then 'ς' else 'σ'

/-- Characters in lower case, given what stands before them, the nearest first. -/
def lowerAfter : List Char → List Char → List Char
  | _, [] => []
  | before, c :: cs =>
    (if c == 'Σ' then [lowerSigma (endsWord before cs)] else lowerChar c) ++ lowerAfter (c :: before) cs

def upperCase (s : String) : String := String.ofList (s.toList.flatMap upperChar)

/-- A text whose first letter is in title case and whose other letters are in lower case. -/
def capitalized (s : String) : String :=
  match s.toList with
  | [] => ""
  | c :: cs => String.ofList (titleChar c ++ lowerAfter [c] cs)

end Symbolic.Text
