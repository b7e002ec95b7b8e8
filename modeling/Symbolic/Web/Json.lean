import Symbolic.Number.Reading
import Symbolic.Pattern.Substitution
import Symbolic.Text.Quoted

/-!
Values as JSON texts. Writing uses ASCII only. Reading also takes the words for
infinities and NaN, and keeps the last value of a key that is repeated. An integer
with too many digits can be neither written nor read.
-/
namespace Symbolic.Web.Json

open Value

def unitEscape (n : Nat) : String := "\\u" ++ Text.hexDigits 4 n

def escape (c : Char) : String :=
  if c == '"' then "\\\""
  else if c == '\\' then "\\\\"
  else if c == '\n' then "\\n"
  else if c == '\r' then "\\r"
  else if c == '\t' then "\\t"
  else if c.toNat == 0x0c then "\\f"
  else if c.toNat == 0x08 then "\\b"
  else if 0x20 ≤ c.toNat && c.toNat < 0x7f then String.singleton c
  else
    let n := Text.codePoint c
    if n < 0x10000 then unitEscape n
    else unitEscape (0xd800 + (n - 0x10000) / 0x400) ++ unitEscape (0xdc00 + (n - 0x10000) % 0x400)

def quote (s : String) : String := "\"" ++ String.join (s.toList.map escape) ++ "\""

def realText (x : Float) : String :=
  if x.isNaN then "NaN"
  else if x.isInf then (if Number.signBit x then "-Infinity" else "Infinity")
  else Number.realText x

def intText (n : Int) : Except Error String :=
  if (Number.int n).isWritable then .ok (Number.intText n) else .error .malformed

/-- A key of an object; only atoms other than complex numbers can be keys. -/
def keyText : Value → Except Error String
  | .text s => .ok s
  | .number (.int n) => intText n
  | .number (.real x _ _) => .ok (realText x)
  | .bool b => .ok (if b then "true" else "false")
  | .null => .ok "null"
  | _ => .error .wrongKind

mutual

/-- The JSON text of a value. An expression is written as the array of its arguments, a symbol as
that of its name. -/
def write : Value → Except Error String
  | .null => .ok "null"
  | .bool b => .ok (if b then "true" else "false")
  | .number (.int n) => intText n
  | .number (.real x _ _) => .ok (realText x)
  | .number (.complex ..) => .error .wrongKind
  | .text s => .ok (quote s)
  | .symbol s => .ok ("[" ++ quote s.name ++ "]")
  | .expr _ as _ => do return "[" ++ ", ".intercalate (← writeItems as) ++ "]"
  | .tuple xs => do return "[" ++ ", ".intercalate (← writeItems xs) ++ "]"
  | .list xs => do return "[" ++ ", ".intercalate (← writeItems xs) ++ "]"
  | .table es => do return "\x7b" ++ ", ".intercalate (← writeEntries es) ++ "\x7d"
  | .set _ => .error .wrongKind
  | .bindings _ => .error .wrongKind

def writeItems : List Value → Except Error (List String)
  | [] => .ok []
  | x :: xs => do
    let t ← write x
    return t :: (← writeItems xs)

def writeEntries : List (Value × Value) → Except Error (List String)
  | [] => .ok []
  | (k, v) :: es => do
    let key ← keyText k
    let t ← write v
    return (quote key ++ ": " ++ t) :: (← writeEntries es)

end

inductive Flaw where
  /-- The text is not JSON. -/
  | notJson
  /-- An integer in it has too many digits. -/
  | longInteger
  deriving DecidableEq, Repr

def found {α : Type} : Option (α × List Char) → Except Flaw (α × List Char)
  | some r => .ok r
  | none => .error .notJson

def skipBlank (cs : List Char) : List Char :=
  cs.dropWhile fun c => c == ' ' || c == '\t' || c == '\n' || c == '\r'

def takeWord (word : String) (cs : List Char) : Option (List Char) :=
  if word.toList.isPrefixOf cs then some (cs.drop word.toList.length) else none

def hexValue? (c : Char) : Option Nat :=
  if '0' ≤ c && c ≤ '9' then some (c.toNat - '0'.toNat)
  else if 'a' ≤ c && c ≤ 'f' then some (c.toNat - 'a'.toNat + 10)
  else if 'A' ≤ c && c ≤ 'F' then some (c.toNat - 'A'.toNat + 10)
  else none

def readUnit? : List Char → Option (Nat × List Char)
  | a :: b :: c :: d :: rest => do
    let a ← hexValue? a
    let b ← hexValue? b
    let c ← hexValue? c
    let d ← hexValue? d
    some (a * 0x1000 + b * 0x100 + c * 0x10 + d, rest)
  | _ => none

/-- A character written as one code unit or two. -/
def readCodePoint? (cs : List Char) : Option (Char × List Char) := do
  let (u, rest) ← readUnit? cs
  if 0xd800 ≤ u ∧ u < 0xdc00 then
    match rest with
    | '\\' :: 'u' :: more =>
      match readUnit? more with
      | some (v, last) =>
        if 0xdc00 ≤ v ∧ v < 0xe000 then
          return (Text.charOf (0x10000 + (u - 0xd800) * 0x400 + (v - 0xdc00)), last)
        else return (Text.charOf u, rest)
      | none => return (Text.charOf u, rest)
    | _ => return (Text.charOf u, rest)
  else return (Text.charOf u, rest)

/-- The character that a letter after a backslash stands for. -/
def simpleEscape? : Char → Option Char
  | '"' => some '"'
  | '\\' => some '\\'
  | '/' => some '/'
  | 'b' => some (Char.ofNat 8)
  | 'f' => some (Char.ofNat 12)
  | 'n' => some '\n'
  | 'r' => some '\r'
  | 't' => some '\t'
  | _ => none

/-- The rest of a string after its opening quote. -/
def readString? : Nat → List Char → List Char → Option (String × List Char)
  | 0, _, _ => none
  | fuel + 1, acc, cs =>
    match cs with
    | [] => none
    | '"' :: rest => some (String.ofList acc.reverse, rest)
    | '\\' :: 'u' :: rest => do
      let (c, rest) ← readCodePoint? rest
      readString? fuel (c :: acc) rest
    | '\\' :: c :: rest => do
      let d ← simpleEscape? c
      readString? fuel (d :: acc) rest
    | c :: rest => if c.toNat < 0x20 then none else readString? fuel (c :: acc) rest

/-- The whole part of a number: a zero, or digits that do not start with one. -/
def wholeDigits? (cs : List Char) : Option (List Char × List Char) :=
  match cs with
  | '0' :: rest => some (['0'], rest)
  | c :: _ => if c.isDigit then some (cs.takeWhile Char.isDigit, cs.dropWhile Char.isDigit) else none
  | [] => none

/-- A fraction or an exponent, if digits follow its mark. -/
def markedDigits (mark : List Char) (cs : List Char) : List Char × List Char :=
  let ds := cs.takeWhile Char.isDigit
  if ds.isEmpty then ([], mark ++ cs) else (mark ++ ds, cs.dropWhile Char.isDigit)

def readInteger (sign digits rest : List Char) : Except Flaw (Value × List Char) :=
  match Number.readInt? (String.ofList (sign ++ digits)) with
  | some n => .ok (.int n, rest)
  | none => .error .longInteger

/-- Reads a number: an integer, or a real one if it has a fraction or an exponent. -/
def readNumber (cs : List Char) : Except Flaw (Value × List Char) := do
  let (sign, cs) := match cs with
    | '-' :: rest => (['-'], rest)
    | cs => ([], cs)
  let (whole, cs) ← found (wholeDigits? cs)
  let (fraction, cs) := match cs with
    | '.' :: rest => markedDigits ['.'] rest
    | cs => ([], cs)
  let (exponent, cs) := match cs with
    | m :: s :: rest =>
      if m == 'e' || m == 'E' then
        if s == '+' || s == '-' then markedDigits [m, s] rest else markedDigits [m] (s :: rest)
      else ([], cs)
    | cs => ([], cs)
  if fraction.isEmpty && exponent.isEmpty then readInteger sign whole cs
  else found ((Number.readReal? (String.ofList (sign ++ whole ++ fraction ++ exponent))).map (.real ·, cs))

def readWord? (cs : List Char) : Option (Value × List Char) :=
  let word (w : String) (v : Value) : Option (Value × List Char) := (takeWord w cs).map (v, ·)
  (word "null" .null).or <| (word "true" (.bool true)).or <| (word "false" (.bool false)).or <|
    (word "NaN" (.real (Float.ofBits 0x7ff8000000000000))).or <|
    (word "Infinity" (.real (Float.ofBits 0x7ff0000000000000))).or <|
    (word "-Infinity" (.real (Float.ofBits 0xfff0000000000000)))

mutual

def readValue : Nat → List Char → Except Flaw (Value × List Char)
  | 0, _ => .error .notJson
  | fuel + 1, cs =>
    match cs with
    | '"' :: rest => found ((readString? (rest.length + 1) [] rest).map fun (s, r) => (.text s, r))
    | '[' :: rest =>
      match skipBlank rest with
      | ']' :: more => .ok (.list [], more)
      | more => do
        let (xs, r) ← readItems fuel [] more
        return (.list xs, r)
    | c :: rest =>
      if c.toNat == 0x7b then
        match skipBlank rest with
        | d :: more =>
          if d.toNat == 0x7d then .ok (.table [], more)
          else do
            let (es, r) ← readEntries fuel [] (d :: more)
            return (.table es, r)
        | [] => .error .notJson
      else match readWord? cs with
        | some r => .ok r
        | none => readNumber cs
    | [] => .error .notJson

def readItems : Nat → List Value → List Char → Except Flaw (List Value × List Char)
  | 0, _, _ => .error .notJson
  | fuel + 1, acc, cs => do
    let (v, rest) ← readValue fuel cs
    match skipBlank rest with
    | ',' :: more => readItems fuel (v :: acc) (skipBlank more)
    | ']' :: more => .ok ((v :: acc).reverse, more)
    | _ => .error .notJson

def readEntries : Nat → List (Value × Value) → List Char → Except Flaw (List (Value × Value) × List Char)
  | 0, _, _ => .error .notJson
  | fuel + 1, acc, cs =>
    match cs with
    | '"' :: rest => do
      let (k, rest) ← found (readString? (rest.length + 1) [] rest)
      match skipBlank rest with
      | ':' :: more => do
        let (v, rest) ← readValue fuel (skipBlank more)
        let acc := writeKey (.text k) v acc
        match skipBlank rest with
        | c :: more =>
          if c == ',' then readEntries fuel acc (skipBlank more)
          else if c.toNat == 0x7d then .ok (acc, more)
          else .error .notJson
        | [] => .error .notJson
      | _ => .error .notJson
    | _ => .error .notJson

end

def read (s : String) : Except Flaw Value := do
  let cs := skipBlank s.toList
  let (v, rest) ← readValue (cs.length + 1) cs
  if (skipBlank rest).isEmpty then .ok v else .error .notJson

end Symbolic.Web.Json
