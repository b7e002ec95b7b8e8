import Symbolic.Text.Half
import Symbolic.Text.Printable

/-!
Quoted texts. A text stands between single quotes, or between double quotes if it
has a single quote and no double one; what is not printable is written as an escape.
-/
namespace Symbolic.Text

/-- The lower-case hexadecimal digits of a number, filled with zeros up to a width. -/
def hexDigits (width n : Nat) : String :=
  let ds := Nat.toDigits 16 n
  String.ofList (List.replicate (width - ds.length) '0' ++ ds)

def quoteOf (cs : List Char) : Char :=
  if cs.contains '\'' && !cs.contains '"' then '"' else '\''

def escape (quote : Char) (c : Char) : String :=
  if c == quote || c == '\\' then String.ofList ['\\', c]
  else if c == '\n' then "\\n"
  else if c == '\r' then "\\r"
  else if c == '\t' then "\\t"
  else if isPrintable c then String.singleton c
  else
    let n := codePoint c
    if n < 0x100 then "\\x" ++ hexDigits 2 n
    else if n < 0x10000 then "\\u" ++ hexDigits 4 n
    else "\\U" ++ hexDigits 8 n

def quoted (s : String) : String :=
  let q := quoteOf s.toList
  String.singleton q ++ String.join (s.toList.map (escape q)) ++ String.singleton q

end Symbolic.Text
