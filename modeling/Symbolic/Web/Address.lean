import Symbolic.Text.Character
import Symbolic.Web.Json

/-!
Addresses of web resources: how an address is cleaned before it is sent, whether it has
a scheme, and whether the host that it names is well formed. A host in brackets must be
an address of the sixth version of the internet protocol or of a later one.
-/
namespace Symbolic.Web

/-! ### Cleaning -/

def isAddressBlank (c : Char) : Bool := Text.isBlank c || (0x1c ≤ c.toNat && c.toNat ≤ 0x1f)

def trimAddress (cs : List Char) : List Char :=
  ((cs.dropWhile isAddressBlank).reverse.dropWhile isAddressBlank).reverse

def dropBrackets (cs : List Char) : List Char :=
  if cs.head? == some '<' && cs.getLast? == some '>' then trimAddress (cs.drop 1).dropLast else cs

def dropMark (cs : List Char) : List Char :=
  if "URL:".toList.isPrefixOf cs then trimAddress (cs.drop 4) else cs

/-- An address without white space, brackets and mark around it. -/
def bareAddress (url : String) : List Char := dropMark (dropBrackets (trimAddress url.toList))

/-- What stands before the last number sign of an address. -/
def beforeFragment (cs : List Char) : List Char :=
  if cs.contains '#' then ((cs.reverse.dropWhile (· != '#')).drop 1).reverse else cs

/-- An address as it is sent: an empty fragment is left out. -/
def sentAddress (cs : List Char) : List Char := if cs.getLast? == some '#' then cs.dropLast else cs

/-- Whether an address starts with a scheme and a colon. -/
def hasScheme (cs : List Char) : Bool :=
  let scheme := cs.takeWhile fun c => c != '/' && c != ':'
  !scheme.isEmpty && (cs.drop scheme.length).head? == some ':'

/-! ### The host -/

/-- Whether a character can stand in the scheme of an address with a host. -/
def isSchemeChar (c : Char) : Bool := c.isAlphanum || c == '+' || c == '-' || c == '.'

/-- The part of an address that names a host; empty if there is none. -/
def hostOf (cs : List Char) : List Char :=
  let cs := (cs.dropWhile fun c => c.toNat ≤ 0x20).filter fun c => c != '\t' && c != '\n' && c != '\r'
  let scheme := cs.takeWhile (· != ':')
  let valid := scheme.head?.any Char.isAlpha && scheme.all isSchemeChar && scheme.length < cs.length
  let rest := if valid then cs.drop (scheme.length + 1) else cs
  if "//".toList.isPrefixOf rest then
    (rest.drop 2).takeWhile fun c => c != '/' && c != '?' && c != '#'
  else []

/-- Whether some characters are one of the four decimal parts of an address: a number below 256
without zeros in front. -/
def isOctet (cs : List Char) : Bool :=
  !cs.isEmpty && cs.all Char.isDigit && cs.length ≤ 3 && (cs == ['0'] || cs.head? != some '0') &&
    decide (cs.foldl (fun n c => 10 * n + (c.toNat - '0'.toNat)) 0 ≤ 255)

/-- Whether some characters are four decimal parts with points between them. -/
def isDottedAddress (cs : List Char) : Bool :=
  let parts := cs.splitOn '.'
  parts.length == 4 && parts.all isOctet

def isGroup (cs : List Char) : Bool :=
  !cs.isEmpty && cs.length ≤ 4 && cs.all fun c => (Json.hexValue? c).isSome

/-- Whether the parts between the colons of an address are the groups of one: eight, or fewer with
one gap, which is an empty part that is neither the first nor the last. A gap at an end of the
address makes the part at that end empty as well. -/
def areGroups (parts : List (List Char)) : Bool :=
  if parts.length < 3 || 9 < parts.length then false
  else
    let inner := (parts.drop 1).dropLast
    if inner.all (!·.isEmpty) then parts.length == 8 && parts.all isGroup
    else
      let high := parts.take (1 + (inner.takeWhile (!·.isEmpty)).length)
      let low := parts.drop (high.length + 1)
      let high := if high == [[]] then [] else high
      let low := if low == [[]] then [] else low
      high.length + low.length < 8 && high.all isGroup && low.all isGroup

/-- The parts between the colons of an address, a dotted address at the end counting as two groups;
absent if that is no dotted address. -/
def groupParts? (cs : List Char) : Option (List (List Char)) :=
  let parts := cs.splitOn ':'
  match parts.getLast? with
  | some last =>
    if parts.length < 3 then none
    else if last.contains '.' then
      if isDottedAddress last then some (parts.dropLast ++ [['0'], ['0']]) else none
    else some parts
  | none => none

/-- Whether some characters are an address of the sixth version, with a zone after a percent sign or
without one. -/
def isSixthVersion (cs : List Char) : Bool :=
  let address := cs.takeWhile (· != '%')
  let zone := cs.drop (address.length + 1)
  (address.length == cs.length || (!zone.isEmpty && !zone.contains '%')) && !cs.contains '/' &&
    (groupParts? address).any areGroups

/-- Whether some characters are an address of a later version: its number in hexadecimal digits, a
point and something more. -/
def isLaterVersion (cs : List Char) : Bool :=
  let digits := cs.takeWhile fun c => (Json.hexValue? c).isSome
  let rest := cs.drop digits.length
  !digits.isEmpty && rest.head? == some '.' && 2 ≤ rest.length

/-- Whether some characters can stand between the brackets of a host. -/
def isBracketed (cs : List Char) : Bool :=
  match cs with
  | 'v' :: rest => isLaterVersion rest
  | _ => isSixthVersion cs

/-- Characters that stand for others among which is one that divides an address: a slash, a question
mark, a number sign, an at sign or a colon. -/
def dividers : List Nat := [
  0x2047, 0x2048, 0x2049, 0x2100, 0x2101, 0x2105, 0x2106, 0x2a74, 0xfe13, 0xfe16, 0xfe55, 0xfe56,
  0xfe5f, 0xfe6b, 0xff03, 0xff0f, 0xff1a, 0xff1f, 0xff20]

def isHost (cs : List Char) : Bool :=
  let opened := cs.contains '['
  let bracketed := ((cs.dropWhile (· != '[')).drop 1).takeWhile (· != ']')
  opened == cs.contains ']' && (!opened || isBracketed bracketed) && cs.all fun c => !dividers.contains c.toNat

end Symbolic.Web
