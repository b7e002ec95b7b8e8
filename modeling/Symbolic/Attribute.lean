import Symbolic.Symbol

/-!
The attributes that expressions and symbols can carry: they say which arguments are
held, whether arguments are flattened, sorted or threaded over lists, and how a
symbol is protected.
-/
namespace Symbolic.Attribute

def flat : Symbol := ⟨"Flat"⟩
def orderless : Symbol := ⟨"Orderless"⟩
def oneIdentity : Symbol := ⟨"OneIdentity"⟩
def listable : Symbol := ⟨"Listable"⟩
def hold : Symbol := ⟨"Hold"⟩
def holdAll : Symbol := ⟨"HoldAll"⟩
def holdFirst : Symbol := ⟨"HoldFirst"⟩
def holdRest : Symbol := ⟨"HoldRest"⟩
def holdAllComplete : Symbol := ⟨"HoldAllComplete"⟩
def sequenceHold : Symbol := ⟨"SequenceHold"⟩
def numericFunction : Symbol := ⟨"NumericFunction"⟩
def stub : Symbol := ⟨"Stub"⟩

def structural : List Symbol := [flat, orderless, oneIdentity, listable]

def protection : List Symbol :=
  [⟨"Protected"⟩, ⟨"ReadProtected"⟩, ⟨"Locked"⟩, ⟨"Constant"⟩, ⟨"Temporary"⟩]

def holding : List Symbol := [hold, holdAll, holdFirst, holdRest, holdAllComplete, sequenceHold]

def known : List Symbol := structural ++ protection ++ holding ++ [numericFunction, stub]

/-- The attributes any one of which holds all arguments. -/
def holdingAll : List Symbol := [hold, holdAll, holdAllComplete]

end Symbolic.Attribute
