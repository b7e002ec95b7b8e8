import Symbolic.Stored

/-!
Records of the definitions of symbols that stand apart from any context. A record is
made when a symbol is first asked for; its lists can grow, but its default value is
fixed.
-/
namespace Symbolic

structure Definitions where
  lists : List (DefinitionKind × List Definition)
  default : Value
  deriving Repr, Inhabited

namespace Definitions

def empty : Definitions := ⟨[], .null⟩

def get (d : Definitions) (k : DefinitionKind) : List Definition := (d.lists.lookup k).getD []

def set (d : Definitions) (k : DefinitionKind) (ds : List Definition) : Definitions :=
  { d with lists := (k, ds) :: d.lists.filter fun p => p.1 != k }

def add (d : Definitions) (k : DefinitionKind) (new : Definition) : Definitions :=
  d.set k (d.get k ++ [new])

end Definitions

abbrev DefinitionStore := List (Value × Definitions)

namespace DefinitionStore

open Value

def get (store : DefinitionStore) (v : Value) : Except Error Definitions := do
  requireKeys [v]
  return (Context.find? v store).getD .empty

def add (store : DefinitionStore) (v : Value) (k : DefinitionKind) (new : Definition) :
    Except Error DefinitionStore := do
  let d ← store.get v
  return Context.write v (d.add k new) store

def clear (store : DefinitionStore) (v : Value) : Except Error DefinitionStore := do
  requireKeys [v]
  return Context.erase v store

/-- A default value cannot be set in a record. -/
def setDefault (store : DefinitionStore) (v : Value) : Except Error DefinitionStore := do
  let _ ← store.get v
  .error .immutable

end DefinitionStore
end Symbolic
