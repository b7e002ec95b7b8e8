import Symbolic.Value.Expression

/-!
Bindings of pattern names to values. A name is bound at most once: binding it again
succeeds only to an equal value and then changes nothing. Only values that can be keys
are bound.
-/
namespace Symbolic

/-- Bindings, ordered by name, each name once. -/
structure Bindings where
  entries : List (Symbol × Value)
  sorted : entries.Pairwise fun a b => a.1.Before b.1

namespace Bindings

instance : Repr Bindings := ⟨fun b n => reprPrec b.entries n⟩

def empty : Bindings := ⟨[], List.Pairwise.nil⟩

instance : Inhabited Bindings := ⟨empty⟩

def isEmpty (b : Bindings) : Bool := b.entries.isEmpty

def size (b : Bindings) : Nat := b.entries.length

def lookup (s : Symbol) : List (Symbol × Value) → Option Value
  | [] => none
  | (t, v) :: es => if s = t then some v else lookup s es

def get? (b : Bindings) (s : Symbol) : Option Value := lookup s b.entries

/-- Writes an entry in its place in the order of names, over one of the same name. -/
def place (s : Symbol) (v : Value) : List (Symbol × Value) → List (Symbol × Value)
  | [] => [(s, v)]
  | (t, w) :: es =>
    if s = t then (s, v) :: es
    else if s.Before t then (s, v) :: (t, w) :: es
    else (t, w) :: place s v es

theorem mem_of_mem_place {s : Symbol} {v : Value} {e : Symbol × Value} {es : List (Symbol × Value)}
    (h : e ∈ place s v es) : e = (s, v) ∨ e ∈ es := by
  induction es with
  | nil => simpa [place] using h
  | cons d es ih =>
    simp only [place] at h
    split at h
    · exact (List.mem_cons.1 h).imp_right (List.mem_cons_of_mem d)
    · split at h
      · simpa using h
      · rcases List.mem_cons.1 h with rfl | h
        · exact .inr (List.mem_cons_self ..)
        · exact (ih h).imp_right (List.mem_cons_of_mem d)

theorem place_sorted {s : Symbol} {v : Value} {es : List (Symbol × Value)}
    (h : es.Pairwise fun a b => a.1.Before b.1) :
    (place s v es).Pairwise fun a b => a.1.Before b.1 := by
  induction es with
  | nil => simp [place]
  | cons d es ih =>
    obtain ⟨first, rest⟩ := List.pairwise_cons.1 h
    simp only [place]
    split
    · rename_i same
      subst same
      exact List.pairwise_cons.2 ⟨first, rest⟩
    · rename_i ne
      split
      · rename_i lt
        refine List.pairwise_cons.2 ⟨fun e he => ?_, h⟩
        rcases List.mem_cons.1 he with rfl | he
        · exact lt
        · exact lt.trans (first e he)
      · rename_i nlt
        refine List.pairwise_cons.2 ⟨fun e he => ?_, ih rest⟩
        rcases mem_of_mem_place he with rfl | he
        · exact Symbol.before_of_not ne nlt
        · exact first e he

def insert (b : Bindings) (s : Symbol) (v : Value) : Bindings := ⟨place s v b.entries, place_sorted b.sorted⟩

/-- The bindings that a list of entries makes; a later entry of a name replaces an earlier one. -/
def ofEntries (es : List (Symbol × Value)) : Bindings := es.foldl (fun b e => b.insert e.1 e.2) empty

/-- The failure to bind a name to a value that is bound to another one. It names both values, which
must have a text for that. -/
def conflict (s : Symbol) (old v : Value) : Error :=
  if old.isWritable && v.isWritable then .bindingConflict s old v else .malformed

/-- Binds a name that is not bound, or is bound to an equal value. -/
def bind (b : Bindings) (s : Symbol) (v : Value) : Except Error Bindings :=
  match b.get? s with
  | some old => if old.equal v then .ok b else .error (conflict s old v)
  | none => if v.isKey then .ok (b.insert s v) else .error .wrongKind

/-- Binds under a name given as a value, which must be a symbol. -/
def bindValue (b : Bindings) (name v : Value) : Except Error Bindings :=
  match name with
  | .symbol s => b.bind s v
  | w => .error (.bindingNameNotSymbol w.kind)

def bindAll (b : Bindings) (es : List (Value × Value)) : Except Error Bindings :=
  es.foldlM (fun b e => b.bindValue e.1 e.2) b

def unbind (b : Bindings) (s : Symbol) : Bindings :=
  ⟨b.entries.filter fun e => e.1 != s, b.sorted.filter _⟩

def pairs (b : Bindings) : List (Value × Value) := b.entries.map fun e => (.symbol e.1, e.2)

/-- The bindings of both; they must agree on common names. -/
def merge (b c : Bindings) : Except Error Bindings :=
  if c.isEmpty then .ok b else if b.isEmpty then .ok c else b.bindAll c.pairs

def isCompatible (b c : Bindings) : Bool :=
  c.entries.all fun e => match b.get? e.1 with
    | some old => !old.differs e.2
    | none => true

/-- Equality of bindings is that of the values they are made into. -/
def equal (b c : Bindings) : Bool := (Value.bindings b.entries).equal (.bindings c.entries)

/-- Bindings from a table: its keys must be symbols and its values keys. -/
def ofTable (es : List (Value × Value)) : Except Error Bindings :=
  match es.find? (!·.1.isSymbol) with
  | some e => .error (.bindingKeyNotSymbol e.1.kind)
  | none =>
    if Value.areKeys (es.map Prod.snd) then
      .ok (ofEntries (es.filterMap fun e => e.1.symbol?.map (·, e.2)))
    else .error .wrongKind

/-- Bindings from a value: nothing, a table or other bindings. -/
def ofValue : Value → Except Error Bindings
  | .null => .ok empty
  | .bindings es => .ok (ofEntries es)
  | .table es => ofTable es
  | v => .error (.bindingsNotTable v.kind)

end Bindings
end Symbolic
