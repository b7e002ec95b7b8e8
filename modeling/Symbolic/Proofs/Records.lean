import Mathlib.Data.List.DropRight
import Symbolic.Definitions
import Symbolic.Proofs.Evaluation.Lookup

/-!
Records of definitions after any row of commands. A command that fails leaves the store as it was, and the next one
goes on from there. What a command does to the record of a symbol depends on that record alone (`get_perform`).
Main statement: the record of a symbol holds, for each kind, the definitions that were added for the symbol since it
was last cleared, in the order in which they were added. Commands for other symbols do not matter to it. All
commands are carried out except that to set a default value, which always fails, so that no record ever
has one.
-/
namespace Symbolic

open Value

namespace Definitions

variable (d : Definitions) (k j : DefinitionKind)

theorem get_set (ds : List Definition) : (d.set k ds).get j = if j = k then ds else d.get j := by
  rw [get, set, lookup_replaced]
  split <;> rfl

theorem get_add (new : Definition) : (d.add k new).get j = d.get j ++ if j = k then [new] else [] := by
  rw [add, get_set]
  split
  · next same => rw [same]
  · rw [List.append_nil]

end Definitions

namespace DefinitionStore

inductive Command where
  | add (x : Symbol) (k : DefinitionKind) (new : Definition)
  | setDefault (x : Symbol) (v : Value)
  | clear (x : Symbol)

namespace Command

def apply (store : DefinitionStore) : Command → Except Error DefinitionStore
  | .add x k new => store.add (.symbol x) k new
  | .setDefault x _ => store.setDefault (.symbol x)
  | .clear x => store.clear (.symbol x)

/-- The store after a command, which is as before if the command fails. -/
def perform (store : DefinitionStore) (c : Command) : DefinitionStore :=
  match c.apply store with
  | .ok new => new
  | .error _ => store

def subject : Command → Symbol
  | .add x .. | .setDefault x _ | .clear x => x

def isSetDefault : Command → Bool
  | .setDefault .. => true
  | _ => false

/-- Whether the command clears the record of a symbol. -/
def clears (x : Symbol) : Command → Bool
  | .clear y => decide (y = x)
  | _ => false

/-- The definition of one kind that the command adds for a symbol. -/
def definition? (x : Symbol) (k : DefinitionKind) : Command → Option Definition
  | .add y j new => if y = x ∧ j = k then some new else none
  | _ => none

/-- What becomes of the record of the symbol that is meant. -/
def update (d : Definitions) : Command → Definitions
  | .add _ k new => d.add k new
  | .setDefault .. => d
  | .clear _ => .empty

end Command

/-- The store after a row of commands, from the first on. -/
def after (cs : List Command) : DefinitionStore := cs.foldl Command.perform []

/-- The definitions of one kind that commands add for a symbol after it was last cleared. -/
def added (x : Symbol) (k : DefinitionKind) (cs : List Command) : List Definition :=
  (cs.rtakeWhile (!·.clears x)).filterMap (·.definition? x k)

section Commands

variable (store : DefinitionStore) (c : Command) (cs : List Command) (x : Symbol)

theorem after_append : after (cs ++ [c]) = c.perform (after cs) := List.foldl_concat ..

theorem get_symbol : store.get (.symbol x) = .ok ((Context.find? (.symbol x) store).getD .empty) := rfl

theorem apply_cases : (∃ new, c.apply store = .ok new) ∧ c.isSetDefault = false ∨
    c.apply store = .error .immutable ∧ c.isSetDefault = true := by
  cases c with
  | add y k new => exact .inl ⟨⟨_, rfl⟩, rfl⟩
  | setDefault y v => exact .inr ⟨rfl, rfl⟩
  | clear y => exact .inl ⟨⟨_, rfl⟩, rfl⟩

/-- A command updates the record of the symbol that it means, and no other. -/
theorem get_perform : (c.perform store).get (.symbol x) =
    (store.get (.symbol x)).map fun d => if c.subject = x then c.update d else d := by
  cases c with
  | add y k new =>
    have performed : (Command.add y k new).perform store =
        Context.write (.symbol y) (((Context.find? (.symbol y) store).getD .empty).add k new) store := rfl
    rw [performed, get_symbol, Context.find?_write_symbol, get_symbol, Except.map, Command.subject]
    split
    · next same => rw [same, Command.update, Option.getD_some]
    · rfl
  | setDefault y v =>
    have performed : (Command.setDefault y v).perform store = store := rfl
    rw [performed, get_symbol, Except.map, Command.update, ite_self]
  | clear y =>
    have performed : (Command.clear y).perform store = Context.erase (.symbol y) store := rfl
    rw [performed, get_symbol, Context.find?_erase, get_symbol, Except.map, Command.subject, Command.update]
    split <;> rfl

theorem added_append (k : DefinitionKind) : added x k (cs ++ [c]) =
    if c.clears x then [] else added x k cs ++ (c.definition? x k).toList := by
  rw [added, List.rtakeWhile_concat]
  cases c.clears x with
  | true => rfl
  | false => simp only [Bool.not_false, if_true, Bool.false_eq_true, if_false, List.filterMap_append, added]; rfl

end Commands

/-- A record holds the definitions that were added for its symbol since it was last cleared. -/
structure Holds (x : Symbol) (cs : List Command) (d : Definitions) : Prop where
  lists : ∀ k, d.get k = added x k cs
  default : d.default = .null

theorem Holds.step {x : Symbol} {cs : List Command} {d : Definitions} (holds : Holds x cs d) (c : Command) :
    Holds x (cs ++ [c]) (if c.subject = x then c.update d else d) := by
  cases c with
  | add y k new =>
    have kept : (Command.add y k new).clears x = false := rfl
    constructor
    · intro j
      rw [added_append, kept, if_neg Bool.false_ne_true, ← holds.lists]
      show (if y = x then d.add k new else d).get j = d.get j ++ (if y = x ∧ k = j then some new else none).toList
      by_cases same : y = x
      · rw [if_pos same, Definitions.get_add]
        by_cases kind : k = j
        · simp [same, kind]
        · simp [same, kind, Ne.symm kind]
      · simp [same]
    · split <;> exact holds.default
  | setDefault y v =>
    rw [Command.update, ite_self]
    refine ⟨fun k => ?_, holds.default⟩
    rw [added_append, holds.lists]
    exact (List.append_nil _).symm
  | clear y =>
    constructor
    · intro k
      rw [added_append, Command.clears, Command.subject, Command.update]
      by_cases same : y = x
      · simp only [same, if_true, decide_true]
        rfl
      · rw [if_neg same, decide_eq_false same, holds.lists]
        exact (List.append_nil _).symm
    · split
      · rfl
      · exact holds.default

theorem get_after (cs : List Command) (x : Symbol) : ∃ d, (after cs).get (.symbol x) = .ok d ∧ Holds x cs d := by
  induction cs using List.reverseRecOn with
  | nil => exact ⟨.empty, rfl, fun _ => rfl, rfl⟩
  | append_singleton cs c ih =>
    obtain ⟨d, found, holds⟩ := ih
    refine ⟨_, ?_, holds.step c⟩
    rw [after_append, get_perform, found]
    rfl

theorem get_after_filter (cs : List Command) (x : Symbol) :
    (after (cs.filter fun c => c.subject = x)).get (.symbol x) = (after cs).get (.symbol x) := by
  induction cs using List.reverseRecOn with
  | nil => rfl
  | append_singleton cs c ih =>
    rw [List.filter_append, after_append, get_perform, ← ih]
    by_cases same : c.subject = x
    · have kept : [c].filter (fun c => c.subject = x) = [c] := by simp [same]
      rw [kept, after_append, get_perform]
    · have dropped : [c].filter (fun c => c.subject = x) = [] := by simp [same]
      simp only [dropped, List.append_nil, if_neg same]
      cases (after (cs.filter fun c => c.subject = x)).get (.symbol x) <;> rfl

/-- After any row of commands the record of a symbol holds, for each kind, exactly the definitions that were added for
the symbol since it was last cleared, in order, and no default value. It is the same record if the commands for other
symbols are left out. Each further command is carried out, unless it is to set a default value: that fails,
since records are immutable. -/
theorem records_follow_commands (cs : List Command) (x : Symbol) :
    (∃ d, (after cs).get (.symbol x) = .ok d ∧ (∀ k, d.get k = added x k cs) ∧ d.default = .null) ∧
      (after (cs.filter fun c => c.subject = x)).get (.symbol x) = (after cs).get (.symbol x) ∧
      ∀ c : Command, (∃ new, c.apply (after cs) = .ok new ∧ after (cs ++ [c]) = new) ∧ c.isSetDefault = false ∨
        c.apply (after cs) = .error .immutable ∧ after (cs ++ [c]) = after cs ∧ c.isSetDefault = true := by
  obtain ⟨d, found, holds⟩ := get_after cs x
  refine ⟨⟨d, found, holds.lists, holds.default⟩, get_after_filter cs x, fun c => ?_⟩
  rw [after_append, Command.perform]
  rcases apply_cases (after cs) c with ⟨⟨new, done⟩, other⟩ | ⟨failed, sets⟩
  · exact .inl ⟨⟨new, done, by rw [done]⟩, other⟩
  · exact .inr ⟨failed, by rw [failed], sets⟩

/-- A default value that is set is not there afterwards. -/
theorem default_cannot_be_set :
    (Command.setDefault ⟨"x"⟩ (int 1)).apply [] = .error .immutable ∧
      (after [.setDefault ⟨"x"⟩ (int 1)]).get (.symbol ⟨"x"⟩) = .ok .empty :=
  ⟨rfl, rfl⟩

end DefinitionStore
end Symbolic
