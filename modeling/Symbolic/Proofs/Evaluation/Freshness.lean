import Symbolic.Proofs.Evaluation.Restoration

/-!
Whether generated symbols are new. The numbers that they get are new: whatever is evaluated,
each generated symbol gets the number after the last one (`counts_trace`). But a name is a stem
with the number written behind it, and the same name can be read in two ways if a stem ends in
digits. A generated symbol is one that came up before exactly if its name was written as it
is, or if it was generated from the same stem with some of the first digits of the number
(`generated_symbol_clashes`). Where no name and no stem ends in a digit it is new.
-/
namespace Symbolic

open Session

/-! ### Names with a number at the end -/

section Digits

variable {stem earlier digits : String} {m n : Nat}

/-- The two ways to read a name as a stem and a number. -/
theorem append_repr_eq_iff (lt : m < n) :
    earlier ++ Nat.repr m = stem ++ Nat.repr n ↔
      ∃ digits, digits ≠ "" ∧ earlier = stem ++ digits ∧ digits ++ Nat.repr m = Nat.repr n := by
  have fewer := length_toDigits_le (Nat.le_of_lt lt)
  have other : Nat.toDigits 10 m ≠ Nat.toDigits 10 n := by
    intro same
    have read := congrArg (Nat.ofDigitChars 10 · 0) same
    simp only [Nat.ofDigitChars_ten_toDigits] at read
    exact Nat.ne_of_lt lt read
  constructor
  · intro same
    have letters : earlier.toList ++ Nat.toDigits 10 m = stem.toList ++ Nat.toDigits 10 n := by
      rw [← Nat.toList_repr, ← Nat.toList_repr, ← String.toList_append, ← String.toList_append, same]
    rcases List.append_eq_append_iff.1 letters with ⟨between, _, number⟩ | ⟨between, longer, number⟩
    · -- The first number has no more digits than the second, so there is nothing in between.
      have lengths := congrArg List.length number
      rw [List.length_append] at lengths
      obtain rfl : between = [] := List.length_eq_zero_iff.1 (by omega)
      exact (other number).elim
    · refine ⟨String.ofList between, ?_, ?_, ?_⟩
      · intro empty
        rw [← String.toList_inj, String.toList_ofList] at empty
        rw [empty] at number
        exact other number.symm
      · rw [← String.toList_inj, String.toList_append, String.toList_ofList, longer]
      · rw [← String.toList_inj, String.toList_append, String.toList_ofList, Nat.toList_repr, Nat.toList_repr, number]
  · rintro ⟨digits, _, rfl, number⟩
    rw [String.append_assoc, number]

def endsInDigit (name : String) : Bool := name.toList.getLast?.any Char.isDigit

theorem endsInDigit_append (some : digits ≠ "") (each : ∀ c ∈ digits.toList, c.isDigit = true) :
    endsInDigit (stem ++ digits) = true := by
  have letters : digits.toList ≠ [] := fun empty => some (String.toList_eq_nil_iff.1 empty)
  rw [endsInDigit, String.toList_append, List.getLast?_append_of_ne_nil _ letters, List.getLast?_eq_some_getLast letters]
  exact each _ (List.getLast_mem letters)

theorem isDigit_of_mem_repr {c : Char} (member : c ∈ (Nat.repr n).toList) : c.isDigit = true := by
  rw [Nat.toList_repr] at member
  exact Nat.isDigit_of_mem_toDigits (by decide) (by decide) member

end Digits

/-! ### Runs -/

/-- How a symbol of a run came about. -/
inductive Origin where
  | written (name : String)
  | generated (stem : String) (number : Nat)
  deriving DecidableEq, Repr

namespace Origin

def symbol : Origin → Symbol
  | written name => ⟨name⟩
  | generated stem number => ⟨stem ++ Nat.repr number⟩

/-- The name that a symbol was given, or the stem of its name. -/
def root : Origin → String
  | written name => name
  | generated stem _ => stem

def isGenerated : Origin → Bool
  | written _ => false
  | generated .. => true

@[simp] theorem isGenerated_written (name : String) : (written name).isGenerated = false := rfl

@[simp] theorem isGenerated_generated (stem : String) (number : Nat) : (generated stem number).isGenerated = true := rfl

/-- How a symbol can have the name that is made from a stem and a later number. -/
def Clashes (stem : String) (number : Nat) : Origin → Prop
  | written name => name = stem ++ Nat.repr number
  | generated earlier n =>
    ∃ digits, digits ≠ "" ∧ earlier = stem ++ digits ∧ digits ++ Nat.repr n = Nat.repr number

end Origin

/-- The symbols that were generated from stems, in order. The stems have the last one first. -/
def numbered : List String → List Origin
  | [] => []
  | stem :: stems => numbered stems ++ [.generated stem (stems.length + 1)]

/-- What a run is made of. -/
inductive Action where
  /-- A symbol is written. -/
  | write (name : String)
  /-- A symbol is generated. -/
  | generate (stem : String)
  /-- An expression is evaluated, to an end or not. -/
  | evaluate (fuel : Nat) (c : ContextId) (e : Value)

namespace Action

def perform : Action → Session → Session
  | write _, s => s
  | generate stem, s => (s.generate stem).2
  | evaluate fuel c e, s => Step.final (Symbolic.evaluate fuel c e s)

/-- The symbols that come up in an action: the one that is written or generated, or those that an
evaluation generates on its way. -/
def origins : Action → Session → List Origin
  | write name, _ => [.written name]
  | generate stem, s => [.generated stem s.nextSymbol]
  | evaluate fuel c e, s => (numbered (Step.final (Symbolic.evaluate fuel c e s)).stems).drop s.stems.length

end Action

def trace : List Action → Session → List Origin
  | [], _ => []
  | a :: as, s => a.origins s ++ trace as (a.perform s)

/-- The generated symbols among some have the numbers from a given one on. -/
def Counts : Nat → List Origin → Prop
  | _, [] => True
  | n, .written _ :: os => Counts n os
  | n, .generated _ k :: os => k = n ∧ Counts (n + 1) os

section Counting

variable {n k : Nat} {os qs : List Origin} {stem : String} {s t : Session}

theorem counts_append : Counts n (os ++ qs) ↔ Counts n os ∧ Counts (n + os.countP (·.isGenerated)) qs := by
  induction os generalizing n with
  | nil => simp [Counts]
  | cons o os ih =>
    cases o with
    | written name => simpa [Counts] using ih
    | generated stem k =>
      have later : n + 1 + os.countP (·.isGenerated) = n + (os.countP (·.isGenerated) + 1) := by omega
      rw [List.cons_append, Counts, Counts, ih, List.countP_cons_of_pos rfl, later, and_assoc]

theorem Counts.lt (counts : Counts n os) (member : .generated stem k ∈ os) : k < n + os.countP (·.isGenerated) := by
  obtain ⟨before, after, rfl⟩ := List.append_of_mem member
  obtain ⟨_, rfl, _⟩ := counts_append.1 counts
  simp

theorem length_numbered (stems : List String) : (numbered stems).length = stems.length := by
  induction stems with
  | nil => rfl
  | cons stem stems ih => simp [numbered, ih]

theorem numbered_append (new old : List String) : ∃ later, numbered (new ++ old) = numbered old ++ later ∧
    Counts (old.length + 1) later ∧ later.countP (·.isGenerated) = new.length := by
  induction new with
  | nil => exact ⟨[], by simp [Counts]⟩
  | cons stem new ih =>
    obtain ⟨later, whole, counts, count⟩ := ih
    have next : (new ++ old).length + 1 = old.length + 1 + new.length := by
      rw [List.length_append]
      omega
    refine ⟨later ++ [.generated stem ((new ++ old).length + 1)], ?_, counts_append.2 ⟨counts, ?_⟩, ?_⟩
    · rw [List.cons_append, numbered, whole, List.append_assoc]
    · exact ⟨count ▸ next, trivial⟩
    · simp [count]

theorem counts_drop (grows : s.stems <:+ t.stems) : Counts s.nextSymbol ((numbered t.stems).drop s.stems.length) ∧
    t.nextSymbol = s.nextSymbol + ((numbered t.stems).drop s.stems.length).countP (·.isGenerated) := by
  obtain ⟨new, same⟩ := grows
  obtain ⟨later, whole, counts, count⟩ := numbered_append new s.stems
  rw [← same, whole, ← length_numbered, List.drop_left, count]
  refine ⟨counts, ?_⟩
  rw [nextSymbol, nextSymbol, ← same, List.length_append]
  omega

theorem counts_origins (a : Action) (s : Session) : Counts s.nextSymbol (a.origins s) ∧
    (a.perform s).nextSymbol = s.nextSymbol + (a.origins s).countP (·.isGenerated) := by
  cases a with
  | write name => exact ⟨trivial, rfl⟩
  | generate stem => exact ⟨⟨rfl, trivial⟩, rfl⟩
  | evaluate fuel c e => exact counts_drop (evaluate_keeps fuel c e s).stems

theorem counts_trace (as : List Action) (s : Session) : Counts s.nextSymbol (trace as s) := by
  induction as generalizing s with
  | nil => trivial
  | cons a as ih =>
    obtain ⟨here, next⟩ := counts_origins a s
    exact counts_append.2 ⟨here, next ▸ ih (a.perform s)⟩

theorem symbol_eq_iff {o : Origin} {number : Nat} (before : ∀ stem k, o = .generated stem k → k < number) :
    o.symbol = (Origin.generated stem number).symbol ↔ o.Clashes stem number := by
  have names : ∀ a b : String, (⟨a⟩ : Symbol) = ⟨b⟩ ↔ a = b := fun a b => Symbol.mk.injEq a b ▸ Iff.rfl
  cases o with
  | written name => exact names ..
  | generated earlier k => exact (names ..).trans (append_repr_eq_iff (before earlier k rfl))

theorem endsInDigit_root {o : Origin} {number : Nat} (clashes : o.Clashes stem number) : endsInDigit o.root = true := by
  cases o with
  | written name =>
    rw [Origin.root, show name = stem ++ Nat.repr number from clashes]
    exact endsInDigit_append Nat.repr_ne_empty fun c => isDigit_of_mem_repr
  | generated earlier k =>
    obtain ⟨digits, some, rfl, completes⟩ := clashes
    refine endsInDigit_append some fun c member => isDigit_of_mem_repr (n := number) ?_
    rw [← completes, String.toList_append]
    exact List.mem_append_left _ member

end Counting

/-- In a run of writing and generating symbols and of evaluations, a generated symbol gets the number after those
that were generated before it. It is the same as a symbol that came up before exactly if that was
written with the same name, or generated from the stem with further digits that its number completes.
So it is new if no name that was written and no stem that was used before ends in a digit. -/
theorem generated_symbol_clashes (as : List Action) (s : Session) (before after : List Origin) (stem : String)
    (number : Nat) (run : trace as s = before ++ .generated stem number :: after) :
    number = s.nextSymbol + before.countP (·.isGenerated) ∧
    (∀ o ∈ before, o.symbol = (Origin.generated stem number).symbol ↔ o.Clashes stem number) ∧
    ((∀ o ∈ before, endsInDigit o.root = false) → ∀ o ∈ before, o.symbol ≠ (Origin.generated stem number).symbol) := by
  obtain ⟨counts, next, _⟩ := counts_append.1 (run ▸ counts_trace as s)
  have clashes : ∀ o ∈ before, o.symbol = (Origin.generated stem number).symbol ↔ o.Clashes stem number := by
    intro o member
    refine symbol_eq_iff fun earlier k same => ?_
    subst same
    exact next ▸ counts.lt member
  refine ⟨next, clashes, fun plain o member same => ?_⟩
  have digit := endsInDigit_root ((clashes o member).1 same)
  rw [plain o member] at digit
  cases digit

/-- Two nested scopes that use `x`, nine further symbols, and then a symbol for `x` once more. -/
def repeatingRun : List Action :=
  let x := Value.sym "x"
  .write "x" :: .evaluate 9 0 (.call "Module" [.ofItems [x], .call "Module" [.ofItems [x], x]]) ::
    (List.replicate 9 (.generate "g") ++ [.generate "x"])

/-- The last symbol of the run has the name of the second one that was generated. -/
theorem generated_symbol_clashes_repeatingRun :
    ∃ before, trace repeatingRun Session.initial = before ++ [.generated "x" 12] ∧
      .generated "x1" 2 ∈ before ∧ (Origin.generated "x1" 2).Clashes "x" 12 ∧
      ∀ o ∈ before, o.symbol = (Origin.generated "x" 12).symbol ↔ o.Clashes "x" 12 := by
  have run : trace repeatingRun Session.initial = (trace repeatingRun Session.initial).take 12 ++ [.generated "x" 12] := by
    decide +kernel
  refine ⟨_, run, by decide +kernel, ⟨"1", by decide, rfl, rfl⟩, ?_⟩
  exact (generated_symbol_clashes repeatingRun Session.initial _ [] "x" 12 run).2.1

/-- In `Module[{x}, SameQ[x, x1]]` the symbol that is generated for `x` is the one that stands beside it; and in the
run with nested scopes two generated symbols are the same. -/
theorem generated_symbol_repeated :
    let e := Value.call "Module" [.ofItems [.sym "x"], .call "SameQ" [.sym "x", .sym "x1"]]
    trace [.write "x", .write "x1", .evaluate 9 0 e] Session.initial =
      [.written "x", .written "x1", .generated "x" 1] ∧
    (Origin.generated "x" 1).symbol = (Origin.written "x1").symbol ∧
    Step.returns (·.isTrue) (evaluate 9 0 e Session.initial) = true ∧
    .generated "x1" 2 ∈ trace repeatingRun Session.initial ∧ .generated "x" 12 ∈ trace repeatingRun Session.initial ∧
    (Origin.generated "x1" 2).symbol = (Origin.generated "x" 12).symbol := by
  decide +kernel

end Symbolic
