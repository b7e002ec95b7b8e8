import Symbolic.Proofs.Pattern.Segmentation
import Symbolic.Proofs.Pattern.Transport

/-!
How bindings are threaded through a match. Whatever a search for a match tries and drops on its
way, a name that was bound before is bound to the same value afterwards
(`matching_extends`). And names that do not occur in a pattern play no part in a match without
an evaluator: it can be carried out without them, and they are added to what was found in the end
(`matching_join`).
-/
namespace Symbolic

namespace Bindings

variable {b c : Bindings} {x y : Symbol} {v : Value} {es fs : List (Symbol × Value)}

theorem lookup_eq_none (above : ∀ e ∈ es, x.Before e.1) : lookup x es = none := by
  induction es with
  | nil => rfl
  | cons e es ih =>
    have ne : x ≠ e.1 := by
      rintro rfl
      exact (above e (List.mem_cons_self ..)).ne rfl
    rw [lookup, if_neg ne]
    exact ih fun d member => above d (List.mem_cons_of_mem e member)

theorem mem_of_lookup (found : lookup x es = some v) : (x, v) ∈ es := by
  induction es with
  | nil => cases found
  | cons e es ih =>
    rw [lookup] at found
    split at found
    · next same =>
      cases found
      rw [same]
      exact List.mem_cons_self ..
    · exact List.mem_cons_of_mem e (ih found)

theorem entries_ext (left : es.Pairwise fun a b => a.1.Before b.1)
    (right : fs.Pairwise fun a b => a.1.Before b.1) (same : ∀ x, lookup x es = lookup x fs) : es = fs := by
  induction es generalizing fs with
  | nil =>
    cases fs with
    | nil => rfl
    | cons f fs => simpa [lookup] using same f.1
  | cons e es ih =>
    obtain ⟨first, rest⟩ := List.pairwise_cons.1 left
    cases fs with
    | nil => simpa [lookup] using same e.1
    | cons f fs =>
      obtain ⟨firstToo, restToo⟩ := List.pairwise_cons.1 right
      -- The names at the front are the least ones, so neither can come before the other.
      have alike : e.1 = f.1 := by
        by_contra ne
        have here := same e.1
        have there := same f.1
        by_cases less : e.1.Before f.1
        · have absent : lookup e.1 fs = none :=
            lookup_eq_none fun d member => less.trans (firstToo d member)
          simp [lookup, ne, absent] at here
        · have more : f.1.Before e.1 := Symbol.before_of_not ne less
          have absent : lookup f.1 es = none :=
            lookup_eq_none fun d member => more.trans (first d member)
          simp [lookup, Ne.symm ne, absent] at there
      obtain ⟨s, u⟩ := e
      obtain ⟨t, w⟩ := f
      obtain rfl : s = t := alike
      have value : u = w := by simpa [lookup] using same s
      rw [value, ih rest restToo fun x => ?_]
      by_cases front : x = s
      · subst front
        rw [lookup_eq_none first, lookup_eq_none firstToo]
      · simpa [lookup, front] using same x

theorem ext_get (same : ∀ x, b.get? x = c.get? x) : b = c := by
  obtain ⟨es, left⟩ := b
  obtain ⟨fs, right⟩ := c
  obtain rfl : es = fs := entries_ext left right same
  rfl

theorem get_insert (b : Bindings) (x y : Symbol) (v : Value) :
    (b.insert x v).get? y = if y = x then some v else b.get? y := by
  by_cases same : y = x
  · subst same
    rw [if_pos rfl]
    exact lookup_place_self y v b.entries
  · rw [if_neg same]
    exact lookup_place_of_ne same v b.entries

theorem get_extend (b : Bindings) (cs : List (Symbol × Value)) (x : Symbol) :
    (b.extend cs).get? x = (b.get? x).or (lookup x cs) := by
  induction cs generalizing b with
  | nil => simp [extend, lookup]
  | cons c cs ih =>
    have step : b.extend (c :: cs) = (b.extend [c]).extend cs := extend_append b [c] cs
    rw [step, ih, get_extend_one]
    by_cases same : x = c.1
    · cases b.get? x <;> simp [lookup, same]
    · simp [lookup, same]

/-- The bindings of both; a name of the first keeps its value. -/
def join (b c : Bindings) : Bindings := b.extend c.entries

theorem get_join (b c : Bindings) (x : Symbol) : (b.join c).get? x = (b.get? x).or (c.get? x) :=
  get_extend b c.entries x

theorem join_insert (free : b.get? x = none) (c : Bindings) (v : Value) :
    (b.join c).insert x v = b.join (c.insert x v) := by
  apply ext_get
  intro y
  rw [get_insert, get_join, get_join, get_insert]
  by_cases same : y = x
  · simp [same, free]
  · simp [same]

/-- Binding a name that the first bindings do not have is up to the second ones. -/
theorem bind_join (free : b.get? x = none) (c : Bindings) (v : Value) :
    (b.join c).bind x v = b.join <$> c.bind x v := by
  have found : (b.join c).get? x = c.get? x := by rw [get_join, free, Option.none_or]
  rw [bind, bind, found]
  cases c.get? x with
  | some old => by_cases same : old.equal v = true <;> simp [same]
  | none => by_cases key : v.isKey = true <;> simp [key, join_insert free]

end Bindings

namespace Pattern

open Value Step

/-! ### Names that were bound stay bound -/

section Keeping

variable {σ : Type}

/-- Whatever was found extends the bindings. -/
def Grows (b : Bindings) : Option Bindings → Prop
  | none => True
  | some c => c.Extends b

abbrev GrowAll (b : Bindings) (found : List Bindings) : Prop := ∀ c ∈ found, c.Extends b

theorem keeps_extends (b : Bindings) : Keeps (fun _ => True) (·.Extends b) :=
  fun _ _ _ _ grown _ bound => (Bindings.bind_extends bound).trans grown

theorem matching_extends (m : Settings σ) :
    (∀ attrs depth p e b, (matchOne m attrs depth p e b).Yields (Grows b)) ∧
      ∀ all orderless depth ps es b, (matchMany m all orderless depth ps es b).Yields (GrowAll b) := by
  have keeps := fun b => matching_keeps (keeps_extends b) m hereditary_true fun _ => trivial
  constructor
  · intro attrs depth p e b
    refine ((keeps b).1 attrs depth p e b trivial trivial (.refl b)).mono fun found grows => ?_
    cases found with
    | none => trivial
    | some c => exact grows c rfl
  · intro all orderless depth ps es b
    exact (keeps b).2 all orderless depth ps es b (fun _ _ => trivial) (fun _ _ => trivial) (.refl b)

end Keeping

/-! ### Names that do not occur play no part -/

section Joining

variable {σ : Type} {m : Settings σ} {b : Bindings}

/-- Whether no name of the bindings is a symbol that occurs in a value. -/
def isApart (b : Bindings) (p : Value) : Bool :=
  p.everywhere fun
    | .symbol x => (b.get? x).isNone
    | _ => true

theorem isApart_symbol {x : Symbol} (apart : isApart b (.symbol x) = true) : b.get? x = none :=
  Option.isNone_iff_eq_none.1 apart

theorem bindName_join {name : Option Value} (apart : ∀ n, name = some n → isApart b n = true) (c : Bindings)
    (e : Value) : bindName (b.join c) name e = Option.map b.join <$> bindName c name e := by
  cases name with
  | none => rfl
  | some n =>
    cases n with
    | symbol x =>
      have free : b.get? x = none := isApart_symbol (apart _ rfl)
      simp only [bindName, Bindings.bindValue, Bindings.bind_join free]
      cases c.bind x e with
      | ok d => rfl
      | error h => cases h <;> rfl
    | _ => rfl

theorem skipOptional_join {q : Value} (apart : isApart b q = true) (c : Bindings) (default : Option Value) :
    skipOptional (b.join c) q default = Option.map b.join <$> skipOptional c q default := by
  cases default with
  | none => rfl
  | some v =>
    simp only [skipOptional]
    split
    · split
      · next name first =>
        refine bindName_join (fun n same => ?_) c v
        cases same
        exact (hereditary_everywhere _).of_mem_args apart (first?_mem first)
      · rfl
    · split
      · rfl
      · rfl

theorem transports_join (idle : m.evaluator = none) (b : Bindings) :
    Transports m id id b.join (fun p => isApart b p = true) (fun _ => True) fun _ => True :=
  .unchanged (hereditary_everywhere _) hereditary_true (fun _ => trivial)
    (fun apart _ _ => .ofExcept (bindName_join apart _ _) fun _ _ _ _ => trivial)
    (fun apart _ _ => .ofExcept (skipOptional_join apart _ _) fun _ _ _ _ => trivial)
    (fun _ _ => runTest_idle idle _ _ _ _) fun _ _ => runTest_idle idle _ _ _ _

/-- Further bindings, of names that do not occur in the pattern, come out of a match as they went in. -/
theorem matching_join (idle : m.evaluator = none) (b : Bindings) :
    (∀ attrs depth p e c, isApart b p = true →
      matchOne m attrs depth p e (b.join c) = Option.map b.join <$> matchOne m attrs depth p e c) ∧
    ∀ all orderless depth ps es c, (∀ p ∈ ps, isApart b p = true) →
      matchMany m all orderless depth ps es (b.join c) =
        List.map b.join <$> matchMany m all orderless depth ps es c := by
  obtain ⟨one, many⟩ := (transports_join idle b).matching
  constructor
  · intro attrs depth p e c apart
    exact (one attrs depth p e c apart trivial trivial).same
  · intro all orderless depth ps es c apart
    rw [← (many all orderless depth ps es c apart (fun _ _ => trivial) trivial).same, List.map_id]

end Joining

/-- Every name that was bound before a match is bound to the same value after it. Without an evaluator,
names that do not occur in the pattern make no difference: the match comes to what it comes to
without them, and they are added to what it finds. -/
theorem match_threads {σ : Type} (m : Settings σ) (attrs : Option SymbolSet) (p e : Value) (b : Bindings) :
    (∀ st s st', matchOne m attrs 0 p e b st = .ok (some s) st' → s.Extends b) ∧
    (m.evaluator = none → isApart b p = true →
      matchOne m attrs 0 p e b = Option.map b.join <$> matchOne m attrs 0 p e .empty) := by
  constructor
  · intro st s st' run
    exact (matching_extends m).1 attrs 0 p e b st (some s) st' run
  · intro idle apart
    have joined := (matching_join idle b).1 attrs 0 p e .empty apart
    rwa [show b.join .empty = b from rfl] at joined

/-- The pattern `f[x_:3, (_?EvenQ | Except[a, y_]).., z___]`. -/
def mixedPattern : Value :=
  call "f" [call "Optional" [call "Pattern" [sym "x", call "Blank" []], int 3],
    call "Repeated" [call "Alternatives" [call "PatternTest" [call "Blank" [], sym "EvenQ"],
      call "Except" [sym "a", call "Pattern" [sym "y", call "Blank" []]]]],
    call "Pattern" [sym "z", call "BlankNullSequence" []]]

theorem match_threads_mixedPattern :
    let b := Bindings.empty.insert ⟨"w"⟩ (int 7)
    let e := call "f" [call "g" [], call "g" [], int 2]
    ∃ s, matchOne (σ := Unit) ⟨none, defaultDepth⟩ none 0 mixedPattern e b () = .ok (some s) () ∧
      s.entries.length = 4 ∧ s.Extends b ∧
      matchOne (σ := Unit) ⟨none, defaultDepth⟩ none 0 mixedPattern e b =
        Option.map b.join <$> matchOne ⟨none, defaultDepth⟩ none 0 mixedPattern e .empty := by
  intro b e
  have found : Step.returns (fun r => r.any (·.entries.length == 4))
      (matchOne (σ := Unit) ⟨none, defaultDepth⟩ none 0 mixedPattern e b ()) = true := by
    decide +kernel
  obtain ⟨r, t, run, tested⟩ := Step.returns_iff.1 found
  obtain ⟨s, rfl, four⟩ : ∃ s, r = some s ∧ s.entries.length = 4 := by
    simpa [Option.any_eq_true] using tested
  have threads := match_threads (σ := Unit) ⟨none, defaultDepth⟩ none mixedPattern e b
  exact ⟨s, run, four, threads.1 () s t run, threads.2 rfl (by decide +kernel)⟩

end Pattern
end Symbolic
