import Symbolic.Proofs.Pattern.Names

/-!
Matching and then substituting gives back what was matched. A template is a pattern in which
every place is a literal or a named blank; its skeleton has the bare names in place of the blanks.
Substituting what a match of the template has bound into the skeleton restores the value: a
name that took a segment is bound to the list of its values, and that list is spliced into the
arguments.
-/
namespace Symbolic

namespace Value

variable {us vs es fs : List Value}

theorem sameItems_append (front : sameItems us es = true) (back : sameItems vs fs = true) :
    sameItems (us ++ vs) (es ++ fs) = true := by
  induction us generalizing es with
  | nil =>
    cases es with
    | nil => exact back
    | cons e es => simp [sameItems] at front
  | cons u us ih =>
    cases es with
    | nil => simp [sameItems] at front
    | cons e es =>
      simp only [List.cons_append, sameItems, Bool.and_eq_true] at front ⊢
      exact ⟨front.1, ih front.2⟩

end Value

namespace Pattern

open Value

/-! ### What substitution restores -/

section Restoring

variable {s : Bindings} {x : Symbol} {v h k d : Value} {vs es front back : List Value}

/-- Substituting bindings into one value gives one that is equal to another. Without bindings it
changes nothing. -/
def Restores (s : Bindings) (v e : Value) : Prop :=
  ∃ r, v.substitute true s.entries = .ok r ∧ r.equal e = true ∧ (s.entries = [] → r = v)

/-- The same of arguments, after lists among them have been spliced. -/
def RestoresAll (s : Bindings) (vs es : List Value) : Prop :=
  ∃ rs, substituteAll true s.entries vs = .ok rs ∧ sameItems (spliceLists rs) es = true ∧
    (s.entries = [] → spliceLists rs = vs)

theorem restores_name (gives : s.Gives x d) : Restores s (.symbol x) d := by
  obtain ⟨v, found, same⟩ := gives
  have bound : Bindings.lookup x s.entries = some v := found
  refine ⟨v, by simp [substitute, bound], same, fun none => ?_⟩
  rw [none] at bound
  cases bound

theorem restoresAll_nil : RestoresAll s [] [] := ⟨[], rfl, by simp [spliceLists, sameItems], fun _ => rfl⟩

theorem restoresAll_cons (here : Restores s v d) (other : d.hasHead "List" = false) (later : RestoresAll s vs es) :
    RestoresAll s (v :: vs) (d :: es) := by
  obtain ⟨r, substituted, same, unchanged⟩ := here
  obtain ⟨rs, substitutedToo, sameToo, unchangedToo⟩ := later
  have spliced : spliceLists (r :: rs) = r :: spliceLists rs := by
    simp [spliceLists, (argsOf?_iff_of_same (same_of_equal same)).2 (argsOf?_of_hasHead other)]
  refine ⟨r :: rs, ?_, ?_, fun none => ?_⟩
  · rw [substituteAll, substituted, substitutedToo]
    rfl
  · simp [spliced, sameItems, same_of_equal same, sameToo]
  · rw [spliced, unchanged none, unchangedToo none]

theorem restoresAll_segment (gives : s.Gives x (ofItems front)) (later : RestoresAll s vs back) :
    RestoresAll s (.symbol x :: vs) (front ++ back) := by
  obtain ⟨v, found, same⟩ := gives
  have bound : Bindings.lookup x s.entries = some v := found
  obtain ⟨rs, substituted, sameToo, _⟩ := later
  obtain ⟨k, as, rfl, head, args⟩ := same_expr (same_of_equal same)
  have spliced : spliceLists (.expr k as .empty :: rs) = as ++ spliceLists rs := by
    rw [same_symbol_iff.1 head]
    simp [spliceLists, argsOf?]
  refine ⟨.expr k as .empty :: rs, ?_, ?_, fun none => ?_⟩
  · rw [substituteAll, substitute, bound, substituted]
    rfl
  · rw [spliced]
    exact sameItems_append args sameToo
  · rw [none] at bound
    cases bound

/-- An expression is restored from its head and its arguments. Where nothing seems to have changed it is
kept, but then it was equal to what it would have become. -/
theorem restores_expr (elements : (Value.expr h vs .empty).isElement = true) (callable : k.canHead = true)
    (head : Restores s h k) (args : RestoresAll s vs es) :
    Restores s (.expr h vs .empty) (.expr k es .empty) := by
  obtain ⟨_, headElement, argElements⟩ := everywhere_expr.1 elements
  obtain ⟨r, substituted, same, unchanged⟩ := head
  obtain ⟨rs, substitutedToo, sameToo, unchangedToo⟩ := args
  have whole : (Value.expr h vs .empty).substitute true s.entries =
      if r.equal h && sameItems (spliceLists rs) vs then .ok (.expr h vs .empty)
      else r.build (spliceLists rs) .empty := by
    rw [substitute, substituted, substitutedToo]
    rfl
  rw [Restores, whole]
  by_cases kept : (r.equal h && sameItems (spliceLists rs) vs) = true
  · rw [if_pos kept]
    obtain ⟨sameHead, sameArgs⟩ := Bool.and_eq_true_iff.1 kept
    refine ⟨_, rfl, ?_, fun _ => rfl⟩
    have left : h.same k = true := same_of_same headElement (same_of_equal sameHead) (same_of_equal same)
    have right : sameItems vs es = true := sameItems_of_same argElements sameArgs sameToo
    simp [equal, number?, Value.same, left, right]
  · rw [if_neg kept, build, if_pos (canHead_of_same (same_of_equal same) callable)]
    refine ⟨_, rfl, ?_, fun none => ?_⟩
    · simp [equal, number?, Value.same, same_of_equal same, sameToo]
    · rw [unchanged none, unchangedToo none]

end Restoring

/-! ### Templates -/

mutual

/-- The value with every `Pattern[x, _]` in it replaced by `x`. -/
def skeleton : Value → Value
  | .expr h as t => (naming? h as).getD (.expr (skeleton h) (skeletonAll as) t)
  | v => v
where
  /-- The name of a named pattern. -/
  naming? : Value → List Value → Option Value
    | .symbol f, [x, _] => if f.name == "Pattern" then some x else none
    | _, _ => none

def skeletonAll : List Value → List Value
  | [] => []
  | v :: vs => skeleton v :: skeletonAll vs

end

mutual

/-- The patterns built from atoms, symbols, named blanks and compound patterns without attributes. The
symbols in a list are names and nothing else, and the others are literal. -/
inductive Template (X : List Symbol) : Value → Prop
  | atom {v : Value} (basic : v.isAtom = true) : Template X v
  | literal {y : Symbol} (free : y ∉ X) : Template X (.symbol y)
  | named {x : Symbol} {cs : List Value} (t u : SymbolSet) (bound : x ∈ X) (single : cs.length ≤ 1) :
    Template X (.expr (sym "Pattern") [.symbol x, .expr (sym "Blank") cs t] u)
  | compound {h : Value} {as : List Value} (plain : isConstruct (.expr h as .empty) = false)
    (callable : h.canHead = true) (head : Template X h) (args : ∀ a ∈ as, TemplateArgument X a) :
    Template X (.expr h as .empty)

/-- Among arguments a template may also have named sequence blanks. -/
inductive TemplateArgument (X : List Symbol) : Value → Prop
  | one {p : Value} (template : Template X p) : TemplateArgument X p
  | sequence {x : Symbol} {q : Value} {n : Nat} {cs : List Value} (t : SymbolSet) (bound : x ∈ X)
    (form : SequenceBlank q n cs) (single : cs.length ≤ 1) :
    TemplateArgument X (.expr (sym "Pattern") [.symbol x, q] t)

end

section Templates

variable {X : List Symbol} {p h : Value} {as : List Value} {t : SymbolSet}

theorem skeleton_plain (plain : isConstruct (.expr h as t) = false) :
    skeleton (.expr h as t) = .expr (skeleton h) (skeletonAll as) t := by
  have unnamed : skeleton.naming? h as = none := by
    unfold skeleton.naming?
    split
    · next f x q =>
      simp only [isConstruct, hasHead, List.any_cons, Bool.or_eq_false_iff] at plain
      rw [plain.1]
      rfl
    · rfl
  rw [skeleton, unnamed]
  rfl

theorem skeletonAll_eq (as : List Value) : skeletonAll as = as.map skeleton := by
  induction as with
  | nil => rfl
  | cons a as ih => rw [skeletonAll, ih, List.map_cons]

theorem skeleton_named (x : Symbol) (q : Value) (t : SymbolSet) :
    skeleton (.expr (sym "Pattern") [.symbol x, q] t) = .symbol x := by
  rw [skeleton]
  rfl

mutual

theorem Template.isPattern : ∀ {p : Value}, Template X p → IsPattern p
  | _, .atom basic => .literal (by simp [basic])
  | _, .literal _ => .literal rfl
  | _, .named t u _ single => .named _ u (.blank t single)
  | .expr h as _, .compound plain callable head args => by
    have arguments : ∀ a ∈ as, IsArgument a := fun a member => (args a member).isArgument
    cases h with
    | symbol f => exact .call plain arguments
    | expr k bs u => exact .apply _ rfl head.isPattern arguments
    | _ => cases callable

theorem TemplateArgument.isArgument : ∀ {a : Value}, TemplateArgument X a → IsArgument a
  | _, .one template => .one template.isPattern
  | _, .sequence t _ form single => .segment (.named _ t form) single

end

theorem Template.canHead_skeleton (template : Template X p) (callable : p.canHead = true) :
    (skeleton p).canHead = true := by
  cases template with
  | atom basic =>
    cases p with
    | symbol _ | expr _ _ _ => cases basic
    | _ => cases callable
  | literal => rfl
  | named t u =>
    rw [skeleton_named]
    rfl
  | compound plain =>
    rw [skeleton_plain plain]
    rfl

mutual

theorem Template.isElement_skeleton : ∀ {p : Value}, Template X p → (skeleton p).isElement = true
  | v, .atom basic => by cases v <;> first | rfl | cases basic
  | _, .literal _ => rfl
  | _, .named t u _ _ => by
    rw [skeleton_named]
    rfl
  | .expr h as _, .compound plain callable head args => by
    rw [skeleton_plain plain, skeletonAll_eq]
    refine everywhere_expr.2 ⟨?_, head.isElement_skeleton, ?_⟩
    · exact head.canHead_skeleton callable
    · intro v member
      obtain ⟨a, argument, rfl⟩ := List.mem_map.1 member
      exact (args a argument).isElement_skeleton

theorem TemplateArgument.isElement_skeleton : ∀ {a : Value}, TemplateArgument X a → (skeleton a).isElement = true
  | _, .one template => template.isElement_skeleton
  | _, .sequence t _ _ _ => by
    rw [skeleton_named]
    rfl

end

end Templates

section Naming

variable {X : List Symbol} {x : Symbol}

mutual

/-- The names that a template binds are among those that it is a template for. -/
theorem Template.mem_of_names : ∀ {p : Value}, Template X p → Names x p → x ∈ X
  | v, .atom basic, names => by cases names <;> cases basic
  | _, .literal _, names => by cases names
  | _, .named t u bound _, names => by
    rcases names.of_named with rfl | inner
    · exact bound
    · exact (inner.of_construct rfl (by simp) (by simp)).elim
  | .expr h as _, .compound plain _ head args, names => by
    rcases names.of_plain plain with inner | ⟨a, argument, inner⟩
    · exact head.mem_of_names inner
    · exact (args a argument).mem_of_names inner

theorem TemplateArgument.mem_of_names : ∀ {a : Value}, TemplateArgument X a → Names x a → x ∈ X
  | _, .one template, names => template.mem_of_names names
  | _, .sequence t bound form _, names => by
    rcases names.of_named with rfl | inner
    · exact bound
    · cases form with
      | sequence | nullSequence => exact (inner.of_construct rfl (by simp) (by simp)).elim

end

end Naming

section RoundTrip

variable {X : List Symbol} {s : Bindings} {p e h : Value} {as es : List Value} {t : SymbolSet} {lax : Bool}

/-- What a template can be restored to: an element without attributes in which no expression is a list. -/
structure Target (e : Value) : Prop where
  element : e.isElement = true
  bare : e.everywhere (·.attributes == .empty) = true
  listFree : e.everywhere (!·.hasHead "List") = true

theorem Target.head {k : Value} {u : SymbolSet} (target : Target (.expr k es u)) : Target k :=
  ⟨(everywhere_expr.1 target.element).2.1, (everywhere_expr.1 target.bare).2.1, (everywhere_expr.1 target.listFree).2.1⟩

theorem Target.args {k : Value} {u : SymbolSet} (target : Target (.expr k es u)) : ∀ d ∈ es, Target d := fun d member =>
  ⟨(everywhere_expr.1 target.element).2.2 d member, (everywhere_expr.1 target.bare).2.2 d member,
    (everywhere_expr.1 target.listFree).2.2 d member⟩

/-- A skeleton restores whatever its pattern belongs together with. -/
def Restorable (s : Bindings) (p : Value) : Prop := ∀ e, Target e → Relates true s p e → Restores s (skeleton p) e

theorem restoresAll_of_related (related : RelatesAll true s as es) (targets : ∀ d ∈ es, Target d)
    (each : ∀ a ∈ as, (IsPattern a ∧ Restorable s a) ∨
      ∃ x n cs, SegmentPattern a (some x) n cs ∧ skeleton a = .symbol x) :
    RestoresAll s (skeletonAll as) es := by
  induction as generalizing es with
  | nil =>
    cases related
    exact restoresAll_nil
  | cons a as ih =>
    obtain ⟨first, others⟩ := List.forall_mem_cons.1 each
    rw [skeletonAll]
    rcases first with ⟨single, restorable⟩ | ⟨x, n, cs, form, bare⟩
    · obtain ⟨d, later, rfl, here, rest⟩ := related.one_parts single
      obtain ⟨target, targetsToo⟩ := List.forall_mem_cons.1 targets
      have other := everywhere_here target.listFree
      exact restoresAll_cons (restorable d target here) (by simpa using other) (ih rest targetsToo others)
    · obtain ⟨front, back, rfl, bound, rest⟩ := related.segment_parts form
      obtain ⟨_, targetsToo⟩ := List.forall_mem_append.1 targets
      rw [bare]
      exact restoresAll_segment (bound x rfl) (ih rest targetsToo others)

mutual

/-- A template is restored to what it belongs together with, if nothing but its names is bound. -/
theorem Template.restorable (closed : ∀ x v, s.get? x = some v → x ∈ X) :
    ∀ {p : Value}, Template X p → Restorable s p
  | v, .atom basic => by
    intro e _ related
    cases related with
    | literal _ same =>
      have kept : skeleton v = v ∧ v.substitute true s.entries = .ok v := by
        cases v <;> first | exact ⟨rfl, rfl⟩ | cases basic
      rw [kept.1]
      exact ⟨v, kept.2, same, fun _ => rfl⟩
    | _ => cases basic
  | .symbol y, .literal free => by
    intro e _ related
    cases related with
    | literal _ same =>
      have unbound : Bindings.lookup y s.entries = none := by
        cases found : Bindings.lookup y s.entries with
        | none => rfl
        | some v => exact absurd (closed y v found) free
      exact ⟨.symbol y, by simp [skeleton, substitute, unbound], same, fun _ => rfl⟩
  | _, .named t u _ _ => by
    intro e _ related
    rw [skeleton_named]
    exact restores_name related.named_parts.2
  | .expr h as _, .compound plain callable head args => by
    intro e target related
    obtain ⟨k, es, u, rfl, headRelated, argsRelated⟩ := related.compound_parts plain
    obtain rfl : u = .empty := by simpa [attributes] using everywhere_here target.bare
    have element := (Template.compound plain callable head args).isElement_skeleton
    rw [skeleton_plain plain] at element ⊢
    have callableToo : k.canHead = true := (everywhere_expr.1 target.element).1
    refine restores_expr element callableToo (head.restorable closed k target.head headRelated) ?_
    exact restoresAll_of_related argsRelated target.args fun a member => (args a member).restorable closed

theorem TemplateArgument.restorable (closed : ∀ x v, s.get? x = some v → x ∈ X) :
    ∀ {a : Value}, TemplateArgument X a →
      (IsPattern a ∧ Restorable s a) ∨ ∃ x n cs, SegmentPattern a (some x) n cs ∧ skeleton a = .symbol x
  | _, .one template => .inl ⟨template.isPattern, template.restorable closed⟩
  | _, .sequence t _ form _ => .inr ⟨_, _, _, .named _ t form, skeleton_named _ _ t⟩

end

end RoundTrip

/-- Substituting what a match of a template bound into its skeleton gives back the value that was
matched: an element without attributes and without a NaN in which no expression is a list. -/
theorem substitute_of_match {σ : Type} (m : Settings σ) {X : List Symbol} {p e : Value} {s : Bindings} {st st' : σ}
    (template : Template X p) (target : Target e) (free : e.isNaNFree = true)
    (run : matchOne m none 0 p e .empty st = .ok (some s) st') :
    ∃ r, s.substitute (skeleton p) = .ok r ∧ r.equal e = true := by
  have ordered : e.isOrdered = true := by
    refine everywhere_mono (fun v bare => ?_) target.bare
    rw [eq_of_beq bare]
    rfl
  have settled : Settled e := ⟨target.element, free, ordered⟩
  have closed : ∀ x v, s.get? x = some v → x ∈ X := by
    intro x v found
    have gains : Gains True (Names · p) .empty s :=
      (matchOne_ends template.isPattern ⟨settled, .inr trivial⟩ fun _ _ found => by cases found).of_ok run s rfl
    rcases gains x v found with before | ⟨names, _⟩
    · cases before
    · exact template.mem_of_names names
  have related : Relates true s p e := (matchOne_sound template.isPattern settled run).1
  obtain ⟨r, substituted, same, unchanged⟩ := template.restorable closed e target related
  refine ⟨r, ?_, same⟩
  rw [Bindings.substitute]
  split
  · next none => rw [unchanged (List.isEmpty_iff.1 none)]
  · exact substituted

/-- The pattern `u_[x_, g[y___, x_], z__]`. -/
def scattered : Value :=
  .expr (call "Pattern" [sym "u", call "Blank" []]) [call "Pattern" [sym "x", call "Blank" []],
    call "g" [call "Pattern" [sym "y", call "BlankNullSequence" []], call "Pattern" [sym "x", call "Blank" []]],
    call "Pattern" [sym "z", call "BlankSequence" []]] .empty

theorem scattered_template : Template [⟨"u"⟩, ⟨"x"⟩, ⟨"y"⟩, ⟨"z"⟩] scattered := by
  have u : Template [⟨"u"⟩, ⟨"x"⟩, ⟨"y"⟩, ⟨"z"⟩] (call "Pattern" [sym "u", call "Blank" []]) :=
    .named _ _ (by simp) (by simp)
  have x : Template [⟨"u"⟩, ⟨"x"⟩, ⟨"y"⟩, ⟨"z"⟩] (call "Pattern" [sym "x", call "Blank" []]) :=
    .named _ _ (by simp) (by simp)
  have y : TemplateArgument [⟨"u"⟩, ⟨"x"⟩, ⟨"y"⟩, ⟨"z"⟩] (call "Pattern" [sym "y", call "BlankNullSequence" []]) :=
    .sequence _ (by simp) (.nullSequence [] _) (by simp)
  have z : TemplateArgument [⟨"u"⟩, ⟨"x"⟩, ⟨"y"⟩, ⟨"z"⟩] (call "Pattern" [sym "z", call "BlankSequence" []]) :=
    .sequence _ (by simp) (.sequence [] _) (by simp)
  have inner : Template [⟨"u"⟩, ⟨"x"⟩, ⟨"y"⟩, ⟨"z"⟩] (call "g" [call "Pattern" [sym "y", call "BlankNullSequence" []],
      call "Pattern" [sym "x", call "Blank" []]]) :=
    .compound (by decide) rfl (.literal (by simp)) (by simpa using ⟨y, .one x⟩)
  exact .compound rfl rfl u (by simpa using ⟨.one x, .one inner, z⟩)

/-- A match of it with `f[1, g[1], 2, 3]`, where `y` takes nothing. -/
theorem substitute_of_match_scattered :
    ∃ s, matchOne (σ := Unit) ⟨none, defaultDepth⟩ none 0 scattered
        (call "f" [int 1, call "g" [int 1], int 2, int 3]) .empty () = .ok (some s) () ∧
      ∃ r, s.substitute (.expr (sym "u") [sym "x", call "g" [sym "y", sym "x"], sym "z"] .empty) = .ok r ∧
        r.equal (call "f" [int 1, call "g" [int 1], int 2, int 3]) = true := by
  have found : Step.returns Option.isSome (matchOne (σ := Unit) ⟨none, defaultDepth⟩ none 0 scattered
      (call "f" [int 1, call "g" [int 1], int 2, int 3]) .empty ()) = true := by
    decide +kernel
  obtain ⟨r, _, run, some⟩ := Step.returns_iff.1 found
  obtain ⟨s, rfl⟩ := Option.isSome_iff_exists.1 some
  have bare : skeleton scattered = .expr (sym "u") [sym "x", call "g" [sym "y", sym "x"], sym "z"] .empty := by
    rfl
  rw [← bare]
  exact ⟨s, run, substitute_of_match _ scattered_template ⟨by decide, by decide, by decide⟩ (by decide) run⟩

end Pattern
end Symbolic
