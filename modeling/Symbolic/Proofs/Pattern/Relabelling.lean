import Symbolic.Proofs.Pattern.Threading

/-!
The names of a pattern are only labels. Giving other names to the named patterns inside a pattern,
different ones to different names, changes nothing about what it matches, about the order in which
matches are tried or about the failures on the way: the bindings that are found are the same under
the new names (`match_relabel`).
-/
namespace Symbolic

namespace Bindings

def relabel (r : Symbol → Symbol) (b : Bindings) : Bindings :=
  empty.extend (b.entries.map fun c => (r c.1, c.2))

/-- Only names from a list are bound. -/
def Within (N : List Symbol) (b : Bindings) : Prop := ∀ c ∈ b.entries, c.1 ∈ N

section Relabel

variable {r : Symbol → Symbol} {N : List Symbol} {b : Bindings} {x y : Symbol} {v : Value}

theorem Within.insert (within : b.Within N) (inside : x ∈ N) (v : Value) : (b.insert x v).Within N := by
  intro c member
  rcases mem_of_mem_place member with rfl | before
  · exact inside
  · exact within c before

theorem Within.mem (within : b.Within N) (bound : b.get? x = some v) : x ∈ N := within _ (mem_of_lookup bound)

variable (distinct : ∀ x ∈ N, ∀ y ∈ N, r x = r y → x = y)

include distinct

theorem get_relabel (within : b.Within N) (inside : x ∈ N) : (b.relabel r).get? (r x) = b.get? x := by
  rw [relabel, get_extend]
  change lookup (r x) _ = lookup x b.entries
  rw [Within] at within
  generalize b.entries = es at within ⊢
  induction es with
  | nil => rfl
  | cons c es ih =>
    obtain ⟨here, later⟩ := List.forall_mem_cons.1 within
    rw [List.map_cons, lookup, lookup, ih later]
    by_cases same : x = c.1
    · rw [if_pos same, if_pos (congrArg r same)]
    · rw [if_neg same, if_neg fun labels => same (distinct x inside c.1 here labels)]

theorem get_relabel_iff (within : b.Within N) :
    (b.relabel r).get? y = some v ↔ ∃ x, r x = y ∧ b.get? x = some v := by
  constructor
  · intro found
    have listed : lookup y (b.entries.map fun c => (r c.1, c.2)) = some v := by
      rwa [relabel, get_extend] at found
    obtain ⟨c, member, same⟩ := List.mem_map.1 (mem_of_lookup listed)
    obtain ⟨rfl, rfl⟩ := Prod.mk.inj same
    exact ⟨c.1, rfl, (get_relabel distinct within (within c member)).symm.trans found⟩
  · rintro ⟨x, rfl, bound⟩
    rw [get_relabel distinct within (within.mem bound), bound]

theorem relabel_insert (within : b.Within N) (inside : x ∈ N) (v : Value) :
    (b.insert x v).relabel r = (b.relabel r).insert (r x) v := by
  apply ext_get
  intro y
  rw [get_insert]
  by_cases label : ∃ z ∈ N, r z = y
  · obtain ⟨z, known, rfl⟩ := label
    rw [get_relabel distinct (within.insert inside v) known, get_relabel distinct within known, get_insert]
    by_cases same : z = x
    · rw [if_pos same, if_pos (congrArg r same)]
    · rw [if_neg same, if_neg fun labels => same (distinct z known x inside labels)]
  · have absent : ∀ {c : Bindings}, c.Within N → (c.relabel r).get? y = none := by
      intro c within
      refine Option.eq_none_iff_forall_ne_some.2 fun w found => ?_
      obtain ⟨z, same, bound⟩ := (get_relabel_iff distinct within).1 found
      exact label ⟨z, within.mem bound, same⟩
    rw [if_neg fun same => label ⟨x, inside, same.symm⟩, absent (within.insert inside v), absent within]

end Relabel

end Bindings

namespace Pattern

open Value Step

/-- Gives another name to a name that stands first. -/
def relabelFirst (r : Symbol → Symbol) : List Value → List Value
  | .symbol x :: as => .symbol (r x) :: as
  | as => as

mutual

/-- Gives other names to the named patterns in a value. All other symbols stay what they are. -/
def relabel (r : Symbol → Symbol) : Value → Value
  | .expr h as t =>
    .expr (relabel r h)
      (if (Value.expr h as t).hasHead "Pattern" then relabelFirst r (relabelAll r as) else relabelAll r as) t
  | v => v

def relabelAll (r : Symbol → Symbol) : List Value → List Value
  | [] => []
  | x :: xs => relabel r x :: relabelAll r xs

end

def nameOf? (v : Value) : Option Symbol :=
  if v.hasHead "Pattern" then v.args.head?.bind symbol? else none

mutual

/-- The names of the named patterns in a value. -/
def introduced : Value → List Symbol
  | .expr h as t => (nameOf? (.expr h as t)).toList ++ introduced h ++ introducedAll as
  | _ => []

def introducedAll : List Value → List Symbol
  | [] => []
  | x :: xs => introduced x ++ introducedAll xs

end

def isNameless (v : Value) : Bool := (introduced v).isEmpty

/-- Whether a construct is made as it should be, and neither takes a value word for word nor runs
tests: a name is a symbol, and there are no named patterns in what a blank asks for or in a default,
which are values and not patterns. -/
def isFormed (v : Value) : Bool :=
  ["Verbatim", "Condition", "PatternTest"].all (!v.hasHead ·) &&
    (!v.hasHead "Pattern" || (nameOf? v).isSome) &&
    ((blankKind? v).isNone || (first? v.args).all isNameless) &&
    (!v.hasHead "Optional" || (second? v.args).all isNameless)

/-- Whether all constructs in a pattern are made as they should be. -/
def isWellFormed (p : Value) : Bool := p.everywhere isFormed

/-- Whether a construct is made as it should be and its name, if it has one, is from a list. -/
def isFitting (N : List Symbol) (v : Value) : Bool := isFormed v && (nameOf? v).all (N.contains ·)

/-- The name of a named pattern, changed. -/
def label (r : Symbol → Symbol) : Value → Value
  | .symbol x => .symbol (r x)
  | v => v

section Structure

variable {r : Symbol → Symbol} {N : List Symbol} {h v w p : Value} {as : List Value} {t : SymbolSet}

theorem relabelAll_eq_map (r : Symbol → Symbol) (xs : List Value) : relabelAll r xs = xs.map (relabel r) := by
  induction xs with
  | nil => rfl
  | cons x xs ih => rw [relabelAll, ih, List.map_cons]

@[simp] theorem hasHead_relabel (r : Symbol → Symbol) (v : Value) (name : String) :
    (relabel r v).hasHead name = v.hasHead name := by
  cases v with
  | expr h as t => cases h <;> rfl
  | _ => rfl

theorem relabel_expr (other : (Value.expr h as t).hasHead "Pattern" = false) :
    relabel r (.expr h as t) = .expr (relabel r h) (as.map (relabel r)) t := by
  rw [relabel, other, relabelAll_eq_map]
  rfl

theorem args_expr : (Value.expr h as t).args = as := rfl

theorem args_relabel (other : v.hasHead "Pattern" = false) : (relabel r v).args = v.args.map (relabel r) := by
  cases v with
  | expr h as t => rw [relabel_expr other, args_expr, args_expr]
  | _ => rfl

theorem headed {name : String} (named : (Value.expr h as t).hasHead name = true) : h = sym name := by
  cases h with
  | symbol s => exact congrArg (fun n => Value.symbol ⟨n⟩) (beq_iff_eq.1 named)
  | _ => cases named

theorem nameOf?_isSome (formed : isFormed v = true) (named : v.hasHead "Pattern" = true) : (nameOf? v).isSome = true := by
  simp only [isFormed, Bool.and_eq_true, Bool.or_eq_true, Bool.not_eq_true'] at formed
  simpa [named] using formed.1.1.2

theorem form_of_named (fit : isFitting N v = true) (named : v.hasHead "Pattern" = true) :
    ∃ x as t, v = .expr (sym "Pattern") (.symbol x :: as) t ∧ x ∈ N := by
  obtain ⟨formed, known⟩ := Bool.and_eq_true_iff.1 fit
  obtain ⟨x, name⟩ := Option.isSome_iff_exists.1 (nameOf?_isSome formed named)
  have inside : x ∈ N := by simpa [name] using known
  rw [nameOf?, if_pos named] at name
  obtain ⟨a, first, symbol⟩ := Option.bind_eq_some_iff.1 name
  obtain ⟨as, args⟩ := List.head?_eq_some_iff.1 first
  cases a with
  | symbol y =>
    cases symbol
    cases v with
    | expr h bs t =>
      obtain rfl := headed named
      exact ⟨x, as, t, congrArg (Value.expr (sym "Pattern") · t) args, inside⟩
    | _ => cases named
  | _ => cases symbol

theorem relabel_named (r : Symbol → Symbol) (x : Symbol) (as : List Value) (t : SymbolSet) :
    relabel r (.expr (sym "Pattern") (.symbol x :: as) t) =
      .expr (sym "Pattern") (.symbol (r x) :: as.map (relabel r)) t := by
  rw [relabel, relabelAll, relabelAll_eq_map]
  rfl

mutual

theorem relabel_of_introduced : ∀ {v : Value}, introduced v = [] → relabel r v = v
  | .expr h as t, free => by
    simp only [introduced, List.append_eq_nil_iff, Option.toList_eq_nil_iff] at free
    obtain ⟨⟨unnamed, head⟩, args⟩ := free
    rw [relabel, relabel_of_introduced head, relabelAll_of_introduced args]
    split
    · next named =>
      rw [nameOf?, if_pos named] at unnamed
      cases as with
      | nil => rfl
      | cons a as =>
        cases a with
        | symbol x => cases unnamed
        | _ => rfl
    · rfl
  | .null, _ | .bool _, _ | .number _, _ | .text _, _ | .symbol _, _ | .tuple _, _ | .list _, _ | .set _, _
  | .table _, _ | .bindings _, _ => rfl

theorem relabelAll_of_introduced : ∀ {vs : List Value}, introducedAll vs = [] → relabelAll r vs = vs
  | [], _ => rfl
  | v :: vs, free => by
    obtain ⟨here, later⟩ := List.append_eq_nil_iff.1 free
    rw [relabelAll, relabel_of_introduced here, relabelAll_of_introduced later]

end

theorem relabel_of_isNameless (nameless : isNameless v = true) : relabel r v = v :=
  relabel_of_introduced (List.isEmpty_iff.1 nameless)

theorem hasHead_of_same {k : Value} {bs : List Value} {u : SymbolSet} (same : h.same k = true) (name : String) :
    (Value.expr h as t).hasHead name = (Value.expr k bs u).hasHead name := by
  cases h with
  | symbol s =>
    obtain rfl := symbol_same_iff.1 same
    rfl
  | _ =>
    cases k with
    | symbol s => cases same_symbol_iff.1 same
    | _ => rfl

theorem same_relabel_of_isExpr (plain : v.isExpr = false) (r : Symbol → Symbol) (w : Value) :
    v.same (relabel r w) = v.same w := by
  cases w with
  | expr k bs u =>
    rw [relabel]
    cases v with
    | expr h as t => cases plain
    | _ => simp only [Value.same, number?]
  | _ => rfl

mutual

theorem same_relabel (distinct : ∀ x ∈ N, ∀ y ∈ N, r x = r y → x = y) : ∀ {v w : Value},
    v.everywhere (isFitting N) = true → w.everywhere (isFitting N) = true →
      (relabel r v).same (relabel r w) = v.same w
  | .expr h as t, .expr k bs u, left, right => by
    obtain ⟨leftHere, leftHead, leftArgs⟩ := everywhere_expr.1 left
    obtain ⟨rightHere, rightHead, rightArgs⟩ := everywhere_expr.1 right
    have heads : (relabel r h).same (relabel r k) = h.same k := same_relabel distinct leftHead rightHead
    have items : sameItems (relabelAll r as) (relabelAll r bs) = sameItems as bs :=
      sameItems_relabel distinct leftArgs rightArgs
    rw [relabel, relabel, Value.same, Value.same, heads]
    cases same : h.same k with
    | false => rfl
    | true =>
      have headed : (Value.expr h as t).hasHead "Pattern" = (Value.expr k bs u).hasHead "Pattern" :=
        hasHead_of_same same "Pattern"
      rw [headed]
      split
      · next named =>
        -- The names stand first, and other names are different where these are.
        obtain ⟨x, as', _, form, inside⟩ := form_of_named leftHere (headed.trans named)
        obtain ⟨y, bs', _, formToo, insideToo⟩ := form_of_named rightHere named
        cases form
        cases formToo
        have labels : (r x == r y) = (x == y) := by
          rw [Bool.eq_iff_iff, beq_iff_eq, beq_iff_eq]
          exact ⟨distinct x inside y insideToo, congrArg r⟩
        simp only [relabelAll, relabel, relabelFirst, sameItems, Value.same] at items ⊢
        rw [labels, items]
      · rw [items]
  | .expr .., .null, _, _ | .expr .., .bool _, _, _ | .expr .., .number _, _, _ | .expr .., .text _, _, _
  | .expr .., .symbol _, _, _ | .expr .., .tuple _, _, _ | .expr .., .list _, _, _ | .expr .., .set _, _, _
  | .expr .., .table _, _, _ | .expr .., .bindings _, _, _ => by simp only [relabel, Value.same]
  | .null, w, _, _ | .bool _, w, _, _ | .number _, w, _, _ | .text _, w, _, _ | .symbol _, w, _, _
  | .tuple _, w, _, _ | .list _, w, _, _ | .set _, w, _, _ | .table _, w, _, _ | .bindings _, w, _, _ =>
    same_relabel_of_isExpr rfl r w

theorem sameItems_relabel (distinct : ∀ x ∈ N, ∀ y ∈ N, r x = r y → x = y) : ∀ {vs ws : List Value},
    (∀ v ∈ vs, v.everywhere (isFitting N) = true) → (∀ w ∈ ws, w.everywhere (isFitting N) = true) →
      sameItems (relabelAll r vs) (relabelAll r ws) = sameItems vs ws
  | [], [], _, _ => rfl
  | v :: vs, w :: ws, left, right => by
    rw [relabelAll, relabelAll, sameItems, sameItems, same_relabel distinct (left v (by simp)) (right w (by simp)),
      sameItems_relabel distinct (fun a member => left a (by simp [member])) fun a member => right a (by simp [member])]
  | [], w :: ws, _, _ => by simp only [relabelAll, sameItems]
  | v :: vs, [], _, _ => by simp only [relabelAll, sameItems]

end

theorem equal_relabel (distinct : ∀ x ∈ N, ∀ y ∈ N, r x = r y → x = y) (left : v.everywhere (isFitting N) = true)
    (right : w.everywhere (isFitting N) = true) : (relabel r v).equal (relabel r w) = v.equal w := by
  have numbers : ∀ u : Value, (relabel r u).number? = u.number? := by
    intro u
    cases u <;> rfl
  rw [equal, equal, numbers, numbers, same_relabel distinct left right]

theorem present?_relabel (r : Symbol → Symbol) (v : Value) : present? (relabel r v) = (present? v).map (relabel r) := by
  cases v <;> rfl

theorem first?_map (r : Symbol → Symbol) (as : List Value) :
    first? (as.map (relabel r)) = (first? as).map (relabel r) := by
  cases as with
  | nil => rfl
  | cons a as => exact present?_relabel r a

theorem second?_map (r : Symbol → Symbol) (as : List Value) :
    second? (as.map (relabel r)) = (second? as).map (relabel r) := by
  rw [second?, ← List.map_drop]
  exact first?_map r (as.drop 1)

theorem map_of_isNameless {o : Option Value} (nameless : o.all isNameless = true) : o.map (relabel r) = o := by
  cases o with
  | none => rfl
  | some v => rw [Option.map_some, relabel_of_isNameless nameless]

theorem unwrapHold_eq (v : Value) : unwrapHold v = if v.hasHead "HoldPattern" then v.args.headD v else v := by
  cases v with
  | expr h as t =>
    cases h with
    | symbol s =>
      cases as with
      | nil => simp [unwrapHold, args]
      | cons a as => simp [unwrapHold, hasHead, args]
    | _ => rfl
  | _ => rfl

theorem unwrapHold_relabel (r : Symbol → Symbol) (p : Value) : unwrapHold (relabel r p) = relabel r (unwrapHold p) := by
  rw [unwrapHold_eq, unwrapHold_eq, hasHead_relabel]
  split
  · next held =>
    rw [args_relabel (hasHead_of_ne held (by decide))]
    cases p.args <;> rfl
  · rfl

/-- A value that a blank asks for and a default hold no named patterns. -/
theorem isNameless_of_isFormed (formed : isFormed v = true) :
    ((blankKind? v).isSome = true → (first? v.args).all isNameless = true) ∧
      (v.hasHead "Optional" = true → (second? v.args).all isNameless = true) := by
  simp only [isFormed, Bool.and_eq_true, Bool.or_eq_true, Option.isNone_iff_eq_none, Bool.not_eq_true'] at formed
  obtain ⟨⟨_, blank⟩, optional⟩ := formed
  constructor
  · intro kind
    rcases blank with none | nameless
    · rw [none] at kind
      cases kind
    · exact nameless
  · intro headed
    rcases optional with other | nameless
    · rw [headed] at other
      cases other
    · exact nameless

theorem isFormed_excludes (formed : isFormed v = true) :
    v.hasHead "Verbatim" = false ∧ v.hasHead "Condition" = false ∧ v.hasHead "PatternTest" = false := by
  simp only [isFormed, Bool.and_eq_true] at formed
  simpa using formed.1.1.1

theorem isFormed_of_isFitting (fit : isFitting N v = true) : isFormed v = true :=
  (Bool.and_eq_true_iff.1 fit).1

theorem isFitting_unwrapHold (fit : v.everywhere (isFitting N) = true) : isFitting N (unwrapHold v) = true :=
  everywhere_here ((hereditary_everywhere _).unwrapHold fit)

theorem shape_relabel (fit : isFitting N v = true) :
    shape (relabel r v) = (shape v).map (label r) (relabel r) := by
  have formed : isFormed v = true := isFormed_of_isFitting fit
  by_cases named : v.hasHead "Pattern" = true
  · obtain ⟨x, as, t, rfl, _⟩ := form_of_named fit named
    rw [relabel_named]
    exact congrArg (Shape.named (some (.symbol (r x)))) (first?_map r as)
  · cases v with
    | expr h as t =>
      rw [relabel_expr (Bool.eq_false_iff.2 named)]
      cases h with
      | symbol s =>
        obtain ⟨verbatim, condition, test⟩ := isFormed_excludes formed
        simp only [hasHead, beq_eq_false_iff_ne, beq_iff_eq] at verbatim condition test named
        simp only [relabel, shape, shapeOfCall, verbatim, condition, test, named, if_false]
        split
        · next name =>
          have nameless : (first? as).all isNameless = true :=
            (isNameless_of_isFormed formed).1 (by simp [blankKind?, hasHead, name])
          rw [first?_map, map_of_isNameless nameless, Shape.map]
        · split
          · rfl
          · split
            · rw [List.head?_map, ← List.map_drop, List.head?_map, Shape.map]
            · split
              · rw [first?_map, Shape.map]
              · split
                · rw [first?_map, Shape.map]
                · rfl
      | expr k bs u => simp [relabel, shape, Shape.map]
      | _ => simp [relabel, shape, Shape.map]
    | _ => simp [relabel, shape, Shape.map, isAtom, isSymbol]

theorem blankKind?_relabel (r : Symbol → Symbol) (v : Value) : blankKind? (relabel r v) = blankKind? v := by
  simp only [blankKind?, hasHead_relabel]

theorem segmentLength?_relabel (r : Symbol → Symbol) (v : Value) : segmentLength? (relabel r v) = segmentLength? v := by
  rw [segmentLength?, segmentLength?, blankKind?_relabel]

theorem first?_relabel_segment {n : Nat} (formed : isFormed v = true) (segment : segmentLength? v = some n) :
    first? (relabel r v).args = first? v.args := by
  have kind : (blankKind? v).isSome = true := by
    cases kind : blankKind? v with
    | none => simp [segmentLength?, kind] at segment
    | some k => rfl
  have other : v.hasHead "Pattern" = false := by
    refine Bool.eq_false_iff.2 fun named => ?_
    simp [blankKind?, hasHead_of_ne named] at kind
  rw [args_relabel other, first?_map, map_of_isNameless ((isNameless_of_isFormed formed).1 kind)]

theorem role_relabel (fit : v.everywhere (isFitting N) = true) :
    role (relabel r v) = (role v).map (label r) (relabel r) := by
  have here : isFitting N v = true := everywhere_here fit
  have formed : isFormed v = true := isFormed_of_isFitting here
  simp only [role, segmentLength?_relabel, hasHead_relabel]
  cases segment : segmentLength? v with
  | some n =>
    simp only [first?_relabel_segment formed segment]
    rfl
  | none =>
    simp only
    split
    · next optional =>
      have nameless := (isNameless_of_isFormed formed).2 optional
      rw [args_relabel (hasHead_of_ne optional (by decide)), first?_map, second?_map, map_of_isNameless nameless,
        Role.map]
    · split
      · next named =>
        obtain ⟨x, as, t, rfl, _⟩ := form_of_named here named
        have inner : second? (Value.symbol (r x) :: as.map (relabel r)) =
            (second? (Value.symbol x :: as)).map (relabel r) := first?_map r as
        simp only [relabel_named, args_expr, inner]
        cases second : second? (Value.symbol x :: as) with
        | none => rfl
        | some q =>
          have formedToo : isFormed q = true :=
            isFormed_of_isFitting (everywhere_here ((everywhere_expr.1 fit).2.2 q (second?_mem second)))
          simp only [Option.map_some, segmentLength?_relabel]
          cases segment : segmentLength? q with
          | none => rfl
          | some n =>
            simp only [first?_relabel_segment formedToo segment]
            rfl
      · split
        · next repeated => rw [args_relabel (hasHead_of_ne repeated (by decide)), first?_map, Role.map]
        · split
          · next repeated => rw [args_relabel (hasHead_of_ne repeated (by decide)), first?_map, Role.map]
          · rfl

theorem name_of_isFitting (fit : isFitting N p = true) (named : p.hasHead "Pattern" = true) :
    ∀ n ∈ first? p.args, ∃ x ∈ N, n = .symbol x := by
  obtain ⟨x, as, t, rfl, inside⟩ := form_of_named fit named
  exact fun n first => ⟨x, inside, (Option.some.inj first).symm⟩

theorem flatten_relabel (distinct : ∀ x ∈ N, ∀ y ∈ N, r x = r y → x = y) (other : h ≠ sym "Pattern")
    (fit : h.everywhere (isFitting N) = true) (fits : ∀ a ∈ as, a.everywhere (isFitting N) = true) :
    flatten (relabel r h) (as.map (relabel r)) = (flatten h as).map (relabel r) := by
  fun_induction flatten h as with
  | case1 => simp [flatten]
  | case2 h k as t xs same ihInside ihLater =>
    obtain ⟨first, later⟩ := List.forall_mem_cons.1 fits
    obtain ⟨_, head, args⟩ := everywhere_expr.1 first
    have plain : (Value.expr k as t).hasHead "Pattern" = false := by
      refine Bool.eq_false_iff.2 fun named => ?_
      obtain rfl := headed named
      exact other (symbol_same_iff.1 (same_of_equal same))
    rw [List.map_cons, relabel_expr plain, flatten, equal_relabel distinct head fit, if_pos same, List.map_append,
      ihInside other fit args, ihLater other fit later]
  | case3 h k as t xs differ ih =>
    obtain ⟨first, later⟩ := List.forall_mem_cons.1 fits
    obtain ⟨_, head, _⟩ := everywhere_expr.1 first
    rw [List.map_cons, List.map_cons, relabel, flatten, equal_relabel distinct head fit, if_neg differ,
      ih other fit later]
  | case4 h x xs atom ih =>
    obtain ⟨first, later⟩ := List.forall_mem_cons.1 fits
    rw [List.map_cons, List.map_cons, ← ih other fit later]
    cases x with
    | expr k as t => exact (atom k as t rfl).elim
    | _ => rfl

end Structure

section Matching

variable {σ : Type} {r : Symbol → Symbol} {N : List Symbol} {b : Bindings} {p q : Value}
  (distinct : ∀ x ∈ N, ∀ y ∈ N, r x = r y → x = y)

include distinct

theorem bindName_relabel {x : Symbol} (within : b.Within N) (inside : x ∈ N) (v : Value) :
    bindName (b.relabel r) (some (.symbol (r x))) v =
      Option.map (Bindings.relabel r) <$> bindName b (some (.symbol x)) v := by
  simp only [bindName, Bindings.bindValue, Bindings.bind, Bindings.get_relabel distinct within inside]
  cases b.get? x with
  | some old =>
    by_cases same : old.equal v = true
    · simp [same]
    · -- The names differ in the report of a conflict, which goes no further.
      by_cases written : (old.isWritable && v.isWritable) = true <;> simp [same, Bindings.conflict, written]
  | none =>
    by_cases key : v.isKey = true
    · simp [key, Bindings.relabel_insert distinct within inside]
    · simp [key]

theorem bindName_carried {name : Option Value} (known : ∀ n ∈ name, ∃ x ∈ N, n = .symbol x) (within : b.Within N)
    (v : Value) : Carried (σ := σ) (Bindings.relabel r) (Bindings.Within N) (ofExcept (bindName b name v))
      (ofExcept (bindName (b.relabel r) (name.map (label r)) v)) := by
  cases name with
  | none => exact Carried.some within
  | some n =>
    obtain ⟨x, inside, rfl⟩ := known n rfl
    refine .ofExcept (bindName_relabel distinct within inside v) fun o found c member => ?_
    cases member
    rcases bindName_found found with rfl | ⟨y, same, bound⟩
    · exact within
    · cases same
      rcases Bindings.bind_cases bound with ⟨_, _, _, rfl⟩ | ⟨_, rfl⟩
      · exact within
      · exact within.insert inside v

theorem skipOptional_carried (fit : isFitting N q = true) (within : b.Within N) (default : Option Value) :
    Carried (σ := σ) (Bindings.relabel r) (Bindings.Within N) (ofExcept (skipOptional b q default))
      (ofExcept (skipOptional (b.relabel r) (relabel r q) default)) := by
  cases default with
  | none => exact Carried.none
  | some v =>
    rw [skipOptional, skipOptional, hasHead_relabel, hasHead_relabel]
    split
    · next named =>
      obtain ⟨x, as, t, rfl, inside⟩ := form_of_named fit named
      rw [relabel_named]
      exact bindName_carried distinct (name_of_isFitting fit named) within v
    · split
      · exact Carried.some within
      · exact Carried.none

theorem transports_relabel (m : Settings σ) : Transports m (label r) (relabel r) (Bindings.relabel r)
    (fun p => p.everywhere (isFitting N) = true) (fun _ => True) (Bindings.Within N) where
  patterns := (hereditary_everywhere _).descends
  values := hereditary_true
  items _ := trivial
  shape {p} fit := by rw [unwrapHold_relabel, shape_relabel (isFitting_unwrapHold fit)]
  role := role_relabel
  hasHead {p} _ name := hasHead_relabel r p name
  flatten {p h as} fit form := by
    have parts : ∀ {a}, a ∈ (shape (unwrapHold p)).parts → a.everywhere (isFitting N) = true :=
      (hereditary_everywhere _).part fit
    rw [form] at parts
    exact flatten_relabel distinct (head_of_compound form) (parts (List.mem_cons_self ..))
      fun a member => parts (List.mem_cons_of_mem _ member)
  named {p v name inner b} fit form within _ := by
    obtain ⟨named, rfl⟩ := name_of_shape form
    exact bindName_carried distinct (name_of_isFitting (isFitting_unwrapHold fit) named) within v
  captured {p v name c n b} fit form within _ := by
    refine bindName_carried distinct (fun n given => ?_) within v
    rcases name_of_segment form with rfl | ⟨named, rfl⟩
    · cases given
    · exact name_of_isFitting (everywhere_here fit) named n given
  skipped {p q default b} fit form within := by
    have inner : q.everywhere (isFitting N) = true :=
      (hereditary_everywhere _).role fit (by simp [form, Role.parts])
    exact skipOptional_carried distinct (everywhere_here inner) within default
  -- A condition is told the names, so there are none, nor tests.
  checked fit form _ := by
    have other := (isFormed_excludes (isFormed_of_isFitting (isFitting_unwrapHold fit))).2.1
    rw [hasHead_of_shape.1 _ _ form] at other
    cases other
  tested fit form _ := by
    have other := (isFormed_excludes (isFormed_of_isFitting (isFitting_unwrapHold fit))).2.2
    rw [hasHead_of_shape.2 _ form] at other
    cases other

end Matching

mutual

theorem isFitting_of_introduced {N : List Symbol} : ∀ {v : Value}, v.everywhere isFormed = true →
    (∀ x ∈ introduced v, x ∈ N) → v.everywhere (isFitting N) = true
  | .expr h as t, formed, known => by
    obtain ⟨here, head, args⟩ := everywhere_expr.1 formed
    simp only [introduced, List.mem_append, Option.mem_toList] at known
    refine everywhere_expr.2 ⟨Bool.and_eq_true_iff.2 ⟨here, ?_⟩, ?_, ?_⟩
    · cases name : nameOf? (.expr h as t) with
      | none => rfl
      | some x => simpa using known x (.inl (.inl name))
    · exact isFitting_of_introduced head fun x inside => known x (.inl (.inr inside))
    · exact isFitting_of_introducedAll args fun x inside => known x (.inr inside)
  | .null, _, _ | .bool _, _, _ | .number _, _, _ | .text _, _, _ | .symbol _, _, _ | .tuple _, _, _ | .list _, _, _
  | .set _, _, _ | .table _, _, _ | .bindings _, _, _ => rfl

theorem isFitting_of_introducedAll {N : List Symbol} : ∀ {vs : List Value},
    (∀ v ∈ vs, v.everywhere isFormed = true) → (∀ x ∈ introducedAll vs, x ∈ N) →
      ∀ v ∈ vs, v.everywhere (isFitting N) = true
  | [], _, _ => nofun
  | v :: vs, formed, known => by
    obtain ⟨here, later⟩ := List.forall_mem_cons.1 formed
    refine List.forall_mem_cons.2 ⟨?_, ?_⟩
    · exact isFitting_of_introduced here fun x inside => known x (List.mem_append_left _ inside)
    · exact isFitting_of_introducedAll later fun x inside => known x (List.mem_append_right _ inside)

end

/-- Matching does not depend on the names in a pattern. Where the named patterns of a well-formed pattern
are given other names, different ones for different names, a match takes the same course and comes
to the same end, and what it finds has each value under the new name for the old one. -/
theorem match_relabel {σ : Type} (m : Settings σ) (attrs : Option SymbolSet) (p e : Value) (r : Symbol → Symbol)
    (formed : isWellFormed p = true)
    (distinct : ∀ x ∈ introduced p, ∀ y ∈ introduced p, r x = r y → x = y) :
    matchOne m attrs 0 (relabel r p) e .empty = Option.map (Bindings.relabel r) <$> matchOne m attrs 0 p e .empty ∧
    ∀ st b st', matchOne m attrs 0 p e .empty st = .ok (some b) st' →
      (∀ x v, b.get? x = some v → x ∈ introduced p) ∧
      ∀ y v, (b.relabel r).get? y = some v ↔ ∃ x, r x = y ∧ b.get? x = some v := by
  have fit : p.everywhere (isFitting (introduced p)) = true := isFitting_of_introduced formed fun _ inside => inside
  have carried := (transports_relabel distinct m).matching.1 attrs 0 p e .empty fit trivial nofun
  refine ⟨carried.same, fun st b st' run => ?_⟩
  have within : b.Within (introduced p) := carried.yields st _ st' run b rfl
  exact ⟨fun x v bound => within.mem bound, fun y v => Bindings.get_relabel_iff distinct within⟩

/-- The pattern `f[x_:3, (g[y_] | Except[a, x_]).., z__]`. -/
def threeNames : Value :=
  call "f" [call "Optional" [call "Pattern" [sym "x", call "Blank" []], int 3],
    call "Repeated" [call "Alternatives" [call "g" [call "Pattern" [sym "y", call "Blank" []]],
      call "Except" [sym "a", call "Pattern" [sym "x", call "Blank" []]]]],
    call "Pattern" [sym "z", call "BlankSequence" []]]

/-- Takes `x` for `y`, `y` for `z` and `z` for `x`. -/
def turnNames (s : Symbol) : Symbol :=
  if s = ⟨"x"⟩ then ⟨"y"⟩ else if s = ⟨"y"⟩ then ⟨"z"⟩ else if s = ⟨"z"⟩ then ⟨"x"⟩ else s

theorem match_relabel_threeNames :
    let m : Settings Unit := ⟨none, defaultDepth⟩
    let e := call "f" [int 7, call "g" [sym "u"], int 7, sym "v"]
    isWellFormed threeNames = true ∧ ∃ b, matchOne m none 0 threeNames e .empty () = .ok (some b) () ∧
      b.entries.length = 3 ∧ matchOne m none 0 (relabel turnNames threeNames) e .empty () = .ok (some (b.relabel turnNames)) () ∧
      ∀ y v, (b.relabel turnNames).get? y = some v ↔ ∃ x, turnNames x = y ∧ b.get? x = some v := by
  intro m e
  have formed : isWellFormed threeNames = true := by decide +kernel
  have found : Step.returns (fun r => r.any (·.entries.length == 3)) (matchOne m none 0 threeNames e .empty ()) = true := by
    decide +kernel
  obtain ⟨r, t, run, tested⟩ := Step.returns_iff.1 found
  obtain ⟨b, rfl, three⟩ : ∃ b, r = some b ∧ b.entries.length = 3 := by
    simpa [Option.any_eq_true] using tested
  have relabelled := match_relabel m none threeNames e turnNames formed (by decide +kernel)
  refine ⟨formed, b, run, three, ?_, (relabelled.2 () b t run).2⟩
  rw [relabelled.1]
  exact Step.bind_of_ok run

end Pattern
end Symbolic
