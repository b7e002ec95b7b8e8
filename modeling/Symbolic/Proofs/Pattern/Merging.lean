import Mathlib.Data.Finset.Card
import Symbolic.Pattern.Mapping
import Symbolic.Proofs.Pattern.Threading

/-!
Merging bindings. The bindings of both are joined if they agree, that is, if common names have equal values;
otherwise some name is in conflict (`merge_cases`). Joining is associative as it stands. Joined bindings
agree with others exactly if both parts do (`agree_join`), because equality of elements without a
NaN is an equivalence, and so merging is a partial operation that is commutative, associative and idempotent
(`merging_laws`).
-/
namespace Symbolic

open Value

namespace Value.Definite

variable {v w : Value}

theorem equal_symm (left : v.Definite) (right : w.Definite) (equal : v.equal w = true) : w.equal v = true :=
  equal_of_equal right.element right.free equal (equal_self left.free)

theorem differs_eq (left : v.Definite) (right : w.Definite) : v.differs w = !v.equal w := by
  have plain : v.isNative = true := everywhere_here left.element
  have plainToo : w.isNative = true := everywhere_here right.element
  unfold differs
  split
  · cases plain
  · cases plainToo
  · cases plain
  · cases plainToo
  · rfl

end Value.Definite

namespace Bindings

variable {b c d : Bindings} {es : List (Symbol × Value)} {x : Symbol} {v w : Value}

/-! ### Names -/

theorem lookup_of_mem {e : Symbol × Value} (sorted : es.Pairwise fun a b => a.1.Before b.1) (member : e ∈ es) :
    lookup e.1 es = some e.2 := by
  induction es with
  | nil => cases member
  | cons d es ih =>
    obtain ⟨first, rest⟩ := List.pairwise_cons.1 sorted
    rcases List.mem_cons.1 member with rfl | later
    · exact if_pos rfl
    · rw [lookup, if_neg (first e later).ne.symm, ih rest later]

theorem get_of_isEmpty (nothing : b.isEmpty = true) (x : Symbol) : b.get? x = none := by
  rw [get?, List.isEmpty_iff.1 nothing, lookup]

def names (b : Bindings) : Finset Symbol := (b.entries.map Prod.fst).toFinset

theorem mem_names : x ∈ b.names ↔ (b.get? x).isSome = true := by
  rw [names, List.mem_toFinset, List.mem_map, Option.isSome_iff_exists]
  constructor
  · rintro ⟨e, member, rfl⟩
    exact ⟨e.2, lookup_of_mem b.sorted member⟩
  · rintro ⟨v, found⟩
    exact ⟨(x, v), mem_of_lookup found, rfl⟩

theorem card_names (b : Bindings) : b.names.card = b.size := by
  have distinct : (b.entries.map Prod.fst).Nodup :=
    List.pairwise_map.2 (b.sorted.imp fun less => less.ne)
  rw [names, List.toFinset_card_of_nodup distinct, List.length_map, size]

theorem names_join (b c : Bindings) : (b.join c).names = b.names ∪ c.names := by
  ext x
  rw [Finset.mem_union, mem_names, mem_names, mem_names, get_join, Option.isSome_or, Bool.or_eq_true]

theorem equal_of_alike (alike : ∀ x, Option.Rel (fun v w => v.equal w = true) (b.get? x) (c.get? x)) :
    b.equal c = true := by
  have sameNames : b.names = c.names := by
    ext x
    rw [mem_names, mem_names]
    have related := alike x
    generalize b.get? x = here, c.get? x = there at related
    cases related with
    | some _ => exact Iff.rfl
    | none => exact Iff.rfl
  have sameSize : b.size = c.size := by rw [← card_names, ← card_names, sameNames]
  have sameEach : sameBindings b.entries c.entries = true := by
    refine sameBindings_iff.2 fun e member => ?_
    have related := alike e.1
    rw [show b.get? e.1 = some e.2 from lookup_of_mem b.sorted member] at related
    generalize found : c.get? e.1 = there at related
    cases related with
    | @some _ w equal => exact ⟨(e.1, w), mem_of_lookup found, rfl, same_of_equal equal⟩
  have whole : b.equal c = (b.size == c.size && sameBindings b.entries c.entries) := by
    simp only [Bindings.equal, Value.equal, number?, same, size]
  rw [whole, sameSize, sameEach, beq_self_eq_true, Bool.and_true]

/-! ### Merging -/

def Agree (b c : Bindings) : Prop :=
  ∀ x v w, b.get? x = some v → c.get? x = some w → v.equal w = true

/-- Entries are bound one after the other, until one is in conflict with the value that its name had at first: as each
name comes once, none is in conflict with another entry. -/
theorem bindAll_cases (sorted : es.Pairwise fun a b => a.1.Before b.1) (keys : ∀ e ∈ es, e.2.isKey = true)
    (b : Bindings) :
    ((∀ e ∈ es, ∀ v, b.get? e.1 = some v → v.equal e.2 = true) ∧
      b.bindAll (es.map fun e => (.symbol e.1, e.2)) = .ok (b.extend es)) ∨
    ∃ e ∈ es, ∃ v, b.get? e.1 = some v ∧ v.equal e.2 = false ∧
      b.bindAll (es.map fun e => (.symbol e.1, e.2)) = .error (conflict e.1 v e.2) := by
  induction es generalizing b with
  | nil => exact .inl ⟨by simp, rfl⟩
  | cons e es ih =>
    obtain ⟨first, rest⟩ := List.pairwise_cons.1 sorted
    obtain ⟨key, laterKeys⟩ := List.forall_mem_cons.1 keys
    by_cases agrees : ∀ v, b.get? e.1 = some v → v.equal e.2 = true
    · have step : b.bindValue (.symbol e.1) e.2 = .ok (b.extend [e]) := by
        cases before : b.get? e.1 with
        | some v => simp [bindValue, bind, extend, before, agrees v before]
        | none => simp [bindValue, bind, extend, before, key]
      have steps : b.bindAll ((e :: es).map fun e => (.symbol e.1, e.2)) =
          (b.extend [e]).bindAll (es.map fun e => (.symbol e.1, e.2)) := by
        rw [bindAll, List.map_cons, List.foldlM_cons, step]
        rfl
      have kept : ∀ f ∈ es, (b.extend [e]).get? f.1 = b.get? f.1 := by
        intro f member
        rw [get_extend_one, if_neg (first f member).ne.symm, Option.or_none]
      rw [steps]
      rcases ih rest laterKeys (b.extend [e]) with ⟨laterAgree, run⟩ | ⟨f, member, v, before, clash, run⟩
      · refine .inl ⟨List.forall_mem_cons.2 ⟨agrees, fun f member => ?_⟩, run⟩
        rw [← kept f member]
        exact laterAgree f member
      · rw [kept f member] at before
        exact .inr ⟨f, List.mem_cons_of_mem e member, v, before, clash, run⟩
    · simp only [not_forall, Bool.not_eq_true] at agrees
      obtain ⟨v, before, clash⟩ := agrees
      have step : b.bindValue (.symbol e.1) e.2 = .error (conflict e.1 v e.2) := by
        simp [bindValue, bind, before, clash]
      refine .inr ⟨e, List.mem_cons_self .., v, before, clash, ?_⟩
      rw [bindAll, List.map_cons, List.foldlM_cons, step]
      rfl

/-- Bindings that agree are joined. Otherwise the merger fails over a name that has unequal values. -/
theorem merge_cases (keys : ∀ x v, c.get? x = some v → v.isKey = true) (b : Bindings) :
    (b.Agree c ∧ b.merge c = .ok (b.join c)) ∨
    ∃ x v w, b.get? x = some v ∧ c.get? x = some w ∧ v.equal w = false ∧ b.merge c = .error (conflict x v w) := by
  rw [merge]
  by_cases right : c.isEmpty = true
  · have same : b.join c = b := ext_get fun x => by rw [get_join, get_of_isEmpty right, Option.or_none]
    rw [if_pos right, same]
    refine .inl ⟨fun x v w _ there => ?_, rfl⟩
    rw [get_of_isEmpty right] at there
    cases there
  by_cases left : b.isEmpty = true
  · have same : b.join c = c := ext_get fun x => by rw [get_join, get_of_isEmpty left, Option.none_or]
    rw [if_neg right, if_pos left, same]
    refine .inl ⟨fun x v w here => ?_, rfl⟩
    rw [get_of_isEmpty left] at here
    cases here
  rw [if_neg right, if_neg left]
  have found : ∀ e ∈ c.entries, c.get? e.1 = some e.2 := fun e member => lookup_of_mem c.sorted member
  have entryKeys : ∀ e ∈ c.entries, e.2.isKey = true := fun e member => keys e.1 e.2 (found e member)
  rcases bindAll_cases c.sorted entryKeys b with ⟨agree, run⟩ | ⟨e, member, v, before, clash, run⟩
  · exact .inl ⟨fun x v w here there => agree (x, w) (mem_of_lookup there) v here, run⟩
  · exact .inr ⟨e.1, v, e.2, before, found e member, clash, run⟩

theorem get_foldl_insert (sorted : es.Pairwise fun a b => a.1.Before b.1) (b : Bindings) (x : Symbol) :
    (es.foldl (fun b e => b.insert e.1 e.2) b).get? x = (lookup x es).or (b.get? x) := by
  induction es generalizing b with
  | nil => rfl
  | cons e es ih =>
    obtain ⟨first, rest⟩ := List.pairwise_cons.1 sorted
    rw [List.foldl_cons, ih rest, get_insert, lookup]
    by_cases same : x = e.1
    · rw [if_pos same, if_pos same, same, lookup_eq_none first, Option.none_or, Option.some_or]
    · rw [if_neg same, if_neg same]

theorem ofEntries_entries (b : Bindings) : ofEntries b.entries = b := by
  apply ext_get
  intro x
  rw [ofEntries, get_foldl_insert b.sorted]
  exact Option.or_none

theorem filterMap_pairs (b : Bindings) :
    (b.pairs.filterMap fun e => e.1.symbol?.map (·, e.2)) = b.entries := by
  rw [pairs, List.filterMap_map]
  exact List.filterMap_some

theorem entriesOf_toValue (c : Bindings) : entriesOf c.toValue = .ok c.pairs := by
  rw [toValue, entriesOf, ofEntries_entries]

theorem mergeWith_toValue (b c : Bindings) : b.mergeWith c.toValue = toValue <$> b.merge c := by
  have truthy : c.toValue.isTruthy = !c.isEmpty := rfl
  rw [mergeWith, merge, truthy, Bool.not_not, entriesOf_toValue]
  by_cases right : c.isEmpty = true
  · rw [if_pos right, if_pos right]
    rfl
  by_cases left : b.isEmpty = true
  · rw [if_neg right, if_neg right, if_pos left, if_pos left]
    rfl
  · rw [if_neg right, if_neg right, if_neg left, if_neg left]
    rfl

theorem mergeWith_join (keys : ∀ x v, c.get? x = some v → v.isKey = true)
    (disjoint : ∀ x, (c.get? x).isSome = true → b.get? x = none) :
    b.mergeWith c.toValue = .ok (b.join c).toValue := by
  rcases merge_cases keys b with ⟨_, run⟩ | ⟨x, v, w, here, there, _⟩
  · rw [mergeWith_toValue, run]
    rfl
  · rw [disjoint x (by rw [there]; rfl)] at here
    cases here

/-! ### The laws -/

/-- Every name has an element without a NaN. -/
def Definite (b : Bindings) : Prop := ∀ x v, b.get? x = some v → v.Definite

theorem Definite.join (first : b.Definite) (second : c.Definite) : (b.join c).Definite := by
  intro x v found
  rw [get_join, Option.or_eq_some_iff] at found
  rcases found with here | ⟨_, there⟩
  · exact first x v here
  · exact second x v there

theorem Definite.isKey (definite : b.Definite) : ∀ x v, b.get? x = some v → v.isKey = true :=
  fun x v found => isKey_of_isElement (definite x v found).element

theorem Definite.agree_symm (first : b.Definite) (second : c.Definite) (agree : b.Agree c) : c.Agree b :=
  fun x v w there here => (first x w here).equal_symm (second x v there) (agree x w v here there)

theorem Definite.agree_self (definite : b.Definite) : b.Agree b := by
  intro x v w here there
  obtain rfl : v = w := Option.some.inj (here.symm.trans there)
  exact equal_self (definite x v here).free

theorem Definite.isCompatible_iff (first : b.Definite) (second : c.Definite) : b.isCompatible c = true ↔ b.Agree c := by
  rw [isCompatible, List.all_eq_true]
  constructor
  · intro each x v w here there
    have holds := each (x, w) (mem_of_lookup there)
    simp only [here, (first x v here).differs_eq (second x w there), Bool.not_not] at holds
    exact holds
  · intro agree e member
    have there : c.get? e.1 = some e.2 := lookup_of_mem c.sorted member
    cases here : b.get? e.1 with
    | none => rfl
    | some v =>
      simp only [(first e.1 v here).differs_eq (second e.1 e.2 there), Bool.not_not]
      exact agree e.1 v e.2 here there

theorem isCompatibleWith_toValue (b c : Bindings) : b.isCompatibleWith c.toValue = .ok (b.isCompatible c) := by
  rw [isCompatibleWith, entriesOf_toValue, isCompatible, pairs]
  exact congrArg Except.ok List.all_map

/-- Bindings that agree with each other agree, joined, with what both of them agree with. -/
theorem Definite.agree_join (definite : c.Definite) (agree : b.Agree c) :
    (b.join c).Agree d ↔ b.Agree d ∧ c.Agree d := by
  constructor
  · intro joined
    constructor
    · intro x v w here there
      exact joined x v w (by rw [get_join, here]; rfl) there
    · intro x v w here there
      -- The name may have its value from the first bindings; that is equal to the one from the second.
      cases before : b.get? x with
      | none => exact joined x v w (by rw [get_join, before, here]; rfl) there
      | some u =>
        have same : u.equal v = true := agree x u v before here
        have sameToo : u.equal w = true := joined x u w (by rw [get_join, before]; rfl) there
        exact equal_of_equal (definite x v here).element (definite x v here).free same sameToo
  · rintro ⟨left, right⟩ x v w here there
    rw [get_join, Option.or_eq_some_iff] at here
    rcases here with before | ⟨_, later⟩
    · exact left x v w before there
    · exact right x v w later there

theorem join_assoc (b c d : Bindings) : (b.join c).join d = b.join (c.join d) :=
  ext_get fun x => by rw [get_join, get_join, get_join, get_join, Option.or_assoc]

theorem join_self (b : Bindings) : b.join b = b := ext_get fun x => by rw [get_join, Option.or_self]

/-- Joined in the other order, bindings that agree are equal to these. -/
theorem Definite.join_comm (first : b.Definite) (second : c.Definite) (agree : b.Agree c) :
    (b.join c).equal (c.join b) = true := by
  refine equal_of_alike fun x => ?_
  rw [get_join, get_join]
  cases here : b.get? x with
  | none =>
    cases there : c.get? x with
    | none => exact .none
    | some w => exact .some (equal_self (second x w there).free)
  | some v =>
    cases there : c.get? x with
    | none => exact .some (equal_self (first x v here).free)
    | some w => exact .some (agree x v w here there)

/-- A name has a value in joined bindings that is equal to those it has in the parts. -/
theorem Definite.get_join_equal (first : b.Definite) (second : c.Definite) (agree : b.Agree c)
    (found : b.get? x = some v ∨ c.get? x = some v) : ∃ w, (b.join c).get? x = some w ∧ w.equal v = true := by
  rw [get_join]
  cases here : b.get? x with
  | some u =>
    refine ⟨u, rfl, ?_⟩
    rcases found with before | there
    · exact first.agree_self x u v here before
    · exact agree x u v here there
  | none =>
    rcases found with before | there
    · rw [here] at before
      cases before
    · exact ⟨v, there, equal_self (second x v there).free⟩

theorem Definite.merge_ok {m : Bindings} (definite : c.Definite) : b.merge c = .ok m ↔ b.Agree c ∧ m = b.join c := by
  rcases merge_cases definite.isKey b with ⟨agree, run⟩ | ⟨x, v, w, here, there, clash, run⟩
  · rw [run, Except.ok.injEq]
    exact ⟨fun same => ⟨agree, same.symm⟩, fun both => both.2.symm⟩
  · rw [run]
    constructor
    · intro wrong
      cases wrong
    · rintro ⟨agree, _⟩
      rw [agree x v w here there] at clash
      cases clash

/-- Three bindings can be merged, in either way, if any two of them agree, and then all are joined. -/
theorem Definite.merge_left {m : Bindings} (second : c.Definite) (third : d.Definite) :
    (b.merge c >>= (·.merge d)) = .ok m ↔ (b.Agree c ∧ b.Agree d ∧ c.Agree d) ∧ m = b.join (c.join d) := by
  rw [← join_assoc]
  constructor
  · intro run
    obtain ⟨n, inner, run⟩ := Except.bind_ok run
    obtain ⟨agree, rfl⟩ := second.merge_ok.1 inner
    obtain ⟨both, rfl⟩ := third.merge_ok.1 run
    exact ⟨⟨agree, (second.agree_join agree).1 both⟩, rfl⟩
  · rintro ⟨⟨agree, both⟩, rfl⟩
    rw [second.merge_ok.2 ⟨agree, rfl⟩]
    exact third.merge_ok.2 ⟨(second.agree_join agree).2 both, rfl⟩

theorem Definite.merge_right {m : Bindings} (first : b.Definite) (second : c.Definite) (third : d.Definite) :
    (c.merge d >>= b.merge) = .ok m ↔ (b.Agree c ∧ b.Agree d ∧ c.Agree d) ∧ m = b.join (c.join d) := by
  -- Agreement is symmetric, so what agrees with joined bindings agrees with both parts.
  have both (agree : c.Agree d) : b.Agree (c.join d) ↔ b.Agree c ∧ b.Agree d := by
    constructor
    · intro joined
      have parts := (third.agree_join agree).1 (first.agree_symm (second.join third) joined)
      exact ⟨second.agree_symm first parts.1, third.agree_symm first parts.2⟩
    · rintro ⟨left, right⟩
      refine (second.join third).agree_symm first ((third.agree_join agree).2 ?_)
      exact ⟨first.agree_symm second left, first.agree_symm third right⟩
  constructor
  · intro run
    obtain ⟨n, inner, run⟩ := Except.bind_ok run
    obtain ⟨agree, rfl⟩ := third.merge_ok.1 inner
    obtain ⟨joined, rfl⟩ := (second.join third).merge_ok.1 run
    obtain ⟨left, right⟩ := (both agree).1 joined
    exact ⟨⟨left, right, agree⟩, rfl⟩
  · rintro ⟨⟨left, right, agree⟩, rfl⟩
    rw [third.merge_ok.2 ⟨agree, rfl⟩]
    exact (second.join third).merge_ok.2 ⟨(both agree).2 ⟨left, right⟩, rfl⟩

theorem get_unbind (b : Bindings) (x y : Symbol) : (b.unbind x).get? y = if y = x then none else b.get? y := by
  obtain ⟨es, sorted⟩ := b
  show lookup y (es.filter fun e => e.1 != x) = if y = x then none else lookup y es
  clear sorted
  induction es with
  | nil => simp [lookup]
  | cons e es ih =>
    by_cases dropped : e.1 = x
    · by_cases same : y = x
      · simpa [dropped, same, lookup] using ih
      · simpa [dropped, same, lookup] using ih
    · by_cases same : y = e.1
      · simp [dropped, same, lookup]
      · simpa [dropped, same, lookup] using ih

theorem unbind_bind (free : b.get? x = none) (key : v.isKey = true) : ∃ m, b.bind x v = .ok m ∧ m.unbind x = b := by
  refine ⟨b.insert x v, by simp [bind, free, key], ext_get fun y => ?_⟩
  rw [get_unbind, get_insert]
  by_cases same : y = x
  · rw [if_pos same, same, free]
  · rw [if_neg same, if_neg same]

/-- Merging is a partial operation on bindings of elements without a NaN. It is defined for those whose common names
have equal values, which is what compatibility means; otherwise there is a name with unequal values, and the merger fails
over it, with a conflict if these values have a text. What it gives does not depend, up to equality, on the order, or
on how three are merged. Each name of either has a value there that is equal to its values in both. -/
theorem merging_laws (first : b.Definite) (second : c.Definite) (third : d.Definite) :
    (b.isCompatible c = true ↔ ∀ x v w, b.get? x = some v → c.get? x = some w → v.equal w = true) ∧
    b.isCompatible c = c.isCompatible b ∧
    (b.isCompatible c = false → ∃ x v w, b.get? x = some v ∧ c.get? x = some w ∧ v.equal w = false ∧
      b.merge c = .error (if v.isWritable && w.isWritable then .bindingConflict x v w else .malformed)) ∧
    (b.isCompatible c = true → ∃ m n, b.merge c = .ok m ∧ c.merge b = .ok n ∧ m.equal n = true ∧
      m.names = b.names ∪ c.names ∧ m.size = (b.names ∪ c.names).card ∧
      ∀ x v, b.get? x = some v ∨ c.get? x = some v → ∃ w, m.get? x = some w ∧ w.equal v = true) ∧
    b.merge b = .ok b ∧ b.merge .empty = .ok b ∧ empty.merge b = .ok b ∧
    (∀ m, (b.merge c >>= (·.merge d)) = .ok m ↔ (c.merge d >>= b.merge) = .ok m) ∧
    (∀ x v, b.get? x = none → v.isElement = true → ∃ m, b.bind x v = .ok m ∧ m.unbind x = b) ∧
    b.mergeWith c.toValue = toValue <$> b.merge c ∧ b.isCompatibleWith c.toValue = .ok (b.isCompatible c) := by
  have compatible := first.isCompatible_iff second
  refine ⟨compatible, ?_, ?_, ?_, ?_, rfl, ?_, ?_, ?_, mergeWith_toValue b c, isCompatibleWith_toValue b c⟩
  · rw [Bool.eq_iff_iff, compatible, second.isCompatible_iff first]
    exact ⟨first.agree_symm second, second.agree_symm first⟩
  · intro apart
    rcases merge_cases second.isKey b with ⟨agree, _⟩ | clash
    · rw [compatible.2 agree] at apart
      cases apart
    · exact clash
  · intro holds
    have agree := compatible.1 holds
    refine ⟨b.join c, c.join b, second.merge_ok.2 ⟨agree, rfl⟩,
      first.merge_ok.2 ⟨first.agree_symm second agree, rfl⟩, first.join_comm second agree, names_join b c, ?_, ?_⟩
    · rw [← card_names, names_join]
    · exact fun x v found => first.get_join_equal second agree found
  · exact first.merge_ok.2 ⟨first.agree_self, (join_self b).symm⟩
  · have same : empty.join b = b := ext_get fun x => by rw [get_join, get_of_isEmpty rfl, Option.none_or]
    refine first.merge_ok.2 ⟨fun x v w nothing => ?_, same.symm⟩
    rw [get_of_isEmpty rfl] at nothing
    cases nothing
  · intro m
    rw [second.merge_left third, first.merge_right second third]
  · exact fun x v free element => unbind_bind free (isKey_of_isElement element)

theorem definite_of_entries (each : (b.entries.all fun e => e.2.isElement && e.2.isNaNFree) = true) : b.Definite := by
  intro x v found
  have both := List.all_eq_true.1 each (x, v) (mem_of_lookup found)
  obtain ⟨element, free⟩ := Bool.and_eq_true_iff.1 both
  exact ⟨element, free⟩

/-- An integer and an expression, then the same two with real numbers for integers, and another integer. -/
def integers : Bindings := ofEntries [(⟨"x"⟩, int 1), (⟨"y"⟩, call "f" [int 2])]

def reals : Bindings := ofEntries [(⟨"y"⟩, call "f" [real 2.0]), (⟨"z"⟩, real 1.0)]

def another : Bindings := ofEntries [(⟨"y"⟩, int 3)]

theorem merging_laws_mixed :
    integers.Definite ∧ reals.Definite ∧ another.Definite ∧ integers.isCompatible reals = true ∧
      (∃ m n, integers.merge reals = .ok m ∧ reals.merge integers = .ok n ∧ m.equal n = true ∧
        m.names = integers.names ∪ reals.names ∧ m.size = (integers.names ∪ reals.names).card ∧
        ∀ x v, integers.get? x = some v ∨ reals.get? x = some v → ∃ w, m.get? x = some w ∧ w.equal v = true) ∧
      ∀ m, (integers.merge reals >>= (·.merge another)) = .ok m ↔ (reals.merge another >>= integers.merge) = .ok m := by
  have first : integers.Definite := definite_of_entries (by decide +kernel)
  have second : reals.Definite := definite_of_entries (by decide +kernel)
  have third : another.Definite := definite_of_entries (by decide +kernel)
  have compatible : integers.isCompatible reals = true := by decide +kernel
  obtain ⟨-, -, -, merged, -, -, -, regrouped, -⟩ := merging_laws first second third
  exact ⟨first, second, third, compatible, merged compatible, regrouped⟩

/-- One name, bound to an integer of more digits than are written. -/
def lengthy : Bindings := empty.insert ⟨"x"⟩ (int (Nat.pow 10 5000))

/-- These bindings are incompatible with others of the name, but merging them fails for another reason: the conflict
cannot be put into words. -/
theorem conflict_without_text : lengthy.isCompatible integers = false ∧ lengthy.merge integers = .error .malformed := by
  have first : lengthy.Definite := definite_of_entries (by decide +kernel)
  have second : integers.Definite := definite_of_entries (by decide +kernel)
  have apart : lengthy.isCompatible integers = false := by decide +kernel
  refine ⟨apart, ?_⟩
  rcases merge_cases second.isKey lengthy with ⟨agree, _⟩ | ⟨x, v, w, here, _, _, run⟩
  · rw [(first.isCompatible_iff second).2 agree] at apart
    cases apart
  · -- Whichever name it is, the first of the two values is the long one.
    have value : int (Nat.pow 10 5000) = v := by
      rw [lengthy, get_insert] at here
      split at here
      · exact Option.some.inj here
      · cases here
    have unwritable : v.isWritable = false := by
      rw [← value]
      decide +kernel
    rw [run, conflict, unwritable, Bool.false_and]
    rfl

end Bindings
end Symbolic
