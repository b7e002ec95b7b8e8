import Symbolic.Value.Expression
import Symbolic.Value.Notation

/-!
Elements are the values of the language: atoms, symbols, and expressions of elements. An
element without a NaN in it is equal to itself, two elements that a value is equal to
are equal to each other, and so are two values that are equal to an element. Equality of
elements made of integers, symbols and expressions is identity.
-/
namespace Symbolic.Value

/-- To show something of all values, it is enough to show it of expressions if it holds of their heads and of
their arguments, of symbols, and of what is neither. -/
@[elab_as_elim]
theorem byParts {motive : Value → Prop}
    (expr : ∀ h as t, motive h → (∀ a ∈ as, motive a) → motive (.expr h as t))
    (symbol : ∀ x, motive (.symbol x)) (other : ∀ v, v.canHead = false → motive v) (v : Value) : motive v := by
  cases v with
  | expr h as t =>
    exact expr h as t (byParts expr symbol other h) fun a _ => byParts expr symbol other a
  | symbol x => exact symbol x
  | _ => exact other _ rfl
termination_by sizeOf v
decreasing_by
  · simp
    omega
  · have := List.sizeOf_lt_of_mem ‹a ∈ as›
    simp
    omega

mutual

/-- Whether a property holds of a value and of all heads and arguments inside it. -/
def everywhere (P : Value → Bool) : Value → Bool
  | .expr h as t => P (.expr h as t) && everywhere P h && everywhereAll P as
  | v => P v

def everywhereAll (P : Value → Bool) : List Value → Bool
  | [] => true
  | x :: xs => everywhere P x && everywhereAll P xs

end

variable {P : Value → Bool}

theorem everywhereAll_iff {xs : List Value} :
    everywhereAll P xs = true ↔ ∀ x ∈ xs, everywhere P x = true := by
  induction xs with
  | nil => simp [everywhereAll]
  | cons x xs ih => simp [everywhereAll, ih]

theorem everywhere_expr {h : Value} {as : List Value} {t : SymbolSet} :
    everywhere P (.expr h as t) = true ↔
      P (.expr h as t) = true ∧ everywhere P h = true ∧ ∀ a ∈ as, everywhere P a = true := by
  simp only [everywhere, Bool.and_eq_true, everywhereAll_iff, and_assoc]

theorem everywhere_here {v : Value} (holds : everywhere P v = true) : P v = true := by
  cases v with
  | expr h as t => exact (everywhere_expr.1 holds).1
  | _ => exact holds

theorem everywhere_mono {Q : Value → Bool} (implies : ∀ v, P v = true → Q v = true) :
    ∀ {v : Value}, everywhere P v = true → everywhere Q v = true
  | .expr h as t, holds => by
    obtain ⟨here, head, args⟩ := everywhere_expr.1 holds
    exact everywhere_expr.2 ⟨implies _ here, everywhere_mono implies head,
      fun x member => everywhere_mono implies (args x member)⟩
  | .null, holds | .bool _, holds | .number _, holds | .text _, holds | .symbol _, holds
  | .tuple _, holds | .list _, holds | .set _, holds | .table _, holds | .bindings _, holds =>
    implies _ holds
termination_by v => sizeOf v
decreasing_by
  · simp
    omega
  · have := List.sizeOf_lt_of_mem member
    simp
    omega

/-- Whether a value is no foreign data, and can be built if it is an expression. -/
def isNative : Value → Bool
  | .tuple _ | .list _ | .set _ | .table _ | .bindings _ => false
  | .expr h _ _ => h.canHead
  | _ => true

/-- Whether a value is an atom, a symbol, or an expression of such values. -/
def isElement (v : Value) : Bool := v.everywhere isNative

def isNaN : Value → Bool
  | .number n => n.hasNaN
  | _ => false

def isNaNFree (v : Value) : Bool := v.everywhere (!·.isNaN)

theorem sameItems_of_refl {xs : List Value} (each : ∀ x ∈ xs, x.same x = true) : sameItems xs xs = true := by
  induction xs with
  | nil => simp [sameItems]
  | cons x xs ih => simp [sameItems, each x (by simp), ih fun y member => each y (by simp [member])]

theorem sameMembers_iff {xs ys : List Value} :
    sameMembers xs ys = true ↔ ∀ x ∈ xs, ∃ y ∈ ys, x.same y = true := by
  induction xs with
  | nil => simp [sameMembers]
  | cons x xs ih => simp [sameMembers, ih]

theorem sameEntries_iff {es fs : List (Value × Value)} :
    sameEntries es fs = true ↔ ∀ e ∈ es, ∃ f ∈ fs, e.1.same f.1 = true ∧ e.2.same f.2 = true := by
  induction es with
  | nil => simp [sameEntries]
  | cons e es ih =>
    obtain ⟨k, v⟩ := e
    simp only [sameEntries, Bool.and_eq_true, List.any_eq_true, ih, List.forall_mem_cons]

theorem sameBindings_iff {es fs : List (Symbol × Value)} :
    sameBindings es fs = true ↔ ∀ e ∈ es, ∃ f ∈ fs, e.1 = f.1 ∧ e.2.same f.2 = true := by
  induction es with
  | nil => simp [sameBindings]
  | cons e es ih =>
    obtain ⟨x, v⟩ := e
    simp only [sameBindings, Bool.and_eq_true, List.any_eq_true, beq_iff_eq, ih, List.forall_mem_cons]

mutual

theorem same_refl : ∀ v : Value, v.same v = true
  | .null => by simp [same]
  | .bool _ | .number _ => by simp [same, number?, Number.same]
  | .text _ | .symbol _ => by simp [same]
  | .expr h as t => by simp [same, same_refl h, sameItems_of_refl (refl_items as)]
  | .tuple xs | .list xs => by simp [same, sameItems_of_refl (refl_items xs)]
  | .set xs => by
    simp only [same, beq_self_eq_true, Bool.true_and, sameMembers_iff]
    exact fun x member => ⟨x, member, refl_items xs x member⟩
  | .table es => by
    simp only [same, beq_self_eq_true, Bool.true_and, sameEntries_iff]
    exact fun e member => ⟨e, member, refl_entries es e member⟩
  | .bindings es => by
    simp only [same, beq_self_eq_true, Bool.true_and, sameBindings_iff]
    exact fun e member => ⟨e, member, rfl, refl_bindings es e member⟩

theorem refl_items : ∀ (xs : List Value), ∀ x ∈ xs, x.same x = true
  | [] => by simp
  | x :: xs => List.forall_mem_cons.2 ⟨same_refl x, refl_items xs⟩

theorem refl_entries : ∀ (es : List (Value × Value)), ∀ e ∈ es, e.1.same e.1 = true ∧ e.2.same e.2 = true
  | [] => by simp
  | (k, v) :: es => List.forall_mem_cons.2 ⟨⟨same_refl k, same_refl v⟩, refl_entries es⟩

theorem refl_bindings : ∀ (es : List (Symbol × Value)), ∀ e ∈ es, e.2.same e.2 = true
  | [] => by simp
  | (_, v) :: es => List.forall_mem_cons.2 ⟨same_refl v, refl_bindings es⟩

end

/-- A truth value or a number is the same as what stands for the same thing. -/
theorem same_iff_of_number {v w : Value} {m : Number} (numeric : v.number? = some m) :
    v.same w = true ↔ ∃ n, w.number? = some n ∧ m.same n = true := by
  cases v with
  | bool b =>
    cases numeric
    cases found : w.number? <;> simp [same, found]
  | number n =>
    cases numeric
    cases found : w.number? <;> simp [same, found]
  | _ => cases numeric

theorem same_symbol_iff {v : Value} {x : Symbol} : v.same (.symbol x) = true ↔ v = .symbol x := by
  cases v with
  | symbol y => simp [same]
  | _ => simp [same, number?]

theorem symbol_same_iff {v : Value} {x : Symbol} : (Value.symbol x).same v = true ↔ v = .symbol x := by
  cases v with
  | symbol y => rw [same, beq_iff_eq, symbol.injEq, eq_comm]
  | _ => simp [same]

theorem same_expr {v h : Value} {es : List Value} {t : SymbolSet} (same : v.same (.expr h es t) = true) :
    ∃ k as, v = .expr k as t ∧ k.same h = true ∧ sameItems as es = true := by
  cases v with
  | expr k as u =>
    simp only [Value.same, Bool.and_eq_true, beq_iff_eq] at same
    obtain ⟨⟨head, args⟩, rfl⟩ := same
    exact ⟨k, as, rfl, head, args⟩
  | _ => simp [Value.same, number?] at same

theorem argsOf?_of_hasHead {v : Value} {name : String} (other : v.hasHead name = false) : v.argsOf? name = none := by
  unfold hasHead at other
  unfold argsOf?
  split <;> simp_all

theorem argsOf?_iff_of_same {v w : Value} {name : String} (same : v.same w = true) :
    v.argsOf? name = none ↔ w.argsOf? name = none := by
  cases v with
  | expr k as t =>
    cases w with
    | expr h es u =>
      obtain ⟨k, as, ⟨⟩, head, -⟩ := same_expr same
      cases h with
      | symbol s =>
        rw [same_symbol_iff.1 head]
        simp [argsOf?]
      | _ =>
        cases k with
        | symbol s => simp [Value.same] at head
        | _ => exact Iff.rfl
    | _ => simp [Value.same] at same
  | _ =>
    cases w with
    | expr h es u =>
      obtain ⟨_, _, ⟨⟩, _⟩ := same_expr same
    | _ => exact Iff.rfl

theorem canHead_of_same {v w : Value} (same : v.same w = true) (callable : w.canHead = true) : v.canHead = true := by
  cases w with
  | symbol s => rw [same_symbol_iff.1 same]; rfl
  | expr h es t =>
    obtain ⟨k, as, rfl, _⟩ := same_expr same
    rfl
  | _ => cases callable

theorem same_of_equal {v w : Value} (equal : v.equal w = true) : v.same w = true := by
  unfold Value.equal at equal
  split at equal
  · next m n left right => exact (same_iff_of_number left).2 ⟨n, right, (Bool.and_eq_true_iff.1 equal).1⟩
  · exact equal

theorem equal_of_same {v w : Value} (free : v.isNaNFree = true) (same : v.same w = true) : v.equal w = true := by
  unfold Value.equal
  split
  · next m n left right =>
    obtain ⟨k, found, same⟩ := (same_iff_of_number left).1 same
    rw [right] at found
    cases found
    have definite : m.hasNaN = false := by
      cases v with
      | number k =>
        cases left
        simpa [isNaN] using everywhere_here free
      | bool b =>
        cases left
        rfl
      | _ => cases left
    rw [Number.equal, same, definite]
    rfl
  · exact same

theorem equal_self {v : Value} (free : v.isNaNFree = true) : v.equal v = true :=
  equal_of_same free (same_refl v)

theorem differs_self {v : Value} (callable : v.canHead = true) : v.differs v = false := by
  cases v with
  | symbol x => simp [differs, equal, number?, same_refl]
  | expr h as t => simp [differs, equal, number?, same_refl]
  | _ => cases callable

mutual

/-- Two values that a third one is the same as are the same, if the first is an element. -/
theorem same_of_same {u v w : Value} (element : v.isElement = true) (left : u.same v = true)
    (right : u.same w = true) : v.same w = true := by
  cases numeric : u.number? with
  | some k =>
    obtain ⟨m, here, first⟩ := (same_iff_of_number numeric).1 left
    obtain ⟨n, there, second⟩ := (same_iff_of_number numeric).1 right
    refine (same_iff_of_number here).2 ⟨n, there, Number.same_iff.2 ?_⟩
    exact (Number.same_iff.1 first).symm.trans (Number.same_iff.1 second)
  | none =>
    cases u with
    | bool _ | number _ => cases numeric
    | null =>
      cases v with
      | null => exact right
      | _ => simp [same] at left
    | text a =>
      cases v with
      | text b =>
        obtain rfl : a = b := by simpa [same] using left
        exact right
      | _ => simp [same] at left
    | symbol a =>
      cases v with
      | symbol b =>
        obtain rfl : a = b := by simpa [same] using left
        exact right
      | _ => simp [same] at left
    | expr h as t =>
      cases v with
      | expr k bs x =>
        cases w with
        | expr j cs y =>
          simp only [same, Bool.and_eq_true, beq_iff_eq] at left right ⊢
          obtain ⟨_, head, args⟩ := everywhere_expr.1 element
          exact ⟨⟨same_of_same head left.1.1 right.1.1, sameItems_of_same args left.1.2 right.1.2⟩,
            left.2.symm.trans right.2⟩
        | _ => simp [same] at right
      | _ => simp [same] at left
    | tuple _ | list _ | set _ | table _ | bindings _ =>
      cases v <;> simp [same, isElement, everywhere, isNative] at left element

theorem sameItems_of_same {us vs ws : List Value} (elements : ∀ v ∈ vs, v.isElement = true)
    (left : sameItems us vs = true) (right : sameItems us ws = true) : sameItems vs ws = true := by
  cases us with
  | nil =>
    cases vs with
    | nil => exact right
    | cons v vs => simp [sameItems] at left
  | cons u us =>
    cases vs with
    | nil => simp [sameItems] at left
    | cons v vs =>
      cases ws with
      | nil => simp [sameItems] at right
      | cons w ws =>
        simp only [sameItems, Bool.and_eq_true] at left right ⊢
        exact ⟨same_of_same (elements v (by simp)) left.1 right.1,
          sameItems_of_same (fun x member => elements x (by simp [member])) left.2 right.2⟩

end

mutual

theorem same_symm {v w : Value} (element : w.isElement = true) (same : v.same w = true) :
    w.same v = true ∧ v.isElement = true := by
  cases w with
  | expr k bs t =>
    obtain ⟨h, as, rfl, head, args⟩ := same_expr same
    obtain ⟨callable, headElement, argElements⟩ := everywhere_expr.1 element
    obtain ⟨headToo, isElement⟩ := same_symm headElement head
    obtain ⟨argsToo, areElements⟩ := sameItems_symm argElements args
    refine ⟨by simp [Value.same, headToo, argsToo], ?_⟩
    exact everywhere_expr.2 ⟨canHead_of_same head callable, isElement, areElements⟩
  | symbol x =>
    cases same_symbol_iff.1 same
    exact ⟨same, rfl⟩
  | null =>
    cases v with
    | null => exact ⟨same, rfl⟩
    | _ => simp [Value.same, number?] at same
  | text a =>
    cases v with
    | text b =>
      obtain rfl : b = a := by simpa [Value.same] using same
      exact ⟨same, rfl⟩
    | _ => simp [Value.same, number?] at same
  | bool _ | number _ =>
    cases v with
    | bool _ | number _ =>
      refine ⟨(same_iff_of_number rfl).2 ⟨_, rfl, Number.same_iff.2 ?_⟩, rfl⟩
      obtain ⟨_, there, alike⟩ := (same_iff_of_number rfl).1 same
      cases there
      exact (Number.same_iff.1 alike).symm
    | _ => simp [Value.same] at same
  | tuple _ | list _ | set _ | table _ | bindings _ => cases element

theorem sameItems_symm {vs ws : List Value} (elements : ∀ w ∈ ws, w.isElement = true)
    (same : sameItems vs ws = true) : sameItems ws vs = true ∧ ∀ v ∈ vs, v.isElement = true := by
  cases ws with
  | nil =>
    cases vs with
    | nil => exact ⟨same, by simp⟩
    | cons v vs => simp [sameItems] at same
  | cons w ws =>
    cases vs with
    | nil => simp [sameItems] at same
    | cons v vs =>
      simp only [sameItems, Bool.and_eq_true, List.forall_mem_cons] at same elements ⊢
      obtain ⟨here, element⟩ := same_symm elements.1 same.1
      obtain ⟨later, elementsToo⟩ := sameItems_symm elements.2 same.2
      exact ⟨⟨here, later⟩, element, elementsToo⟩

end

theorem equal_of_equal {u v w : Value} (element : v.isElement = true) (free : v.isNaNFree = true)
    (left : u.equal v = true) (right : u.equal w = true) : v.equal w = true :=
  equal_of_same free (same_of_same element (same_of_equal left) (same_of_equal right))

theorem equal_of_both_equal {u v w : Value} (element : w.isElement = true) (left : u.equal w = true)
    (right : v.equal w = true) : u.equal v = true := by
  have whole := same_of_equal left
  obtain ⟨first, isElement⟩ := same_symm element whole
  have same : u.same v = true := same_of_same isElement first (same_symm element (same_of_equal right)).1
  unfold Value.equal at left ⊢
  split
  · next m k numeric numericToo =>
    obtain ⟨n, there, _⟩ := (same_iff_of_number numeric).1 whole
    rw [numeric, there] at left
    obtain ⟨_, found, alike⟩ := (same_iff_of_number numeric).1 same
    cases numericToo.symm.trans found
    exact Bool.and_eq_true_iff.2 ⟨alike, (Bool.and_eq_true_iff.1 left).2⟩
  · exact same

mutual

theorem isKey_of_isElement : ∀ {v : Value}, v.isElement = true → v.isKey = true
  | .expr h as t, element => by
    obtain ⟨_, head, args⟩ := everywhere_expr.1 element
    simp only [isKey, isKey_of_isElement head, areKeys_of_isElement args, Bool.and_self]
  | .null, _ | .bool _, _ | .number _, _ | .text _, _ | .symbol _, _ => by simp [isKey]
  | .tuple _, element | .list _, element | .set _, element | .table _, element
  | .bindings _, element => by cases element

theorem areKeys_of_isElement : ∀ {vs : List Value}, (∀ v ∈ vs, v.isElement = true) → areKeys vs = true
  | [], _ => by simp [areKeys]
  | v :: vs, elements => by
    have later : ∀ w ∈ vs, w.isElement = true := fun w member => elements w (by simp [member])
    simp only [areKeys, isKey_of_isElement (elements v (by simp)), areKeys_of_isElement later, Bool.and_self]

end

theorem headOf_of_isElement {v : Value} (element : v.isElement = true) : ∃ k, v.headOf = .ok k := by
  cases v with
  | expr h as t => exact ⟨h, rfl⟩
  | number n => cases n <;> exact ⟨_, rfl⟩
  | null | bool _ | text _ | symbol _ => exact ⟨_, rfl⟩
  | tuple _ | list _ | set _ | table _ | bindings _ => cases element

theorem areWritable_iff {as : List Value} : areWritable as = true ↔ ∀ a ∈ as, a.isWritable = true := by
  induction as with
  | nil => simp [areWritable]
  | cons a as ih => simp [areWritable, ih]

theorem isWritable_expr {h : Value} {as : List Value} {t : SymbolSet} :
    (Value.expr h as t).isWritable = true ↔ h.isWritable = true ∧ ∀ a ∈ as, a.isWritable = true := by
  rw [isWritable, Bool.and_eq_true, areWritable_iff]

/-- Whether a value is made of integers, symbols and expressions only. -/
def isExact (v : Value) : Bool :=
  v.everywhere fun
    | .number (.int _) | .symbol _ => true
    | .expr h _ _ => h.canHead
    | _ => false

theorem int_eq_of_same {m n : Int} (same : (Number.int m).same (.int n) = true) : m = n := by
  simpa using same

mutual

theorem eq_of_same : ∀ {v w : Value}, v.isExact = true → w.isExact = true → v.same w = true → v = w
  | .number (.int m), .number (.int n), _, _, same => by
    simp only [Value.same, number?] at same
    rw [int_eq_of_same same]
  | .symbol x, .symbol y, _, _, same => by
    simp only [Value.same, beq_iff_eq] at same
    rw [same]
  | .expr h as t, .expr k bs u, left, right, same => by
    simp only [Value.same, Bool.and_eq_true, beq_iff_eq] at same
    obtain ⟨_, leftHead, leftArgs⟩ := everywhere_expr.1 left
    obtain ⟨_, rightHead, rightArgs⟩ := everywhere_expr.1 right
    rw [eq_of_same leftHead rightHead same.1.1, eq_of_sameItems leftArgs rightArgs same.1.2, same.2]
  | .number (.int _), .symbol _, _, _, same | .number (.int _), .expr .., _, _, same
  | .symbol _, .number (.int _), _, _, same | .symbol _, .expr .., _, _, same
  | .expr .., .number (.int _), _, _, same | .expr .., .symbol _, _, _, same => by
    simp [Value.same, number?] at same

theorem eq_of_sameItems : ∀ {xs ys : List Value}, (∀ x ∈ xs, x.isExact = true) →
    (∀ y ∈ ys, y.isExact = true) → sameItems xs ys = true → xs = ys
  | [], [], _, _, _ => rfl
  | x :: xs, y :: ys, left, right, same => by
    simp only [sameItems, Bool.and_eq_true] at same
    rw [eq_of_same (left x (by simp)) (right y (by simp)) same.1,
      eq_of_sameItems (fun z member => left z (by simp [member])) (fun z member => right z (by simp [member])) same.2]
  | [], _ :: _, _, _, same => by simp [sameItems] at same
  | _ :: _, [], _, _, same => by simp [sameItems] at same

end

/-- To keep exact values instead of others that are the same is to take the others. -/
theorem ite_sameItems {xs ys : List Value} (left : ∀ x ∈ xs, x.isExact = true) (right : ∀ y ∈ ys, y.isExact = true) :
    (if sameItems xs ys then ys else xs) = xs := by
  split
  · next same => exact (eq_of_sameItems left right same).symm
  · rfl

theorem isNaNFree_of_isExact {v : Value} (made : v.isExact = true) : v.isNaNFree = true := by
  refine everywhere_mono (fun w here => ?_) made
  match w, here with
  | .number (.int n), _ => rfl
  | .symbol _, _ => rfl
  | .expr .., _ => rfl

theorem differs_eq_false_iff {v w : Value} (left : v.isExact = true) (right : w.isExact = true) :
    v.differs w = false ↔ v = w := by
  have notEqual : v.differs w = !v.equal w := by
    match v, w, left, right with
    | .number (.int _), _, _, _ => rfl
    | .symbol _, .number (.int _), _, _ => rfl
    | .symbol _, .symbol _, _, _ => rfl
    | .symbol _, .expr .., _, _ => rfl
    | .expr .., .number (.int _), _, _ => rfl
    | .expr .., .symbol _, _, _ => rfl
    | .expr .., .expr .., _, _ => rfl
  rw [notEqual, Bool.not_eq_false']
  constructor
  · intro alike
    refine eq_of_same left right ?_
    match v, w, left, right with
    | .number (.int m), .number (.int n), _, _ =>
      simp only [equal, number?, Number.equal, Bool.and_eq_true] at alike
      simpa [same, number?] using alike.1
    | .number (.int _), .symbol _, _, _ | .number (.int _), .expr .., _, _ => exact alike
    | .symbol _, _, _, _ => exact alike
    | .expr .., _, _, _ => exact alike
  · rintro rfl
    exact equal_self (isNaNFree_of_isExact left)

end Symbolic.Value
