import Symbolic.Proofs.NormalForm
import Symbolic.Proofs.WrittenForm

/-!
The normal form of a term, computed without evaluating it. The sums in a sum and the
products in a product are taken apart, their integers are combined and the rest is
sorted. The laws of arithmetic keep the normal form, and a stable term is its own, so
evaluation comes to the normal form of what it starts from.
-/
namespace Symbolic

open Value Arithmetic

/-- The arguments of a sum or a product put together: their integers are combined in front of the others,
which are sorted, and zero absorbs the factors of a product. -/
def combine (op : RingOp) (as : List Value) : Value :=
  if op = .times ∧ op.total (integers as) = 0 then int 0
  else assemble op (op.total (integers as)) (canonicalSort (others as))

mutual

def normalize : Value → Value
  | .expr (.symbol f) as t =>
    if f.name = "Plus" then combine .plus (inline "Plus" (normalizeAll as))
    else if f.name = "Times" then combine .times (inline "Times" (normalizeAll as))
    else .expr (.symbol f) (normalizeAll as) t
  | v => v

def normalizeAll : List Value → List Value
  | [] => []
  | a :: as => normalize a :: normalizeAll as

end

/-- The terms with functions that nothing is known about, all names being shaped like identifiers. -/
def Vocabulary.functions : Vocabulary where
  atom x := isIdentifier x = true
  head f := (∃ op : RingOp, f = op.name) ∨ Uninterpreted f ∧ isIdentifier f = true
  ring op := .inl ⟨op, rfl⟩

theorem IsTerm.readable {v : Value} (term : IsTerm .functions v) : Readable v := by
  induction term with
  | integer n => exact .integer n
  | atom identifier => exact .symbol identifier
  | apply head _ _ ih =>
    refine .call ?_ ih
    rcases head with ⟨op, rfl⟩ | ⟨_, identifier⟩
    · cases op <;> decide
    · exact identifier

section Equations

theorem normalizeAll_eq (as : List Value) : normalizeAll as = as.map normalize := by
  induction as with
  | nil => rfl
  | cons a as ih => rw [normalizeAll, ih, List.map_cons]

theorem normalize_ring (op : RingOp) (as : List Value) :
    normalize (call op.name as) = combine op (inline op.name (as.map normalize)) := by
  rw [normalize, normalizeAll_eq]
  cases op <;> rfl

theorem normalize_other {f : String} (other : ∀ op : RingOp, f ≠ op.name) (as : List Value) :
    normalize (call f as) = call f (as.map normalize) := by
  have plus : f ≠ "Plus" := other .plus
  have times : f ≠ "Times" := other .times
  rw [normalize, if_neg plus, if_neg times, normalizeAll_eq]

end Equations

section Combining

variable {op : RingOp} {as bs ts : List Value} {n : Int}

theorem integers_append : integers (as ++ bs) = integers as ++ integers bs := List.filterMap_append

theorem others_append : others (as ++ bs) = others as ++ others bs := List.filter_append ..

theorem inline_append {name : String} : inline name (as ++ bs) = inline name as ++ inline name bs :=
  List.flatMap_append

theorem total_append (xs ys : List Int) : op.total (xs ++ ys) = op.total [op.total xs, op.total ys] := by
  cases op <;> simp [RingOp.total]

theorem integers_eq_nil (symbolic : ∀ t ∈ ts, t.number? = none) : integers ts = [] := by
  refine List.filterMap_eq_nil_iff.2 fun t member => ?_
  have none := symbolic t member
  cases t <;> simp_all [int?, number?]

theorem mem_sorted_others {t : Value} : t ∈ canonicalSort (others as) ↔ t ∈ as ∧ t.number? = none :=
  (canonicalSort_perm _).mem_iff.trans mem_others

theorem others_eq_self (symbolic : ∀ t ∈ ts, t.number? = none) : others ts = ts :=
  List.filter_eq_self.2 fun t member => by simp [symbolic t member]

theorem inline_singleton {name : String} {v : Value} : inline name [v] = (v.argsOf? name).getD [v] := by
  simp [Arithmetic.inline]

theorem inline_soleOrCall (flat : ∀ t ∈ ts, t.argsOf? op.name = none) :
    inline op.name [soleOrCall op.name ts] = ts := by
  rw [inline_singleton]
  unfold soleOrCall
  split
  · next t => rw [flat t (by simp), Option.getD_none]
  · simp [argsOf?]

/-- What an integer and other values are put together from can be read off the result. -/
theorem inline_assemble (flat : ∀ t ∈ ts, t.argsOf? op.name = none) (symbolic : ∀ t ∈ ts, t.number? = none) :
    op.total (integers (inline op.name [assemble op n ts])) = n ∧
      others (inline op.name [assemble op n ts]) = ts := by
  have numbers := integers_eq_nil symbolic
  have rest := others_eq_self symbolic
  unfold assemble
  by_cases empty : ts.isEmpty = true
  · obtain rfl := List.isEmpty_iff.1 empty
    exact ⟨op.total_singleton n, rfl⟩
  · rw [if_neg empty]
    by_cases neutral : n = op.unit
    · rw [if_pos neutral, inline_soleOrCall flat, numbers, neutral]
      exact ⟨op.total_nil, rest⟩
    · have flatAll : ∀ t ∈ int n :: ts, t.argsOf? op.name = none := List.forall_mem_cons.2 ⟨rfl, flat⟩
      rw [if_neg neutral, inline_soleOrCall flatAll, integers_int_cons, numbers]
      exact ⟨op.total_singleton n, rest⟩

theorem combine_congr (numbers : op.total (integers as) = op.total (integers bs))
    (same : canonicalSort (others as) = canonicalSort (others bs)) : combine op as = combine op bs := by
  rw [combine, combine, numbers, same]

theorem canonicalSort_others (perm : (others as).Perm (others bs)) (readable : ∀ a ∈ as, Readable a) :
    canonicalSort (others as) = canonicalSort (others bs) := by
  refine canonicalSort_congr perm fun x xIn y yIn same => ?_
  exact sortKey_injective (readable x (mem_others.1 xIn).1) (readable y (mem_others.1 yIn).1) same

theorem combine_perm (perm : as.Perm bs) (readable : ∀ a ∈ as, Readable a) : combine op as = combine op bs :=
  combine_congr (op.total_perm (perm.filterMap _)) (canonicalSort_others (perm.filter _) readable)

/-- A combination among values may be taken apart. -/
theorem combine_nested {before inner after : List Value} (flat : ∀ t ∈ inner, t.argsOf? op.name = none)
    (readable : ∀ a ∈ before ++ inner ++ after, Readable a) :
    combine op (before ++ inline op.name [combine op inner] ++ after) = combine op (before ++ inner ++ after) := by
  -- A product of zero keeps nothing of its factors, so that nothing could be read off it.
  by_cases zero : op = .times ∧ op.total (integers inner) = 0
  · obtain ⟨rfl, zero⟩ := zero
    have absorbs : combine .times inner = int 0 := if_pos ⟨rfl, zero⟩
    rw [absorbs]
    have left : RingOp.times.total (integers (before ++ inline "Times" [int 0] ++ after)) = 0 :=
      List.prod_eq_zero (mem_integers.2 (by simp [Arithmetic.inline, argsOf?]))
    have right : RingOp.times.total (integers (before ++ inner ++ after)) = 0 := by
      rw [integers_append, integers_append, total_append, total_append, zero]
      simp [RingOp.total]
    exact (if_pos ⟨rfl, left⟩).trans (if_pos ⟨rfl, right⟩).symm
  · have form : combine op inner = assemble op (op.total (integers inner)) (canonicalSort (others inner)) := if_neg zero
    have sorted := canonicalSort_perm (others inner)
    obtain ⟨numbers, rest⟩ := inline_assemble (n := op.total (integers inner))
      (fun t member => flat t (mem_sorted_others.1 member).1) fun t member => (mem_sorted_others.1 member).2
    rw [← form] at numbers rest
    refine (combine_congr ?_ (canonicalSort_others ?_ readable)).symm
    · simp only [integers_append, total_append, numbers]
    · simp only [others_append, rest]
      exact ((sorted.symm.append_left _).append_right _)

end Combining

/-- A value in normal form at every place. -/
inductive Normal : Value → Prop
  | integer (n : Int) : Normal (int n)
  | atom (x : String) : Normal (sym x)
  | apply {f : String} {as : List Value} : (∀ a ∈ as, Normal a) → (∀ op : RingOp, f = op.name → NormalArgs op as) →
    Normal (call f as)

theorem Stable.normal {V : Vocabulary} {v : Value} (stable : Stable v) (term : IsTerm V v) : Normal v := by
  induction stable with
  | integer n => exact .integer n
  | atom x => exact .atom x
  | @apply f as args arranged folded ih =>
    refine .apply (fun a member => ih a member (term.arg member)) ?_
    rintro op rfl
    exact (Stable.apply args arranged folded).normalArgs term

section Normal

variable {op : RingOp} {as : List Value} {v : Value}

theorem Normal.inline (normal : Normal v) :
    ∀ t ∈ Arithmetic.inline op.name [v], Normal t ∧ t.argsOf? op.name = none := by
  rw [inline_singleton]
  cases normal with
  | integer n | atom x => simp [argsOf?, Normal.integer, Normal.atom]
  | @apply f as args shaped =>
    by_cases same : f = op.name
    · subst same
      have whole : (call op.name as).argsOf? op.name = some as := by simp [argsOf?]
      rw [whole]
      exact fun t member => ⟨args t member, hasHead_eq_false.1 ((shaped op rfl).flat t member)⟩
    · have apart : (call f as).argsOf? op.name = none := by simp [argsOf?, same]
      rw [apart]
      intro t member
      rw [List.mem_singleton.1 member]
      exact ⟨.apply args shaped, apart⟩

/-- Values without a number combine to what stands under the head by itself. -/
theorem combine_symbolic (symbolic : ∀ a ∈ as, a.number? = none) (some : as ≠ []) (ordered : canonicalSort as = as) :
    Symbolic.combine op as = soleOrCall op.name as := by
  have numbers : op.total (integers as) = op.unit := by
    rw [integers_eq_nil symbolic, op.total_nil]
  have nonzero : ¬ (op = .times ∧ op.unit = 0) := by cases op <;> simp [RingOp.unit]
  rw [Symbolic.combine, numbers, others_eq_self symbolic, ordered, if_neg nonzero, assemble]
  simp [some]

theorem NormalArgs.combine {V : Vocabulary} (normal : NormalArgs op as) (terms : ∀ a ∈ as, IsTerm V a) :
    Symbolic.combine op as = call op.name as := by
  have several := normal.several
  have sorted : as.Pairwise Before := normal.ordered ▸ canonicalSort_pairwise as
  match as, several with
  | a :: b :: rest, _ =>
    have symbolic : ∀ t ∈ b :: rest, t.number? = none := normal.numberFirst
    cases number : a.number? with
    | none =>
      exact combine_symbolic (List.forall_mem_cons.2 ⟨number, symbolic⟩) (by simp) normal.ordered
    | some k =>
      obtain ⟨n, rfl, rfl⟩ := (terms a (by simp)).number number
      obtain ⟨nonzero, effect⟩ := normal.proper n (by simp)
      have numbers : op.total (integers (int n :: b :: rest)) = n := by
        rw [integers_int_cons, integers_eq_nil symbolic, op.total_singleton]
      have symbols : others (int n :: b :: rest) = b :: rest := others_eq_self symbolic
      have tail := canonicalSort_of_pairwise (List.pairwise_cons.1 sorted).2
      rw [Symbolic.combine, numbers, symbols, tail, if_neg fun both => nonzero both.2, assemble]
      simp [effect, soleOrCall]

theorem Normal.combine {V : Vocabulary} (normal : Normal v) (term : IsTerm V v) :
    Symbolic.combine op (Arithmetic.inline op.name [v]) = v := by
  rw [inline_singleton]
  cases normal with
  | integer n =>
    change Symbolic.combine op [int n] = int n
    have numbers : op.total (integers [int n]) = n := op.total_singleton n
    rw [Symbolic.combine, numbers]
    split
    · next zero => rw [zero.2]
    · rfl
  | atom x =>
    change Symbolic.combine op [sym x] = sym x
    exact combine_symbolic (by simp [number?]) (by simp) rfl
  | @apply f as args shaped =>
    by_cases same : f = op.name
    · subst same
      have whole : (call op.name as).argsOf? op.name = some as := by simp [argsOf?]
      rw [whole]
      exact (shaped op rfl).combine fun a member => term.arg member
    · have apart : (call f as).argsOf? op.name = none := by simp [argsOf?, same]
      rw [apart]
      exact combine_symbolic (by simp [number?]) (by simp) rfl

theorem before_int {V : Vocabulary} {n : Int} (term : IsTerm V v) (symbolic : v.number? = none) :
    Before (int n) v := by
  refine SortKey.le_iff.2 (.inl ?_)
  cases term with
  | integer => cases symbolic
  | atom => simp [sortKey]
  | apply => simp [sortKey]

theorem IsTerm.combine {V : Vocabulary} (terms : ∀ a ∈ as, IsTerm V a) : IsTerm V (Symbolic.combine op as) := by
  have known : ∀ t ∈ canonicalSort (others as), IsTerm V t :=
    fun t member => terms t (mem_sorted_others.1 member).1
  unfold Symbolic.combine assemble
  split
  · exact .integer 0
  · split
    · exact .integer _
    · refine .soleOrCall op ?_
      split
      · exact known
      · exact List.forall_mem_cons.2 ⟨.integer _, known⟩

theorem RingOp.name_injective {op other : RingOp} (same : op.name = other.name) : op = other := by
  revert same
  cases op <;> cases other <;> decide

/-- An integer and sorted values in normal form are put together to a normal form. -/
theorem Normal.ofAssemble {V : Vocabulary} {ts : List Value} {n : Int} (terms : ∀ t ∈ ts, IsTerm V t)
    (each : ∀ t ∈ ts, Normal t ∧ t.argsOf? op.name = none) (symbolic : ∀ t ∈ ts, t.number? = none)
    (sorted : ts.Pairwise Before) (nonzero : n = 0 → n = op.unit) : Normal (assemble op n ts) := by
  unfold assemble
  split
  · exact .integer n
  · next some =>
    generalize parts : (if n = op.unit then ts else int n :: ts) = ys
    have eachPart : ∀ y ∈ ys, Normal y ∧ y.argsOf? op.name = none := by
      rw [← parts]
      split
      · exact each
      · exact List.forall_mem_cons.2 ⟨⟨.integer n, rfl⟩, each⟩
    have sortedParts : ys.Pairwise Before := by
      rw [← parts]
      split
      · exact sorted
      · exact List.pairwise_cons.2 ⟨fun t member => before_int (terms t member) (symbolic t member), sorted⟩
    unfold soleOrCall
    split
    · exact (eachPart _ (by simp)).1
    · next notSole =>
      refine .apply (fun y member => (eachPart y member).1) ?_
      intro other same
      obtain rfl := RingOp.name_injective same
      refine normalArgs_of_parts ?_ (fun y member => hasHead_eq_false.2 (eachPart y member).2)
        (canonicalSort_of_pairwise sortedParts) parts.symm symbolic nonzero
      match ys, notSole with
      | [], _ =>
        split at parts
        · simp [parts] at some
        · cases parts
      | [y], notSole => exact (notSole y rfl).elim
      | _ :: _ :: _, _ => simp

theorem Normal.ofCombine {V : Vocabulary} (terms : ∀ a ∈ as, IsTerm V a)
    (each : ∀ a ∈ as, Normal a ∧ a.argsOf? op.name = none) : Normal (Symbolic.combine op as) := by
  unfold Symbolic.combine
  split
  · exact .integer 0
  · next nonzero =>
    have known : ∀ t ∈ canonicalSort (others as), t ∈ as ∧ t.number? = none :=
      fun t member => mem_sorted_others.1 member
    refine .ofAssemble (fun t member => terms t (known t member).1) (fun t member => each t (known t member).1)
      (fun t member => (known t member).2) (canonicalSort_pairwise _) fun zero => ?_
    cases op with
    | plus => exact zero
    | times => exact (nonzero ⟨rfl, zero⟩).elim

end Normal

section Laws

variable {op : RingOp} {f : String} {as bs : List Value} {v w : Value}

theorem mem_inline {name : String} {t : Value} : t ∈ inline name as ↔ ∃ a ∈ as, t ∈ inline name [a] := by
  simp [Arithmetic.inline]

theorem isTerm_call :
    IsTerm .functions (call f as) ↔ Vocabulary.functions.head f ∧ ∀ a ∈ as, IsTerm .functions a := by
  refine ⟨fun term => ⟨term.head, fun a member => term.arg member⟩, fun ⟨head, args⟩ => ?_⟩
  refine .apply head ?_ args
  rcases head with ⟨op, rfl⟩ | ⟨free, _⟩
  · exact .ring op as
  · exact .free as free

theorem IsTerm.normalize (term : IsTerm .functions v) :
    IsTerm .functions (Symbolic.normalize v) ∧ Normal (Symbolic.normalize v) := by
  induction term with
  | integer n => exact ⟨.integer n, .integer n⟩
  | atom identifier => exact ⟨.atom identifier, .atom _⟩
  | @apply f as head legal args ih =>
    have each : ∀ b ∈ as.map Symbolic.normalize, IsTerm .functions b ∧ Normal b := List.forall_mem_map.2 ih
    have terms := fun b member => (each b member).1
    rcases head with ⟨op, rfl⟩ | ⟨free, identifier⟩
    · rw [normalize_ring]
      have termsInside := IsTerm.inline op terms
      refine ⟨.combine termsInside, .ofCombine termsInside fun t member => ?_⟩
      obtain ⟨b, inside, part⟩ := mem_inline.1 member
      exact (each b inside).2.inline t part
    · have other : ∀ op : RingOp, f ≠ op.name := fun op => free.ne (by cases op <;> rfl)
      rw [normalize_other other]
      refine ⟨isTerm_call.2 ⟨.inr ⟨free, identifier⟩, terms⟩, ?_⟩
      exact .apply (fun b member => (each b member).2) fun op same => (other op same).elim

theorem Normal.normalize_eq (normal : Normal v) (term : IsTerm .functions v) : normalize v = v := by
  induction normal with
  | integer n => rfl
  | atom x => rfl
  | @apply f as args shaped ih =>
    have fixed : as.map normalize = as :=
      (List.map_congr_left fun a member => ih a member (term.arg member)).trans (List.map_id as)
    by_cases ring : ∃ op : RingOp, f = op.name
    · obtain ⟨op, rfl⟩ := ring
      have flat := fun a member => hasHead_eq_false.1 ((shaped op rfl).flat a member)
      rw [normalize_ring, fixed, inline_of_flat flat]
      exact (shaped op rfl).combine fun a member => term.arg member
    · rw [normalize_other (not_exists.1 ring), fixed]

theorem normalize_call_congr (same : as.map normalize = bs.map normalize) :
    normalize (call f as) = normalize (call f bs) := by
  rw [normalize, normalize, normalizeAll_eq, normalizeAll_eq, same]

theorem readable_inside (terms : ∀ a ∈ as, IsTerm .functions a) :
    ∀ t ∈ inline op.name (as.map normalize), Readable t := by
  have normalized : ∀ b ∈ as.map normalize, IsTerm .functions b :=
    List.forall_mem_map.2 fun a member => (terms a member).normalize.1
  exact fun t member => (IsTerm.inline op normalized t member).readable

theorem normalize_permute (perm : as.Perm bs) (terms : ∀ a ∈ as, IsTerm .functions a) :
    normalize (call op.name as) = normalize (call op.name bs) := by
  rw [normalize_ring, normalize_ring]
  exact combine_perm ((perm.map normalize).flatMap_right _) (readable_inside terms)

theorem normalize_splice {before inner after : List Value}
    (terms : ∀ a ∈ before ++ inner ++ after, IsTerm .functions a) :
    normalize (call op.name (before ++ call op.name inner :: after)) =
      normalize (call op.name (before ++ inner ++ after)) := by
  have flat : ∀ t ∈ inline op.name (inner.map normalize), t.argsOf? op.name = none := by
    intro t member
    obtain ⟨b, inside, part⟩ := mem_inline.1 member
    obtain ⟨a, here, rfl⟩ := List.mem_map.1 inside
    exact ((terms a (by simp [here])).normalize.2.inline t part).2
  have readable : ∀ t ∈ inline op.name ((before ++ inner ++ after).map normalize), Readable t :=
    readable_inside terms
  simp only [List.map_append, inline_append] at readable
  have nested : inline op.name ((before ++ call op.name inner :: after).map normalize) =
      inline op.name (before.map normalize) ++ inline op.name [combine op (inline op.name (inner.map normalize))] ++
        inline op.name (after.map normalize) := by
    rw [← normalize_ring, List.map_append, List.map_cons, ← inline_append, ← inline_append]
    simp
  rw [normalize_ring, normalize_ring, nested, combine_nested flat readable]
  simp only [List.map_append, inline_append]

theorem normalize_collect (ns : List Int) (rest : List Value) :
    normalize (call op.name (ns.map int ++ rest)) = normalize (call op.name (int (op.total ns) :: rest)) := by
  have inside : ∀ ks : List Int, inline op.name ((ks.map int ++ rest).map normalize) =
      ks.map int ++ inline op.name (rest.map normalize) := by
    intro ks
    have alone : inline op.name (ks.map int) = ks.map int := inline_of_flat (by simp [argsOf?])
    have fixed : (ks.map int).map normalize = ks.map int := by simp [normalize]
    rw [List.map_append, inline_append, fixed, alone]
  have numbers : ∀ ks : List Int, integers (ks.map int) = ks := by
    intro ks
    simp [integers, List.filterMap_map, Function.comp_def, int?]
  have symbols : ∀ ks : List Int, others (ks.map int) = [] := by
    intro ks
    simp [others, number?]
  change _ = normalize (call op.name ([op.total ns].map int ++ rest))
  rw [normalize_ring, normalize_ring, inside, inside]
  refine combine_congr ?_ ?_
  · rw [integers_append, integers_append, numbers, numbers]
    cases op <;> simp [RingOp.total]
  · rw [others_append, others_append, symbols, symbols]

theorem normalize_absorb (rest : List Value) : normalize (call "Times" (int 0 :: rest)) = int 0 := by
  refine (normalize_ring .times _).trans (if_pos ⟨rfl, List.prod_eq_zero (mem_integers.2 ?_)⟩)
  exact mem_inline.2 ⟨int 0, by simp [normalize], by simp [Arithmetic.inline, argsOf?]⟩

theorem not_isTerm_call (built : (Builtin.ofName? f).isSome = true) (other : ∀ op : RingOp, f ≠ op.name) :
    ¬ IsTerm .functions (call f as) := by
  intro term
  rcases term.head with ⟨op, same⟩ | ⟨free, _⟩
  · exact other op same
  · exact free.ne built rfl

theorem Rewrites.normalize_eq (rewrites : Rewrites v w) (term : IsTerm .functions v) : normalize v = normalize w := by
  induction rewrites with
  | refl => rfl
  | trans first _ ihFirst ihSecond => exact (ihFirst term).trans (ihSecond (first.isTerm term))
  | inside f before after _ ih =>
    have same := ih (term.arg (by simp))
    exact normalize_call_congr (by simp [same])
  | permute op perm => exact normalize_permute perm fun a member => term.arg member
  | splice op before inner after =>
    refine normalize_splice fun a member => ?_
    exact ((Rewrites.splice op before inner after).isTerm term).arg member
  | collect op ns rest => exact normalize_collect ns rest
  | unit op rest =>
    rw [← op.total_nil, ← normalize_collect [] rest]
    rfl
  | sole op a =>
    obtain ⟨normalTerm, normal⟩ := IsTerm.normalize (term.arg (List.mem_singleton_self a))
    rw [normalize_ring]
    exact normal.combine normalTerm
  | absorb rest => exact normalize_absorb rest
  -- The other laws are about heads outside the vocabulary.
  | minus | subtract | abs | absProduct | power | powerZero | powerOne =>
    exact (not_isTerm_call rfl (fun op => by cases op <;> decide) term).elim

end Laws

theorem evaluate_eq_normalize {s t : Session} {c : ContextId} {fuel : Nat} {e r : Value} (bare : s.Bare c)
    (term : IsTerm .functions e) (run : evaluate fuel c e s = .ok r t) : r = normalize e := by
  obtain ⟨_, outcome⟩ := evaluate_settles bare fuel s.depth s.iterations e r t term run
  have resultTerm := outcome.rewrites.isTerm term
  rw [outcome.rewrites.normalize_eq term, (outcome.stable.normal resultTerm).normalize_eq resultTerm]

end Symbolic
