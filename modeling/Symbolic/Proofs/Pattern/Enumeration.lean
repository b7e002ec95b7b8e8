import Symbolic.Proofs.Pattern.Segmentation

/-!
Matching a row of patterns enumerates its segmentations: every way to divide the values among
the patterns is found, each once, in the order of the lengths of the segments. The one
exception is a name that would get two different values of which one has no text: the conflict
cannot be reported then, and the whole search fails.
-/
namespace Symbolic.Pattern

open Value

/-- A value that a name has, or that it gets from an item if that takes some of the values in a row. -/
def Candidate (b : Bindings) (items : List Item) (es : List Value) (c : Symbol × Value) : Prop :=
  b.get? c.1 = some c.2 ∨ ∃ item ∈ items, ∃ front, front <:+: es ∧ item.Takes front ∧ c ∈ item.captured front

/-- A name has two candidates that are not equal, and one of them has no text. -/
def Clash (b : Bindings) (items : List Item) (es : List Value) : Prop :=
  ∃ x u v, Candidate b items es (x, u) ∧ Candidate b items es (x, v) ∧ u.equal v = false ∧
    (u.isWritable && v.isWritable) = false

/-- What can come of letting an item take a segment: bindings, exactly if it takes the segment and the
value of its name agrees; or a failure, if a value clashes with that of its name. -/
inductive Attempt (b : Bindings) (item : Item) (front : List Value) : Except Error (Option Bindings) → Prop
  | taken (takes : item.Takes front) (agrees : b.Agrees (item.captured front)) :
    Attempt b item front (.ok (some (b.extend (item.captured front))))
  | refused (not : ¬ (item.Takes front ∧ b.Agrees (item.captured front))) : Attempt b item front (.ok none)
  | failed (clash : Clash b [item] front) : Attempt b item front (.error .malformed)

section Attempts

variable {b : Bindings} {item : Item} {p e v : Value} {cs front : List Value} {x : Symbol}

theorem headFits_iff : HeadFits true cs e ↔ ∀ c, first? cs = some c → ∃ k, e.headOf = .ok k ∧ k.equal c = true := by
  cases cs with
  | nil => exact ⟨fun _ c impossible => (by cases impossible), fun _ c impossible => (by cases impossible)⟩
  | cons c cs =>
    have only : HeadFits true (c :: cs) e ↔ c = .null ∨ ∃ k, e.headOf = .ok k ∧ k.equal c = true := by
      simp [HeadFits]
    rw [only]
    cases c with
    | null => exact iff_of_true (.inl rfl) fun c impossible => (by cases impossible)
    | _ => simp [first?, present?]

theorem accepts_eq (cs : List Value) (element : e.isElement = true) :
    ∃ accepted, accepts (first? cs) e = .ok accepted ∧ (accepted = true ↔ HeadFits true cs e) := by
  obtain ⟨k, head⟩ := headOf_of_isElement element
  rw [headFits_iff]
  cases first? cs with
  | none => exact ⟨true, rfl, by simp⟩
  | some c =>
    refine ⟨k.equal c, ?_, by simp [head]⟩
    rw [accepts, head]
    rfl

theorem acceptsAll_eq (cs : List Value) (elements : ∀ e ∈ front, e.isElement = true) :
    ∃ accepted, acceptsAll (first? cs) front = .ok accepted ∧
      (accepted = true ↔ ∀ e ∈ front, HeadFits true cs e) := by
  induction front with
  | nil => exact ⟨true, rfl, by simp⟩
  | cons e front ih =>
    obtain ⟨here, tested, fits⟩ := accepts_eq cs (elements e (List.mem_cons_self ..))
    obtain ⟨later, testedToo, fitToo⟩ := ih fun d member => elements d (List.mem_cons_of_mem e member)
    cases here with
    | true =>
      refine ⟨later, ?_, by simp [fitToo, ← fits]⟩
      rw [acceptsAll, tested]
      exact testedToo
    | false =>
      refine ⟨false, ?_, by simp [← fits]⟩
      rw [acceptsAll, tested]
      rfl

/-- Binding a name succeeds if the value agrees. If not, it gives no bindings, or it fails because one of
the two values has no text. -/
theorem bindName_cases (b : Bindings) (x : Symbol) (element : v.isElement = true) :
    (b.Agrees [(x, v)] ∧ bindName b (some (.symbol x)) v = .ok (some (b.extend [(x, v)]))) ∨
      ∃ old, b.get? x = some old ∧ old.equal v = false ∧ (bindName b (some (.symbol x)) v = .ok none ∨
        bindName b (some (.symbol x)) v = .error .malformed ∧ (old.isWritable && v.isWritable) = false) := by
  cases found : b.get? x with
  | none =>
    refine .inl ⟨⟨?_, List.pairwise_singleton ..⟩, ?_⟩
    · simp [found]
    · simp [bindName, Bindings.bindValue, Bindings.bind, Bindings.extend, found, isKey_of_isElement element]
  | some old =>
    cases same : old.equal v with
    | true =>
      refine .inl ⟨⟨?_, List.pairwise_singleton ..⟩, ?_⟩
      · simp [found, same]
      · simp [bindName, Bindings.bindValue, Bindings.bind, Bindings.extend, found, same]
    | false =>
      refine .inr ⟨old, rfl, same, ?_⟩
      cases written : old.isWritable && v.isWritable with
      | true => simp [bindName, Bindings.bindValue, Bindings.bind, Bindings.conflict, found, same, written]
      | false => simp [bindName, Bindings.bindValue, Bindings.bind, Bindings.conflict, found, same, written]

theorem attempt_binding (name : Option Symbol) (takes : item.Takes front) (element : v.isElement = true)
    (captures : item.captured front = name.toList.map (·, v)) :
    Attempt b item front (bindName b (name.map .symbol) v) := by
  cases name with
  | none =>
    have nothing : item.captured front = [] := captures
    have attempt : Attempt b item front (.ok (some (b.extend (item.captured front)))) :=
      .taken takes (by rw [nothing]; exact ⟨by simp, .nil⟩)
    rwa [nothing] at attempt
  | some x =>
    have one : item.captured front = [(x, v)] := captures
    rw [Option.map_some]
    -- A name that has another value refuses this one, unless the conflict of the two cannot be put into words.
    rcases bindName_cases b x element with ⟨agrees, bound⟩ | ⟨old, found, different, refused | ⟨failed, cause⟩⟩
    · rw [bound, ← one]
      exact .taken takes (one ▸ agrees)
    · rw [refused]
      refine .refused fun both => ?_
      have same := both.2.bound (x, v) (by simp [one]) old found
      rw [different] at same
      cases same
    · rw [failed]
      refine .failed ⟨x, old, v, .inl found, .inr ⟨item, by simp, front, List.infix_rfl, takes, ?_⟩, different, cause⟩
      simp [one]

theorem attempt_unfit {name : Option Symbol} (unfit : ¬ HeadFits true cs e) :
    Attempt b (.blank name cs) [e] (.ok none) := by
  refine .refused ?_
  rintro ⟨⟨d, one, fit⟩, _⟩
  cases one
  exact unfit fit

end Attempts

section Matching

variable {σ : Type} {m : Settings σ} {b : Bindings} {item : Item} {p e : Value} {depth : Nat}

theorem matchOne_attempt (writes : Writes item p) (single : item.role = .single) (definite : e.Definite)
    (room : (depth + 1 : Int) ≤ m.maxDepth) :
    ∃ r, matchOne m none depth p e b = Step.ofExcept r ∧ Attempt b item [e] r := by
  have above : ¬ (depth : Int) > m.maxDepth := by omega
  cases writes with
  | literal basic =>
    rw [matchOne_comparison (.inr (shape_literal basic)), if_neg above]
    by_cases same : p.equal e = true
    · exact ⟨_, by rw [if_pos same]; rfl, attempt_binding none ⟨e, rfl, same⟩ definite.element rfl⟩
    · refine ⟨.ok none, by rw [if_neg same]; rfl, .refused ?_⟩
      rintro ⟨⟨d, one, alike⟩, _⟩
      cases one
      exact same alike
  | blank cs t =>
    rw [matchOne_of_shape (shape_blank cs t), matchShape, if_neg above]
    obtain ⟨accepted, tested, fits⟩ := accepts_eq cs definite.element
    rw [tested]
    cases accepted with
    | true => exact ⟨_, rfl, attempt_binding none ⟨e, rfl, fits.1 rfl⟩ definite.element rfl⟩
    | false => exact ⟨.ok none, rfl, attempt_unfit fun fit => by cases fits.2 fit⟩
  | named x cs t u =>
    have form : shape (unwrapHold (.expr (sym "Pattern") [.symbol x, .expr (sym "Blank") cs t] u)) =
        .named (some (.symbol x)) (some (.expr (sym "Blank") cs t)) := rfl
    have below : ¬ ((depth + 1 : Nat) : Int) > m.maxDepth := by omega
    rw [matchOne_of_shape form, matchShape, if_neg above, matchOne_of_shape (shape_blank cs t), matchShape, if_neg below]
    obtain ⟨accepted, tested, fits⟩ := accepts_eq cs definite.element
    rw [tested]
    cases accepted with
    | true => exact ⟨_, rfl, attempt_binding (some x) ⟨e, rfl, fits.1 rfl⟩ definite.element rfl⟩
    | false => exact ⟨.ok none, rfl, attempt_unfit fun fit => by cases fits.2 fit⟩
  | segment => cases single

/-- Goes on with what an attempt gave. -/
def proceed (r : Except Error (Option Bindings)) (next : Bindings → Step σ (List Bindings)) : Step σ (List Bindings) :=
  Step.ofExcept r >>= fun found => found.elim (pure []) next

theorem proceed_eq {r : Except Error (Option Bindings)} {k : Option Bindings → Step σ (List Bindings)}
    (next : Bindings → Step σ (List Bindings)) (absent : k none = pure []) (present : ∀ c, k (some c) = next c) :
    Step.ofExcept r >>= k = proceed r next := by
  refine congrArg (Step.ofExcept r >>= ·) (funext fun found => ?_)
  cases found with
  | none => exact absent
  | some c => exact present c

theorem segment_attempt (name : Option Symbol) {n : Nat} (cs : List Value) {front : List Value} (long : n ≤ front.length)
    (definite : ∀ e ∈ front, e.Definite) :
    ∃ r, Attempt b (.segment name n cs) front r ∧ ∀ next : Bindings → Step σ (List Bindings),
      (do
        if ← Step.ofExcept (acceptsAll (first? cs) front) then
          match ← Step.ofExcept (bindName b (name.map .symbol) (ofItems front)) with
          | some c => next c
          | none => return []
        else return []) = proceed r next := by
  obtain ⟨accepted, tested, fits⟩ := acceptsAll_eq cs fun e member => (definite e member).element
  rw [tested]
  cases accepted with
  | true =>
    refine ⟨bindName b (name.map .symbol) (ofItems front), ?_, fun next => ?_⟩
    · refine attempt_binding name ⟨long, fits.1 rfl⟩ (Definite.ofItems definite).element ?_
      cases name <;> rfl
    · exact proceed_eq next rfl fun _ => rfl
  | false =>
    refine ⟨.ok none, .refused fun both => ?_, fun next => rfl⟩
    cases fits.2 both.1.2

end Matching

/-! ### Listing cuts -/

section Listing

variable {σ : Type}

/-- A search that gives the bindings of the cuts with some property, of each cut once, in the order of the
lengths of its segments; or one that fails, for a cause. -/
def Lists (S : List (List Value) → Prop) (entry : List (List Value) → Bindings) (cause : Prop)
    (run : Step σ (List Bindings)) : Prop :=
  (∃ cuts : List (List (List Value)), (cuts.map (·.map List.length)).Pairwise (· < ·) ∧
    (∀ cut, cut ∈ cuts ↔ S cut) ∧ run = pure (cuts.map entry)) ∨ cause ∧ run = Step.fail .malformed

variable {S T : List (List Value) → Prop} {entry : List (List Value) → Bindings} {cause : Prop}
  {run : Step σ (List Bindings)}

theorem Lists.congr (same : ∀ cut, T cut ↔ S cut) (lists : Lists S entry cause run) : Lists T entry cause run := by
  rcases lists with ⟨cuts, sorted, members, done⟩ | failed
  · exact .inl ⟨cuts, sorted, fun cut => (members cut).trans (same cut).symm, done⟩
  · exact .inr failed

theorem lists_nothing (none : ∀ cut, ¬ S cut) : Lists S entry cause (pure [] : Step σ (List Bindings)) :=
  .inl ⟨[], .nil, fun cut => iff_of_false (by simp) (none cut), rfl⟩

theorem Lists.append {more : Step σ (List Bindings)} (first : Lists S entry cause run)
    (second : Lists T entry cause more) (before : ∀ c d, S c → T d → c.map List.length < d.map List.length) :
    Lists (fun cut => S cut ∨ T cut) entry cause (do
      let found ← run
      return found ++ (← more)) := by
  rcases first with ⟨cuts, sorted, members, rfl⟩ | ⟨failed, rfl⟩
  · rcases second with ⟨others, sortedToo, membersToo, rfl⟩ | ⟨failed, rfl⟩
    · refine .inl ⟨cuts ++ others, ?_, fun cut => ?_, by simp⟩
      · rw [List.map_append, List.pairwise_append]
        refine ⟨sorted, sortedToo, fun k left l right => ?_⟩
        obtain ⟨c, here, rfl⟩ := List.mem_map.1 left
        obtain ⟨d, there, rfl⟩ := List.mem_map.1 right
        exact before c d ((members c).1 here) ((membersToo d).1 there)
      · rw [List.mem_append, members, membersToo]
    · exact .inr ⟨failed, rfl⟩
  · exact .inr ⟨failed, rfl⟩

variable {b : Bindings} {item : Item} {items : List Item} {front back es : List Value}

theorem candidate_back {c : Symbol × Value} (takes : item.Takes front)
    (candidate : Candidate (b.extend (item.captured front)) items back c) :
    Candidate b (item :: items) (front ++ back) c := by
  rcases candidate with found | ⟨other, member, middle, inside, takesToo, captured⟩
  · rcases Bindings.get_extend_cases found with before | new
    · exact .inl before
    · exact .inr ⟨item, List.mem_cons_self .., front, (List.prefix_append ..).isInfix, takes, new⟩
  · have wider : middle <:+: front ++ back := inside.trans (List.suffix_append ..).isInfix
    exact .inr ⟨other, List.mem_cons_of_mem item member, middle, wider, takesToo, captured⟩

theorem clash_back (takes : item.Takes front) (clash : Clash (b.extend (item.captured front)) items back) :
    Clash b (item :: items) (front ++ back) := by
  obtain ⟨x, u, v, left, right, rest⟩ := clash
  exact ⟨x, u, v, candidate_back takes left, candidate_back takes right, rest⟩

theorem clash_front (clash : Clash b [item] front) : Clash b (item :: items) (front ++ back) := by
  have wider : ∀ c, Candidate b [item] front c → Candidate b (item :: items) (front ++ back) c := by
    rintro c (found | ⟨other, member, middle, inside, rest⟩)
    · exact .inl found
    · obtain rfl := List.mem_singleton.1 member
      exact .inr ⟨other, List.mem_cons_self .., middle, inside.trans (List.prefix_append ..).isInfix, rest⟩
  obtain ⟨x, u, v, left, right, rest⟩ := clash
  exact ⟨x, u, v, wider _ left, wider _ right, rest⟩

/-- Going on after an attempt lists the cuts that begin with the segment. -/
theorem lists_proceed {r : Except Error (Option Bindings)} {next : Bindings → Step σ (List Bindings)}
    (definite : ∀ e ∈ front, e.Definite) (attempt : Attempt b item front r)
    (rest : ∀ c, Lists (Segmentation c items back) (fun cut => c.extend (captures items cut)) (Clash c items back)
      (next c)) :
    Lists (fun cut => cut.head? = some front ∧ Segmentation b (item :: items) (front ++ back) cut)
      (fun cut => b.extend (captures (item :: items) cut)) (Clash b (item :: items) (front ++ back)) (proceed r next) := by
  cases attempt with
  | taken takes agrees =>
    rcases rest (b.extend (item.captured front)) with ⟨cuts, sorted, members, done⟩ | ⟨cause, failed⟩
    · refine .inl ⟨cuts.map (front :: ·), ?_, fun cut => ?_, ?_⟩
      · rw [List.pairwise_map] at sorted ⊢
        rw [List.pairwise_map]
        exact sorted.imp fun shorter => List.cons_lt_cons_iff.2 (.inr ⟨rfl, shorter⟩)
      · rw [List.mem_map]
        constructor
        · rintro ⟨later, member, rfl⟩
          exact ⟨rfl, (segmentation_cons definite).2 ⟨⟨takes, agrees⟩, (members later).1 member⟩⟩
        · rintro ⟨begins, segmentation⟩
          obtain ⟨_, later, rfl, _⟩ := segmentation.first
          cases begins
          exact ⟨later, (members later).2 ((segmentation_cons definite).1 segmentation).2, rfl⟩
      · show next _ = _
        rw [done, List.map_map]
        refine congrArg _ (List.map_congr_left fun later _ => ?_)
        exact (Bindings.extend_append b (item.captured front) (captures items later)).symm
    · exact .inr ⟨clash_back takes cause, failed⟩
  | refused not =>
    refine lists_nothing ?_
    rintro cut ⟨begins, segmentation⟩
    obtain ⟨_, later, rfl, _⟩ := segmentation.first
    cases begins
    exact not ((segmentation_cons definite).1 segmentation).1
  | failed clash => exact .inr ⟨clash_front clash, rfl⟩

end Listing

section Search

variable {σ : Type} {m : Settings σ} {b : Bindings} {item : Item} {items : List Item} {p : Value}
  {ps es : List Value} {depth : Nat}

theorem cuts_sorted (atLeast rest : Nat) (es : List Value) :
    (cuts atLeast rest es).Pairwise fun c d => c.1.length < d.1.length := by
  have growing : ((List.range (es.length + 1 - rest)).drop atLeast).Pairwise (· < ·) :=
    List.pairwise_lt_range.sublist (List.drop_sublist ..)
  refine List.pairwise_map.2 (growing.imp_of_mem fun {i j} _ right less => ?_)
  have bound := List.mem_range.1 (List.mem_of_mem_drop right)
  simp only [List.length_take]
  omega

theorem lists_collect {f : List Value × List Value → Step σ (List Bindings)} {xs : List (List Value × List Value)}
    {entry : List (List Value) → Bindings} {cause : Prop} {S : List (List Value) → Prop}
    (sorted : xs.Pairwise fun c d => c.1.length < d.1.length)
    (each : ∀ x ∈ xs, Lists (fun cut => cut.head? = some x.1 ∧ S cut) entry cause (f x)) :
    Lists (fun cut => (∃ x ∈ xs, cut.head? = some x.1) ∧ S cut) entry cause (collect true f xs) := by
  induction xs with
  | nil => exact lists_nothing (by simp)
  | cons x xs ih =>
    obtain ⟨shorter, sorted⟩ := List.pairwise_cons.1 sorted
    have first := each x (List.mem_cons_self ..)
    have later := ih sorted fun y member => each y (List.mem_cons_of_mem x member)
    refine .congr (fun cut => ?_) (first.append later ?_)
    · simp only [List.exists_mem_cons_iff, or_and_right]
    · rintro c d ⟨begins, _⟩ ⟨⟨y, member, beginsToo⟩, _⟩
      obtain ⟨_, rfl⟩ := List.head?_eq_some_iff.1 begins
      obtain ⟨_, rfl⟩ := List.head?_eq_some_iff.1 beginsToo
      exact List.cons_lt_cons_iff.2 (.inl (shorter y member))

/-- From all bindings and on all values, a row of patterns lists the segmentations of a row of items. -/
def Enumerates (m : Settings σ) (depth : Nat) (items : List Item) (ps : List Value) : Prop :=
  ∀ (b : Bindings) (es : List Value), (∀ e ∈ es, e.Definite) →
    Lists (Segmentation b items es) (fun cut => b.extend (captures items cut)) (Clash b items es)
      (matchMany m true false depth ps es b)

theorem enumerates_nil : Enumerates m depth [] [] := by
  intro b es _
  rw [matchMany.eq_def]
  cases es with
  | nil => exact .inl ⟨[[]], List.pairwise_singleton .., by simp [segmentation_nil], rfl⟩
  | cons e es => exact lists_nothing fun cut segmentation => by cases (segmentation_nil.1 segmentation).1

theorem enumerates_single (writes : Writes item p) (single : item.role = .single)
    (room : ((depth + 1 : Nat) + 1 : Int) ≤ m.maxDepth) (rest : Enumerates m (depth + 1) items ps) :
    Enumerates m depth (item :: items) (p :: ps) := by
  have one : ∀ front, item.Takes front → ∃ e, front = [e] := by
    intro front takes
    cases item with
    | literal | blank =>
      obtain ⟨e, same, _⟩ := takes
      exact ⟨e, same⟩
    | segment => cases single
  intro b es definite
  rw [matchMany_single (writes.role.trans single)]
  cases es with
  | nil =>
    refine lists_nothing fun cut segmentation => ?_
    obtain ⟨front, later, _, whole, takes, _⟩ := segmentation.first
    obtain ⟨e, rfl⟩ := one front takes
    cases whole
  | cons e later =>
    obtain ⟨first, others⟩ := List.forall_mem_cons.1 definite
    obtain ⟨r, matched, attempt⟩ := matchOne_attempt (b := b) writes single first room
    show Lists _ _ _ (matchOne m none (depth + 1) p e b >>= _)
    rw [matched, proceed_eq (fun c => matchMany m true false (depth + 1) ps later c) rfl fun _ => rfl]
    have lists := lists_proceed (by simpa using first) attempt fun c => rest c later others
    -- Every segmentation begins with the first value alone.
    refine .congr (fun cut => (and_iff_right_of_imp fun segmentation => ?_).symm) lists
    obtain ⟨front, _, rfl, whole, takes, _⟩ := segmentation.first
    obtain ⟨d, rfl⟩ := one front takes
    cases whole
    rfl

theorem enumerates_segment {name : Option Symbol} {n : Nat} {cs : List Value} (writes : Writes (.segment name n cs) p)
    (written : List.Forall₂ Writes items ps) (rest : Enumerates m (depth + 1) items ps) :
    Enumerates m depth (.segment name n cs :: items) (p :: ps) := by
  intro b es definite
  rw [matchMany_segment writes.role]
  refine .congr (fun cut => (and_iff_right_of_imp fun segmentation => ?_).symm)
    (lists_collect (cuts_sorted n (neededAfterSegment ps) es) fun (front, back) member => ?_)
  · -- No segmentation is lost to the bound on the length of the front: the other items need what it leaves.
    obtain ⟨front, later, rfl, rfl, takes, others⟩ := segmentation.first
    exact ⟨(front, later.flatten), mem_cuts takes.1 (needed_le written others), rfl⟩
  · obtain ⟨rfl, long⟩ := cuts_append member
    obtain ⟨inFront, behind⟩ := List.forall_mem_append.1 definite
    obtain ⟨r, attempt, same⟩ := segment_attempt name cs long inFront
    have lists := lists_proceed inFront attempt fun c => rest c back behind
    rw [← same] at lists
    exact lists

theorem matchMany_enumerates (written : List.Forall₂ Writes items ps)
    (room : (depth + ps.length + 1 : Int) ≤ m.maxDepth) : Enumerates m depth items ps := by
  induction written generalizing depth with
  | nil => exact enumerates_nil
  | @cons item p items ps writes written ih =>
    rw [List.length_cons] at room
    have rest : Enumerates m (depth + 1) items ps := ih (by omega)
    cases item with
    | literal | blank => exact enumerates_single writes rfl (by omega) rest
    | segment => exact enumerates_segment writes written rest

/-- Matching a row of patterns gives the bindings of all segmentations, of each one once, in the order of
the lengths of the segments. It can fail only where a name could get two different values, one of which has
no text. -/
theorem matchMany_segmentations (m : Settings σ) (limit : m.maxDepth = defaultDepth)
    (written : List.Forall₂ Writes items ps) (few : ps.length ≤ 100)
    (definite : ∀ e ∈ es, e.isElement = true ∧ e.isNaNFree = true) (b : Bindings) :
    (∃ cuts : List (List (List Value)), (cuts.map (·.map List.length)).Pairwise (· < ·) ∧
        (∀ cut, cut ∈ cuts ↔ Segmentation b items es cut) ∧
        matchMany m true false 0 ps es b = pure (cuts.map fun cut => b.extend (captures items cut))) ∨
      Clash b items es ∧ matchMany m true false 0 ps es b = Step.fail .malformed := by
  refine matchMany_enumerates written ?_ b es fun e member => ⟨(definite e member).1, (definite e member).2⟩
  rw [limit, defaultDepth]
  omega

end Search

/-- The row `x__, y___, x__`. -/
def repeatedSequence : List Item :=
  [.segment (some ⟨"x"⟩) 1 [], .segment (some ⟨"y"⟩) 0 [], .segment (some ⟨"x"⟩) 1 []]

def repeatedSequencePatterns : List Value :=
  [call "Pattern" [sym "x", call "BlankSequence" []], call "Pattern" [sym "y", call "BlankNullSequence" []],
    call "Pattern" [sym "x", call "BlankSequence" []]]

theorem repeatedSequence_written : List.Forall₂ Writes repeatedSequence repeatedSequencePatterns := by
  have outer : Writes (.segment (some ⟨"x"⟩) 1 []) (call "Pattern" [sym "x", call "BlankSequence" []]) :=
    .segment (.named _ _ (.sequence [] _))
  exact .cons outer (.cons (.segment (.named _ _ (.nullSequence [] _))) (.cons outer .nil))

/-- `x__, y___, x__` divides `1, True, 1, 1` in two ways. -/
theorem matchMany_segmentations_repeatedSequence : ∃ cuts : List (List (List Value)), cuts.length = 2 ∧
    (cuts.map (·.map List.length)).Pairwise (· < ·) ∧
    (∀ cut, cut ∈ cuts ↔ Segmentation .empty repeatedSequence [int 1, .bool true, int 1, int 1] cut) ∧
    matchMany (σ := Unit) ⟨none, defaultDepth⟩ true false 0 repeatedSequencePatterns
        [int 1, .bool true, int 1, int 1] .empty =
      pure (cuts.map fun cut => Bindings.empty.extend (captures repeatedSequence cut)) := by
  have found : Step.returns (fun found => found.length == 2) (matchMany (σ := Unit) ⟨none, defaultDepth⟩ true false 0
      repeatedSequencePatterns [int 1, .bool true, int 1, int 1] .empty ()) = true := by
    decide +kernel
  have definite : ∀ e ∈ [int 1, .bool true, int 1, int 1], e.isElement = true ∧ e.isNaNFree = true := by
    decide +kernel
  rcases matchMany_segmentations (σ := Unit) ⟨none, defaultDepth⟩ rfl repeatedSequence_written (by decide) definite
    .empty with ⟨cuts, sorted, members, done⟩ | ⟨_, failed⟩
  · rw [done] at found
    have two : ((cuts.map _).length == 2) = true := found
    exact ⟨cuts, by simpa using two, sorted, members, done⟩
  · rw [failed] at found
    cases found

/-- The row `x_, x_`. -/
def repeatedBlank : List Item := [.blank (some ⟨"x"⟩) [], .blank (some ⟨"x"⟩) []]

def repeatedBlankPatterns : List Value :=
  [call "Pattern" [sym "x", call "Blank" []], call "Pattern" [sym "x", call "Blank" []]]

theorem equal_of_repeatedBlank {b : Bindings} {u v : Value} {cut : List (List Value)}
    (segmentation : Segmentation b repeatedBlank [u, v] cut) : u.equal v = true := by
  obtain ⟨whole, takes, agrees⟩ := segmentation
  cases takes with
  | cons first rest =>
    cases rest with
    | cons second nothing =>
      cases nothing
      obtain ⟨d, rfl, _⟩ := first
      obtain ⟨e, rfl, _⟩ := second
      cases whole
      exact (List.pairwise_cons.1 agrees.alike).1 (⟨"x"⟩, v) (List.mem_singleton_self _) rfl

/-- Two numbers that are too long to have a text. -/
def longNumbers : List Value := [int (Nat.pow 10 5000), int (Nat.pow 10 5001)]

/-- No two different numbers match `x_, x_`. If they have no text, matching fails instead of finding
nothing. -/
theorem clash_without_text :
    (∀ cut, ¬ Segmentation .empty repeatedBlank longNumbers cut) ∧
      matchMany (σ := Unit) ⟨none, defaultDepth⟩ true false 0 repeatedBlankPatterns longNumbers .empty =
        Step.fail .malformed := by
  constructor
  · intro cut segmentation
    have different : (int (Nat.pow 10 5000)).equal (int (Nat.pow 10 5001)) = false := by decide +kernel
    exact Bool.false_ne_true (different.symm.trans (equal_of_repeatedBlank segmentation))
  · have stopped : Step.returns (fun _ => true) (matchMany (σ := Unit) ⟨none, defaultDepth⟩ true false 0
        repeatedBlankPatterns longNumbers .empty ()) = false := by
      decide +kernel
    have enumerates : Enumerates (σ := Unit) ⟨none, defaultDepth⟩ 0 repeatedBlank repeatedBlankPatterns :=
      matchMany_enumerates (.cons (.named _ _ _ _) (.cons (.named _ _ _ _) .nil)) (by decide)
    have definite : ∀ e ∈ longNumbers, e.Definite := by
      intro e member
      simp only [longNumbers, List.mem_cons, List.not_mem_nil, or_false] at member
      rcases member with rfl | rfl
      · exact ⟨rfl, rfl⟩
      · exact ⟨rfl, rfl⟩
    rcases enumerates .empty longNumbers definite with ⟨cuts, _, _, done⟩ | ⟨_, failed⟩
    · rw [done] at stopped
      cases stopped
    · exact failed

end Symbolic.Pattern
