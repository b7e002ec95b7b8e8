import Symbolic.Pattern.Construct
import Symbolic.Proofs.Pattern.Alone
import Symbolic.Proofs.Pattern.Threading

/-!
Which names a match can bind. A name is bound only where a named pattern is matched (`Binds`), and named patterns
are matched in the arguments of a pattern and in its head (`matching_binds`). The names of a pattern are
collected from its arguments alone. So a match binds only collected names, and names that
stand in a head (`match_binds_collected`).
-/
namespace Symbolic.Pattern

open Value Step

/-- A pattern has a named pattern at a place where it can be matched: it is one itself, or it has it in its inner
pattern; otherwise, in its head or its arguments. -/
inductive Binds (x : Symbol) : Value → Prop
  | here {as : List Value} {t : SymbolSet} (name : first? as = some (.symbol x)) : Binds x (.expr (sym "Pattern") as t)
  | inner {as : List Value} {t : SymbolSet} {q : Value} (second : second? as = some q) (inside : Binds x q) :
    Binds x (.expr (sym "Pattern") as t)
  | head {h : Value} {as : List Value} {t : SymbolSet} (other : h ≠ sym "Pattern") (inside : Binds x h) :
    Binds x (.expr h as t)
  | arg {h a : Value} {as : List Value} {t : SymbolSet} (other : h ≠ sym "Pattern") (member : a ∈ as)
    (inside : Binds x a) : Binds x (.expr h as t)

section Places

variable {x : Symbol} {p q h : Value} {as : List Value}

theorem binds_unwrapHold (inside : Binds x (unwrapHold p)) : Binds x p := by
  unfold unwrapHold at inside
  split at inside
  · next s a as t =>
    split at inside
    · next held => exact .arg (by rintro ⟨⟩; exact absurd held (by decide)) (List.mem_cons_self ..) inside
    · exact inside
  · exact inside

theorem binds_part (member : q ∈ (shape p).parts) (inside : Binds x q) : Binds x p := by
  cases p with
  | expr h as t =>
    by_cases named : h = sym "Pattern"
    · subst named
      exact .inner (Option.mem_toList.1 member) inside
    · have place : q = h ∨ q ∈ as := by
        cases h with
        | symbol s => exact parts_shapeOfCall member
        | _ => simpa [shape, Shape.parts] using member
      rcases place with rfl | argument
      · exact .head named inside
      · exact .arg named argument inside
  | _ => cases member

theorem binds_of_name (headed : p.hasHead "Pattern" = true) (name : first? p.args = some (.symbol x)) : Binds x p := by
  obtain ⟨as, t, rfl⟩ := call_of_hasHead headed
  exact .here name

theorem binds_flatten (other : h ≠ sym "Pattern") {a : Value} (member : a ∈ flatten h as) (inside : Binds x a) :
    ∃ b ∈ as, Binds x b := by
  fun_induction flatten h as with
  | case1 => cases member
  | case2 head h as t xs equal ihInside ihLater =>
    have otherToo : h ≠ sym "Pattern" := by
      rintro rfl
      exact other (eq_of_equal_symbol equal)
    rcases List.mem_append.1 member with here | later
    · obtain ⟨b, argument, within⟩ := ihInside other here
      exact ⟨_, List.mem_cons_self .., .arg otherToo argument within⟩
    · obtain ⟨b, argument, within⟩ := ihLater other later
      exact ⟨b, List.mem_cons_of_mem _ argument, within⟩
  | case3 head h as t xs _ ih =>
    rcases List.mem_cons.1 member with rfl | later
    · exact ⟨_, List.mem_cons_self .., inside⟩
    · obtain ⟨b, argument, within⟩ := ih other later
      exact ⟨b, List.mem_cons_of_mem _ argument, within⟩
  | case4 head y ys _ ih =>
    rcases List.mem_cons.1 member with rfl | later
    · exact ⟨_, List.mem_cons_self .., inside⟩
    · obtain ⟨b, argument, within⟩ := ih other later
      exact ⟨b, List.mem_cons_of_mem _ argument, within⟩

theorem binds_arg (other : p.hasHead "Pattern" = false) (member : q ∈ p.args) (inside : Binds x q) : Binds x p := by
  cases p with
  | expr h as t =>
    refine .arg (fun same => ?_) member inside
    rw [same] at other
    cases other
  | _ => cases member

theorem unnamed_of_role {inner : Option Value}
    (form : (∃ default, role p = .optional inner default) ∨ ∃ n, role p = .repeated inner n) :
    p.hasHead "Pattern" = false := by
  refine Bool.eq_false_iff.2 fun named => ?_
  rcases form with ⟨default, form⟩ | ⟨n, form⟩
  all_goals
    unfold role at form
    repeat' split at form
    all_goals cases form
  cases (hasHead_of_ne named (by decide)).symm.trans ‹p.hasHead "Optional" = true›

/-- What is not named in a pattern is not named in what is matched on the way. -/
theorem descends_binds (N : Symbol → Prop) : Descends fun p => ∀ x, Binds x p → N x where
  part holds member x inside := holds x (binds_unwrapHold (binds_part member inside))
  inner {p q} holds form x inside := by
    have member : q ∈ p.args := by
      rcases form with ⟨default, form⟩ | ⟨n, form⟩
      all_goals exact mem_args_of_role (by simp [form, Role.parts])
    exact holds x (binds_arg (unnamed_of_role form) member inside)
  flatten {p h as} holds form a member x inside := by
    obtain ⟨t, same⟩ := form_of_compound form
    obtain ⟨b, argument, within⟩ := binds_flatten (head_of_compound form) member inside
    refine holds x (binds_unwrapHold ?_)
    rw [same]
    exact .arg (head_of_compound form) argument within

end Places

section Binding

variable {σ : Type} {N : Symbol → Prop} {b c : Bindings} {v : Value}

def BoundIn (N : Symbol → Prop) (b : Bindings) : Prop := ∀ x v, b.get? x = some v → N x

theorem boundIn_empty : BoundIn N .empty := by
  intro x v found
  cases found

theorem boundIn_bind {x : Symbol} (fits : BoundIn N b) (name : N x) (run : b.bind x v = .ok c) : BoundIn N c := by
  intro y w found
  rcases Bindings.bind_cases run with ⟨_, _, _, rfl⟩ | ⟨_, rfl⟩
  · exact fits y w found
  · rw [Bindings.get_insert] at found
    split at found
    · next same => exact same ▸ name
    · exact fits y w found

theorem bindName_boundIn {name : Option Value} (fits : BoundIn N b) (named : ∀ x, name = some (.symbol x) → N x) :
    (ofExcept (bindName b name v) : Step σ _).Yields fun found => ∀ c ∈ found, BoundIn N c := by
  refine .ofExcept fun found run c is => ?_
  cases is
  rcases bindName_found run with rfl | ⟨x, given, bound⟩
  · exact fits
  · exact boundIn_bind fits (named x given) bound

theorem skipOptional_boundIn {q : Value} {default : Option Value} (fits : BoundIn N b) (named : ∀ x, Binds x q → N x) :
    (ofExcept (skipOptional b q default) : Step σ _).Yields fun found => ∀ c ∈ found, BoundIn N c := by
  unfold skipOptional
  repeat' split
  · exact .pure nofun
  · next headed _ name first =>
    refine bindName_boundIn fits fun x given => named x (binds_of_name headed ?_)
    rw [first, given]
  · exact .pure nofun
  · exact .pure fun c is => Option.some.inj is ▸ fits
  · exact .pure nofun

theorem transports_boundIn (m : Settings σ) (N : Symbol → Prop) :
    Transports m id id id (fun p => ∀ x, Binds x p → N x) (fun _ => True) (BoundIn N) := by
  refine .ofForms (descends_binds N) hereditary_true (fun _ => trivial) (fun fit form fits _ => ?_)
    (fun fit form fits => ?_) (fun _ fits => runTest_kept m _ fits) fun _ fits => runTest_kept m _ fits
  · refine .of_yields (bindName_boundIn fits fun x given => fit x ?_)
    rcases form with ⟨inner, form⟩ | ⟨n, c, form⟩
    · obtain ⟨headed, first⟩ := name_of_shape form
      exact binds_unwrapHold (binds_of_name headed (first ▸ given))
    · rcases name_of_segment form with unnamed | ⟨headed, first⟩
      · cases unnamed.symm.trans given
      · exact binds_of_name headed (first ▸ given)
  · exact .of_yields (skipOptional_boundIn fits ((descends_binds N).inner fit (.inl ⟨_, form⟩)))

/-- A match binds the names of the named patterns in a pattern and no others. -/
theorem matching_binds (m : Settings σ) {attrs : Option SymbolSet} {depth : Nat} {p e : Value}
    (named : ∀ x, Binds x p → N x) (fits : BoundIn N b) :
    (matchOne m attrs depth p e b).Yields fun found => ∀ c ∈ found, BoundIn N c :=
  ((transports_boundIn m N).matching.1 attrs depth p e b named trivial fits).yields

end Binding

/-! ### Collected names -/

mutual

/-- The heads in a pattern, where its names are collected, and the heads inside them. -/
def headsIn : Value → List Value
  | .expr h as _ => if h.equal (sym "Pattern") then headsInSecond as else h :: headsIn h ++ headsInAll as
  | _ => []

def headsInSecond : List Value → List Value
  | _ :: v :: _ => headsIn v
  | _ => []

def headsInAll : List Value → List Value
  | [] => []
  | v :: vs => headsIn v ++ headsInAll vs

end

section Collected

variable {x : Symbol} {h p v : Value} {as : List Value} {t : SymbolSet}

theorem equal_pattern : h.equal (sym "Pattern") = true ↔ h = sym "Pattern" := by
  constructor
  · intro equal
    exact same_symbol_iff.1 (same_of_equal equal)
  · rintro rfl
    exact equal_self rfl

theorem mem_namesInAll : v ∈ namesInAll as ↔ ∃ a ∈ as, v ∈ namesIn a := by
  induction as with
  | nil => simp [namesInAll]
  | cons a as ih => simp [namesInAll, ih]

theorem mem_namesInSecond (member : v ∈ namesInSecond as) : ∃ a ∈ as, v ∈ namesIn a := by
  unfold namesInSecond at member
  split at member
  · next q _ => exact ⟨q, by simp, member⟩
  · cases member

theorem mem_headsInAll : v ∈ headsInAll as ↔ ∃ a ∈ as, v ∈ headsIn a := by
  induction as with
  | nil => simp [headsInAll]
  | cons a as ih => simp [headsInAll, ih]

theorem mem_namesIn_pattern :
    v ∈ namesIn (.expr (sym "Pattern") as t) ↔ first? as = some v ∨ v ∈ namesInSecond as := by
  rw [namesIn, if_pos (equal_pattern.2 rfl), List.mem_append, Option.mem_toList]

theorem mem_namesIn_other (other : h ≠ sym "Pattern") : v ∈ namesIn (.expr h as t) ↔ ∃ a ∈ as, v ∈ namesIn a := by
  rw [namesIn, if_neg (mt equal_pattern.1 other), mem_namesInAll]

theorem headsIn_pattern : headsIn (.expr (sym "Pattern") as t) = headsInSecond as := by
  rw [headsIn, if_pos (equal_pattern.2 rfl)]

theorem mem_headsIn_other (other : h ≠ sym "Pattern") :
    v ∈ headsIn (.expr h as t) ↔ (v = h ∨ v ∈ headsIn h) ∨ ∃ a ∈ as, v ∈ headsIn a := by
  rw [headsIn, if_neg (mt equal_pattern.1 other), List.mem_append, List.mem_cons, mem_headsInAll]

theorem second_cases (second : second? as = some p) : ∃ a rest, as = a :: p :: rest := by
  cases as with
  | nil => cases second
  | cons a as =>
    cases as with
    | nil => cases second
    | cons q rest =>
      obtain rfl : q = p := present?_eq second
      exact ⟨a, rest, rfl⟩

/-- A name that can be bound is collected from the pattern or could be collected from a head in it. -/
theorem collected_of_binds (binds : Binds x p) :
    .symbol x ∈ namesIn p ∨ ∃ h ∈ headsIn p, .symbol x ∈ namesIn h := by
  induction binds with
  | here name => exact .inl (mem_namesIn_pattern.2 (.inl name))
  | inner second _ ih =>
    obtain ⟨a, rest, rfl⟩ := second_cases second
    rw [mem_namesIn_pattern, headsIn_pattern]
    rcases ih with collected | inHead
    · exact .inl (.inr collected)
    · exact .inr inHead
  | head other _ ih =>
    rcases ih with collected | ⟨k, place, collected⟩
    · exact .inr ⟨_, (mem_headsIn_other other).2 (.inl (.inl rfl)), collected⟩
    · exact .inr ⟨k, (mem_headsIn_other other).2 (.inl (.inr place)), collected⟩
  | arg other member _ ih =>
    rcases ih with collected | ⟨k, place, collected⟩
    · exact .inl ((mem_namesIn_other other).2 ⟨_, member, collected⟩)
    · exact .inr ⟨k, (mem_headsIn_other other).2 (.inr ⟨_, member, place⟩), collected⟩

theorem symbol_mem_added {acc : List Value} (place : .symbol x ∈ acc ∨ v = .symbol x) :
    .symbol x ∈ if acc.any (v.equal ·) then acc else acc ++ [v] := by
  rcases place with before | rfl
  · split
    · exact before
    · exact List.mem_append_left _ before
  · split
    · next found =>
      obtain ⟨w, member, equal⟩ := List.any_eq_true.1 found
      exact eq_of_equal_symbol equal ▸ member
    · exact List.mem_append_right _ (List.mem_singleton_self _)

/-- A symbol is not taken for another value when duplicates are left out. -/
theorem symbol_mem_distinct {xs : List Value} (member : .symbol x ∈ xs) : .symbol x ∈ distinct xs := by
  have kept : ∀ (xs acc : List Value), .symbol x ∈ acc ∨ .symbol x ∈ xs →
      .symbol x ∈ xs.foldl (fun acc v => if acc.any (v.equal ·) then acc else acc ++ [v]) acc := by
    intro xs
    induction xs with
    | nil =>
      intro acc place
      exact place.resolve_right (by simp)
    | cons v xs ih =>
      intro acc place
      refine ih _ ?_
      rcases place with before | here
      · exact .inl (symbol_mem_added (.inl before))
      · rcases List.mem_cons.1 here with same | later
        · exact .inl (symbol_mem_added (.inr same.symm))
        · exact .inr later
  exact kept xs [] (.inr member)

theorem areKeys_iff {xs : List Value} : areKeys xs = true ↔ ∀ v ∈ xs, v.isKey = true := by
  induction xs with
  | nil => simp [areKeys]
  | cons v xs ih => simp [areKeys, ih]

theorem isKey_of_mem_namesIn (key : p.isKey = true) : ∀ n ∈ namesIn p, n.isKey = true := by
  induction p using byParts with
  | expr h as t head args =>
    intro n member
    obtain ⟨_, keys⟩ := Bool.and_eq_true_iff.1 key
    rw [areKeys_iff] at keys
    by_cases named : h = sym "Pattern"
    · subst named
      rcases mem_namesIn_pattern.1 member with first | second
      · exact keys n (first?_mem first)
      · obtain ⟨q, argument, inside⟩ := mem_namesInSecond second
        exact args q argument (keys q argument) n inside
    · obtain ⟨a, argument, inside⟩ := (mem_namesIn_other named).1 member
      exact args a argument (keys a argument) n inside
  | symbol x =>
    intro n member
    cases member
  | other v other =>
    intro n member
    cases v with
    | expr h as t => cases other
    | _ => cases member

theorem nameSet_ok (key : p.isKey = true) : nameSet p = .ok (.set (distinct (namesIn p))) := by
  have keys : areKeys (namesIn p) = true := areKeys_iff.2 (isKey_of_mem_namesIn key)
  rw [nameSet, requireKeys, if_pos keys]
  rfl

end Collected

/-- Whatever a match binds, its name is collected from the pattern, or it stands in a head of the pattern, from which
no names are collected. If the pattern can be a key, its names can be collected. -/
theorem match_binds_collected {σ : Type} (m : Settings σ) (attrs : Option SymbolSet) (p e : Value) (st st' : σ)
    (s : Bindings) (run : matchOne m attrs 0 p e .empty st = .ok (some s) st') :
    (p.isKey = true → ∃ names, nameSet p = .ok (.set names)) ∧
    ∀ names, nameSet p = .ok (.set names) → ∀ x v, s.get? x = some v →
      .symbol x ∈ names ∨ ∃ h ∈ headsIn p, .symbol x ∈ namesIn h := by
  refine ⟨fun key => ⟨_, nameSet_ok key⟩, fun names collected x v bound => ?_⟩
  have binds : Binds x p :=
    matching_binds m (fun _ inside => inside) boundIn_empty st (some s) st' run s rfl x v bound
  obtain ⟨_, _, same⟩ := Except.bind_ok collected
  cases same
  exact (collected_of_binds binds).imp_left symbol_mem_distinct

theorem match_binds_collected_mixedPattern :
    ∃ s names, matchOne (σ := Unit) ⟨none, defaultDepth⟩ none 0 mixedPattern
        (call "f" [call "g" [], call "g" [], int 2]) .empty () = .ok (some s) () ∧
      s.entries.length = 3 ∧ nameSet mixedPattern = .ok (.set names) ∧
      ∀ x v, s.get? x = some v → .symbol x ∈ names := by
  have found : Step.returns (fun r => r.any (·.entries.length == 3))
      (matchOne (σ := Unit) ⟨none, defaultDepth⟩ none 0 mixedPattern
        (call "f" [call "g" [], call "g" [], int 2]) .empty ()) = true := by
    decide +kernel
  obtain ⟨r, t, run, tested⟩ := Step.returns_iff.1 found
  obtain ⟨s, rfl, three⟩ : ∃ s, r = some s ∧ s.entries.length = 3 := by
    simpa [Option.any_eq_true] using tested
  obtain ⟨collects, inside⟩ := match_binds_collected _ _ _ _ _ _ _ run
  obtain ⟨names, collected⟩ := collects (by decide +kernel)
  have bare : ∀ h ∈ headsIn mixedPattern, (namesIn h).isEmpty = true :=
    List.all_eq_true.1 (by decide +kernel)
  refine ⟨s, names, run, three, collected, fun x v bound => ?_⟩
  refine (inside names collected x v bound).resolve_right fun inHead => ?_
  obtain ⟨h, place, member⟩ := inHead
  rw [List.isEmpty_iff.1 (bare h place)] at member
  cases member

/-- The pattern `h_[1]` binds `h` when it is matched, but `h` is not collected. -/
theorem head_name_not_collected :
    let p := Value.expr (call "Pattern" [sym "h", call "Blank" []]) [int 1] .empty
    Step.returns (fun r => r.any fun s => (s.get? ⟨"h"⟩).any (·.same (sym "g")))
        (matchOne (σ := Unit) ⟨none, defaultDepth⟩ none 0 p (call "g" [int 1]) .empty ()) = true ∧
      nameSet p = .ok (.set []) := by
  intro p
  have bare : namesIn p = [] := List.isEmpty_iff.1 (by decide +kernel)
  refine ⟨by decide +kernel, ?_⟩
  rw [nameSet, bare]
  rfl

end Symbolic.Pattern
