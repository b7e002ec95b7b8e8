import Symbolic.Proofs.Pattern.Merging

/-!
Substitution of values for symbols. An expression is kept if its parts seem not to change, which
is found out by comparing them. Comparing does not tell all values apart, but nothing
depends on that: what is neither a symbol nor an expression stays where it is (`sublist_leaves`), so parts
that compare equal are identical, and substitution comes to what it would come to without
the comparison (`substitute_expr`). It fails only where a head is replaced by something that cannot
be one. Symbols that do not occur are not missed, and to substitute for some symbols and
then for others is to substitute for all of them at once (`substitution_composes`).
-/
namespace Symbolic

namespace Value

/-! ### What substitution leaves in its place -/

mutual

/-- What is neither a symbol nor an expression in a value, from left to right. -/
def leaves : Value → List Value
  | .symbol _ => []
  | .expr h as _ => leaves h ++ leavesAll as
  | v => [v]

def leavesAll : List Value → List Value
  | [] => []
  | a :: as => leaves a ++ leavesAll as

end

theorem leaves_other {v : Value} (other : v.canHead = false) : v.leaves = [v] := by
  cases v with
  | symbol x => cases other
  | expr h as t => cases other
  | _ => rfl

theorem leavesAll_append (as bs : List Value) : leavesAll (as ++ bs) = leavesAll as ++ leavesAll bs := by
  induction as with
  | nil => rfl
  | cons a as ih => rw [List.cons_append, leavesAll, leavesAll, ih, List.append_assoc]

theorem spliceLists_cons (a : Value) (as : List Value) : spliceLists (a :: as) = spliceLists [a] ++ spliceLists as := by
  simp [spliceLists]

theorem spliceLists_singleton {a : Value} (other : a.hasHead "List" = false) : spliceLists [a] = [a] := by
  simp [spliceLists, argsOf?_of_hasHead other]

theorem leavesAll_spliceLists (as : List Value) : leavesAll (spliceLists as) = leavesAll as := by
  induction as with
  | nil => rfl
  | cons a as ih =>
    rw [spliceLists_cons, leavesAll_append, ih, leavesAll]
    congr 1
    by_cases list : a.hasHead "List" = true
    · obtain ⟨bs, t, rfl⟩ := Pattern.call_of_hasHead list
      simp [spliceLists, argsOf?, leaves]
    · rw [spliceLists_singleton (Bool.eq_false_iff.2 list), leavesAll, leavesAll, List.append_nil]

theorem canHead_of_other {v w : Value} (same : v.same w = true) (other : w.canHead = false) : v.canHead = false := by
  cases v with
  | symbol x =>
    rw [symbol_same_iff.1 same] at other
    cases other
  | expr h as t =>
    cases w with
    | expr k bs u => cases other
    | _ => simp [Value.same] at same
  | _ => rfl

theorem forall₂_of_sameItems {as bs : List Value} (same : sameItems as bs = true) :
    List.Forall₂ (fun a b => a.same b = true) as bs := by
  induction as generalizing bs with
  | nil =>
    cases bs with
    | nil => exact .nil
    | cons b bs => simp [sameItems] at same
  | cons a as ih =>
    cases bs with
    | nil => simp [sameItems] at same
    | cons b bs =>
      simp only [sameItems, Bool.and_eq_true] at same
      exact .cons same.1 (ih same.2)

/-- Two values have equally many leaves, and are identical if their leaves are. -/
def ToldByLeaves (v w : Value) : Prop := v.leaves.length = w.leaves.length ∧ (v.leaves = w.leaves → v = w)

theorem toldByLeaves_all {as bs : List Value} (same : List.Forall₂ (fun a b => a.same b = true) as bs)
    (each : ∀ b ∈ bs, ∀ {a : Value}, a.same b = true → ToldByLeaves a b) :
    (leavesAll as).length = (leavesAll bs).length ∧ (leavesAll as = leavesAll bs → as = bs) := by
  induction same with
  | nil => exact ⟨rfl, fun _ => rfl⟩
  | cons here later ih =>
    obtain ⟨length, eqHere⟩ := each _ (by simp) here
    obtain ⟨lengthAll, eqLater⟩ := ih fun b member => each b (by simp [member])
    refine ⟨by simp only [leavesAll, List.length_append, length, lengthAll], fun alike => ?_⟩
    obtain ⟨alikeHere, alikeLater⟩ := List.append_inj alike length
    rw [eqHere alikeHere, eqLater alikeLater]

theorem toldByLeaves {v w : Value} (same : v.same w = true) : ToldByLeaves v w := by
  induction w using byParts generalizing v with
  | expr k bs t head args =>
    obtain ⟨h, as, rfl, sameHead, sameArgs⟩ := same_expr same
    obtain ⟨length, eqHead⟩ := head sameHead
    obtain ⟨lengthAll, eqArgs⟩ := toldByLeaves_all (forall₂_of_sameItems sameArgs) args
    refine ⟨by simp only [leaves, List.length_append, length, lengthAll], fun alike => ?_⟩
    obtain ⟨alikeHead, alikeArgs⟩ := List.append_inj alike length
    rw [eqHead alikeHead, eqArgs alikeArgs]
  | symbol x =>
    obtain rfl := same_symbol_iff.1 same
    exact ⟨rfl, fun _ => rfl⟩
  | other w other =>
    rw [ToldByLeaves, leaves_other other, leaves_other (canHead_of_other same other)]
    exact ⟨rfl, fun alike => List.singleton_inj.1 alike⟩

section Steps

variable {splice : Bool} {es : List (Symbol × Value)} {v w h : Value} {as bs : List Value} {t : SymbolSet}

theorem substitute_other (other : v.canHead = false) : v.substitute splice es = .ok v := by
  cases v with
  | symbol x => cases other
  | expr h as t => cases other
  | _ => rfl

theorem substituteAll_ok : substituteAll splice es as = .ok bs ↔
    List.Forall₂ (fun a b => a.substitute splice es = .ok b) as bs := by
  induction as generalizing bs with
  | nil =>
    rw [substituteAll, List.forall₂_nil_left_iff, Except.ok.injEq, eq_comm]
  | cons a as ih =>
    constructor
    · intro run
      rw [substituteAll] at run
      obtain ⟨b, here, run⟩ := Except.bind_ok run
      obtain ⟨cs, later, run⟩ := Except.bind_ok run
      cases run
      exact .cons here (ih.1 later)
    · intro each
      cases each with
      | cons here later =>
        rw [substituteAll, here, ih.2 later]
        rfl

/-- The arguments of an expression once something has been substituted into them. -/
abbrev placed (splice : Bool) (bs : List Value) : List Value := if splice then spliceLists bs else bs

theorem leavesAll_placed (splice : Bool) (bs : List Value) : leavesAll (placed splice bs) = leavesAll bs := by
  cases splice with
  | false => rfl
  | true => exact leavesAll_spliceLists bs

theorem substitute_of_parts {k : Value} (head : h.substitute splice es = .ok k)
    (args : substituteAll splice es as = .ok bs) :
    (Value.expr h as t).substitute splice es =
      if k.equal h && sameItems (placed splice bs) as then .ok (.expr h as t) else k.build (placed splice bs) t := by
  rw [substitute, head, args]
  rfl

theorem sublist_leavesAll (each : List.Forall₂ (fun a b => a.leaves.Sublist b.leaves) as bs) :
    (leavesAll as).Sublist (leavesAll bs) := by
  induction each with
  | nil => exact .refl _
  | cons here _ ih => exact here.append ih

/-- Leaves stay where they are; those of the values that are put in come between them. -/
theorem sublist_leaves (run : v.substitute splice es = .ok w) : v.leaves.Sublist w.leaves := by
  induction v using byParts generalizing w with
  | expr h as t head args =>
    obtain ⟨k, atHead, more⟩ := Except.bind_ok (by rwa [substitute] at run)
    obtain ⟨bs, inArgs, _⟩ := Except.bind_ok more
    have each := (List.forall₂_and_left as bs).2 ⟨args, substituteAll_ok.1 inArgs⟩
    have kept := sublist_leavesAll (each.imp fun a b both => both.1 both.2)
    rw [substitute_of_parts atHead inArgs] at run
    split at run
    · cases run
      exact .refl _
    · unfold build at run
      split at run
      · cases run
        rw [leaves, leaves, leavesAll_placed]
        exact (head atHead).append kept
      · cases run
  | symbol x => exact List.nil_sublist _
  | other v other =>
    rw [substitute_other other] at run
    cases run
    exact .refl _

/-- What has the leaves of a value in it and is the same as the value is the value itself. -/
theorem eq_of_sublist (kept : v.leaves.Sublist w.leaves) (same : w.same v = true) : w = v := by
  obtain ⟨length, eq⟩ := toldByLeaves same
  exact eq (kept.eq_of_length length.symm).symm

/-- Substitution builds an expression anew from its head and its arguments. Where it keeps the old one it makes no
difference: what would be built is the same as that, and so identical to it. -/
theorem substitute_expr (callable : h.canHead = true) : (Value.expr h as t).substitute splice es = (do
    let k ← h.substitute splice es
    let bs ← substituteAll splice es as
    k.build (placed splice bs) t) := by
  cases atHead : h.substitute splice es with
  | error e => rw [substitute, atHead]; rfl
  | ok k =>
    cases inArgs : substituteAll splice es as with
    | error e => rw [substitute, atHead, inArgs]; rfl
    | ok bs =>
      rw [substitute_of_parts atHead inArgs]
      split
      · next kept =>
        obtain ⟨sameHead, sameArgs⟩ := Bool.and_eq_true_iff.1 kept
        have each := (substituteAll_ok.1 inArgs).imp fun a b run => sublist_leaves run
        have leavesKept : (Value.expr h as t).leaves.Sublist (Value.expr k (placed splice bs) t).leaves := by
          rw [leaves, leaves, leavesAll_placed]
          exact (sublist_leaves atHead).append (sublist_leavesAll each)
        have same : (Value.expr k (placed splice bs) t).same (.expr h as t) = true := by
          simp [Value.same, same_of_equal sameHead, sameArgs]
        obtain ⟨rfl, rfl, _⟩ := Value.expr.inj (eq_of_sublist leavesKept same)
        exact (if_pos callable).symm
      · rfl

/-- Whether every expression in a value is headed by a symbol or an expression, as all that are built are. -/
def isHeaded (v : Value) : Bool :=
  v.everywhere fun
    | .expr h _ _ => h.canHead
    | _ => true

theorem isHeaded_expr : (Value.expr h as t).isHeaded = true ↔
    h.canHead = true ∧ h.isHeaded = true ∧ ∀ a ∈ as, a.isHeaded = true :=
  everywhere_expr

theorem build_ok {r : Value} : h.build as t = .ok r ↔ h.canHead = true ∧ r = .expr h as t := by
  unfold build
  split
  · next callable => simp [callable, eq_comm]
  · next other => simp [other]

/-- An expression becomes what its head and its arguments become, if the new head can be one. -/
theorem substitute_expr_ok {r : Value} (callable : h.canHead = true) :
    (Value.expr h as t).substitute splice es = .ok r ↔ ∃ k bs, h.substitute splice es = .ok k ∧
      List.Forall₂ (fun a b => a.substitute splice es = .ok b) as bs ∧ k.canHead = true ∧
      r = .expr k (placed splice bs) t := by
  rw [substitute_expr callable]
  constructor
  · intro run
    obtain ⟨k, atHead, run⟩ := Except.bind_ok run
    obtain ⟨bs, inArgs, run⟩ := Except.bind_ok run
    obtain ⟨callableToo, rfl⟩ := build_ok.1 run
    exact ⟨k, bs, atHead, substituteAll_ok.1 inArgs, callableToo, rfl⟩
  · rintro ⟨k, bs, atHead, inArgs, callableToo, rfl⟩
    rw [atHead, substituteAll_ok.2 inArgs]
    exact build_ok.2 ⟨callableToo, rfl⟩

theorem substituteAll_error {e : Error} (failed : substituteAll splice es as = .error e) :
    ∃ a ∈ as, a.substitute splice es = .error e := by
  induction as with
  | nil => cases failed
  | cons a as ih =>
    cases here : a.substitute splice es with
    | error e' =>
      rw [substituteAll, here] at failed
      cases failed
      exact ⟨a, by simp, here⟩
    | ok b =>
      cases later : substituteAll splice es as with
      | error e' =>
        rw [substituteAll, here, later] at failed
        cases failed
        obtain ⟨c, member, failedToo⟩ := ih later
        exact ⟨c, by simp [member], failedToo⟩
      | ok bs =>
        rw [substituteAll, here, later] at failed
        cases failed

/-- The only thing that can go wrong is that a head is replaced by what cannot be one. -/
theorem substitute_error {e : Error} (failed : v.substitute splice es = .error e) : ∃ k, e = .headNotCallable k := by
  induction v using byParts generalizing e with
  | expr h as t head args =>
    cases atHead : h.substitute splice es with
    | error e' =>
      rw [substitute, atHead] at failed
      cases failed
      exact head atHead
    | ok k =>
      cases inArgs : substituteAll splice es as with
      | error e' =>
        rw [substitute, atHead, inArgs] at failed
        cases failed
        obtain ⟨a, member, failedToo⟩ := substituteAll_error inArgs
        exact args a member failedToo
      | ok bs =>
        rw [substitute_of_parts atHead inArgs] at failed
        split at failed
        · cases failed
        · unfold build at failed
          split at failed
          · cases failed
          · cases failed
            exact ⟨_, rfl⟩
  | symbol x => cases failed
  | other v other =>
    rw [substitute_other other] at failed
    cases failed

theorem canHead_of_substituted (run : v.substitute splice es = .ok w) (callable : w.canHead = true) :
    v.canHead = true := by
  by_contra other
  rw [substitute_other (Bool.eq_false_iff.2 other)] at run
  cases run
  exact other callable

end Steps

end Value

/-! ### One substitution after another -/

open Value Pattern

section Composition

variable {b c : Bindings} {v : Value}

theorem substitute_symbol (splice : Bool) (b : Bindings) (x : Symbol) :
    (Value.symbol x).substitute splice b.entries = .ok ((b.get? x).getD (.symbol x)) := by
  rw [Value.substitute, Bindings.get?]

theorem substitute_apart (headed : v.isHeaded = true) (apart : isApart b v = true) :
    v.substitute false b.entries = .ok v := by
  induction v using byParts with
  | expr h as t head args =>
    obtain ⟨callable, headedHead, headedArgs⟩ := isHeaded_expr.1 headed
    obtain ⟨_, apartHead, apartArgs⟩ := everywhere_expr.1 apart
    refine (substitute_expr_ok callable).2 ⟨h, as, head headedHead apartHead, ?_, callable, rfl⟩
    exact List.forall₂_same.2 fun a member => args a member (headedArgs a member) (apartArgs a member)
  | symbol x =>
    rw [substitute_symbol, isApart_symbol apart, Option.getD_none]
  | other v other => exact substitute_other other

theorem forall₂_comp {α : Type} {R S T : α → α → Prop} {as us : List α}
    (each : ∀ a ∈ as, ∀ u, T a u ↔ ∃ w, R a w ∧ S w u) :
    List.Forall₂ T as us ↔ ∃ ws, List.Forall₂ R as ws ∧ List.Forall₂ S ws us := by
  induction as generalizing us with
  | nil =>
    constructor
    · intro all
      cases all
      exact ⟨[], .nil, .nil⟩
    · rintro ⟨ws, first, second⟩
      cases first
      cases second
      exact .nil
  | cons a as ih =>
    obtain ⟨here, later⟩ := List.forall_mem_cons.1 each
    constructor
    · intro all
      cases all with
      | cons first rest =>
        obtain ⟨w, left, right⟩ := (here _).1 first
        obtain ⟨ws, lefts, rights⟩ := (ih later).1 rest
        exact ⟨w :: ws, .cons left lefts, .cons right rights⟩
    · rintro ⟨ws, firsts, seconds⟩
      cases firsts with
      | cons left lefts =>
        cases seconds with
        | cons right rights => exact .cons ((here _).2 ⟨_, left, right⟩) ((ih later).2 ⟨_, lefts, rights⟩)

/-- To substitute for the symbols of two bindings at once is to substitute for those of the first and then for those
of the second, if the values of the first do not mention these. -/
theorem substitute_join (headed : v.isHeaded = true)
    (values : ∀ x w, b.get? x = some w → w.isHeaded = true ∧ isApart c w = true) {u : Value} :
    v.substitute false (b.join c).entries = .ok u ↔
      ∃ w, v.substitute false b.entries = .ok w ∧ w.substitute false c.entries = .ok u := by
  induction v using byParts generalizing u with
  | expr h as t head args =>
    obtain ⟨callable, headedHead, headedArgs⟩ := isHeaded_expr.1 headed
    have inOrder : ∀ {us}, List.Forall₂ (fun a u => a.substitute false (b.join c).entries = .ok u) as us ↔
        ∃ ws, List.Forall₂ (fun a w => a.substitute false b.entries = .ok w) as ws ∧
          List.Forall₂ (fun w u => w.substitute false c.entries = .ok u) ws us :=
      forall₂_comp fun a member u => args a member (headedArgs a member)
    rw [substitute_expr_ok callable]
    constructor
    · rintro ⟨k, us, atHead, inArgs, callableToo, rfl⟩
      obtain ⟨j, first, second⟩ := (head headedHead).1 atHead
      obtain ⟨ws, firsts, seconds⟩ := inOrder.1 inArgs
      have between := canHead_of_substituted second callableToo
      refine ⟨.expr j ws t, (substitute_expr_ok callable).2 ⟨j, ws, first, firsts, between, rfl⟩, ?_⟩
      exact (substitute_expr_ok between).2 ⟨k, us, second, seconds, callableToo, rfl⟩
    · rintro ⟨w, first, second⟩
      obtain ⟨j, ws, atHead, inArgs, between, rfl⟩ := (substitute_expr_ok callable).1 first
      obtain ⟨k, us, atHeadToo, inArgsToo, callableToo, rfl⟩ := (substitute_expr_ok between).1 second
      exact ⟨k, us, (head headedHead).2 ⟨j, atHead, atHeadToo⟩, inOrder.2 ⟨ws, inArgs, inArgsToo⟩, callableToo, rfl⟩
  | symbol x =>
    rw [substitute_symbol, substitute_symbol, Bindings.get_join]
    cases found : b.get? x with
    | some w =>
      obtain ⟨headedToo, apart⟩ := values x w found
      simp [substitute_apart headedToo apart]
    | none => simp [substitute_symbol]
  | other v other => simp [substitute_other other]

theorem isApart_of_isEmpty (nothing : b.isEmpty = true) (v : Value) : isApart b v = true := by
  induction v using byParts with
  | expr h as t head args => exact everywhere_expr.2 ⟨rfl, head, args⟩
  | symbol x => exact Option.isNone_iff_eq_none.2 (Bindings.get_of_isEmpty nothing x)
  | other v other =>
    cases v with
    | symbol x => cases other
    | expr h as t => cases other
    | _ => rfl

theorem substituteFrom_toValue (v : Value) (b : Bindings) (splice : Bool) :
    v.substituteFrom b.toValue splice = if b.isEmpty then .ok v else v.substitute splice b.entries := by
  rw [Bindings.toValue, substituteFrom, Bindings.ofEntries_entries, substituteTable, Bindings.filterMap_pairs,
    Bindings.pairs, List.isEmpty_map, Bindings.isEmpty]

/-- Without splicing it makes no difference that empty bindings are passed over. -/
theorem substituteFrom_plain (headed : v.isHeaded = true) (b : Bindings) :
    v.substituteFrom b.toValue false = v.substitute false b.entries := by
  rw [substituteFrom_toValue]
  split
  · next nothing => rw [substitute_apart headed (isApart_of_isEmpty nothing v)]
  · rfl

theorem isHeaded_substitute {w : Value} (headed : v.isHeaded = true)
    (values : ∀ x w, b.get? x = some w → w.isHeaded = true) (run : v.substitute false b.entries = .ok w) :
    w.isHeaded = true := by
  induction v using byParts generalizing w with
  | expr h as t head args =>
    obtain ⟨callable, headedHead, headedArgs⟩ := isHeaded_expr.1 headed
    obtain ⟨k, bs, atHead, inArgs, callableToo, rfl⟩ := (substitute_expr_ok callable).1 run
    refine isHeaded_expr.2 ⟨callableToo, head headedHead atHead, fun a member => ?_⟩
    obtain ⟨i, within, rfl⟩ := List.getElem_of_mem member
    have there : i < as.length := inArgs.length_eq ▸ within
    exact args _ (List.getElem_mem there) (headedArgs _ (List.getElem_mem there)) (inArgs.get there within)
  | symbol x =>
    rw [substitute_symbol] at run
    cases run
    cases found : b.get? x with
    | some w => exact values x w found
    | none => rfl
  | other v other =>
    rw [substitute_other other] at run
    cases run
    exact headed

theorem substituteFrom_then (headed : v.isHeaded = true) (values : ∀ x w, b.get? x = some w → w.isHeaded = true) :
    (do (← v.substituteFrom b.toValue false).substituteFrom c.toValue false) =
      (do (← v.substitute false b.entries).substitute false c.entries) := by
  rw [substituteFrom_plain headed]
  cases run : v.substitute false b.entries with
  | error e => rfl
  | ok w => exact substituteFrom_plain (isHeaded_substitute headed values run) c

/-- Substituting for the symbols of two bindings at once and substituting for those of the first and then for those of
the second either both put something into the place of a head that cannot be one, or come to the same
expression, with the same attributes everywhere. This asks that no name is bound twice and that the values of the first
do not mention the names of the second. Symbols that do not occur in an expression can be substituted for without
changing it. -/
theorem substitution_composes (t : Value) (b c : Bindings) (headed : t.isHeaded = true)
    (values : ∀ x v, b.get? x = some v → v.isHeaded = true) (keys : ∀ x v, c.get? x = some v → v.isKey = true)
    (disjoint : ∀ x, (c.get? x).isSome = true → b.get? x = none)
    (apart : ∀ x v, b.get? x = some v → isApart c v = true) :
    (∃ d, b.mergeWith c.toValue = .ok d ∧
      ((∃ u, t.substituteFrom d false = .ok u ∧
          (do (← t.substituteFrom b.toValue false).substituteFrom c.toValue false) = .ok u) ∨
        ∃ k l, t.substituteFrom d false = .error (.headNotCallable k) ∧
          (do (← t.substituteFrom b.toValue false).substituteFrom c.toValue false) = .error (.headNotCallable l))) ∧
    ∀ d : Bindings, isApart d t = true → t.substituteFrom d.toValue false = .ok t := by
  constructor
  · refine ⟨(b.join c).toValue, Bindings.mergeWith_join keys disjoint, ?_⟩
    rw [substituteFrom_plain headed, substituteFrom_then headed values]
    have inOrder := fun u => substitute_join (u := u) headed fun x v found => ⟨values x v found, apart x v found⟩
    cases atOnce : t.substitute false (b.join c).entries with
    | ok u =>
      obtain ⟨w, first, second⟩ := (inOrder u).1 atOnce
      exact .inl ⟨u, rfl, by rw [first]; exact second⟩
    | error e =>
      obtain ⟨k, rfl⟩ := substitute_error atOnce
      cases first : t.substitute false b.entries with
      | error e =>
        obtain ⟨l, rfl⟩ := substitute_error first
        exact .inr ⟨k, l, rfl, rfl⟩
      | ok w =>
        cases second : w.substitute false c.entries with
        | error e =>
          obtain ⟨l, rfl⟩ := substitute_error second
          exact .inr ⟨k, l, rfl, second⟩
        | ok u =>
          have succeeds := (inOrder u).2 ⟨w, first, second⟩
          rw [atOnce] at succeeds
          cases succeeds
  · intro d absent
    rw [substituteFrom_plain headed, substitute_apart headed absent]

theorem substitution_composes_atHead :
    let flat := SymbolSet.empty.insert ⟨"Flat"⟩
    let t := Value.expr (call "g" [sym "x", sym "y"]) [call "List" [sym "x", sym "y"], sym "z"] flat
    let b := Bindings.empty.insert ⟨"x"⟩ (call "k" [sym "w"])
    let c := Bindings.empty.insert ⟨"y"⟩ (int 2)
    let u := Value.expr (call "g" [call "k" [sym "w"], int 2]) [call "List" [call "k" [sym "w"], int 2], sym "z"] flat
    ∃ d r, b.mergeWith c.toValue = .ok d ∧ t.substituteFrom d false = .ok r ∧
      (do (← t.substituteFrom b.toValue false).substituteFrom c.toValue false) = .ok r ∧ r.same u = true := by
  intro flat t b c u
  have onlyX : ∀ x v, b.get? x = some v → v = call "k" [sym "w"] := by
    intro x v found
    rw [Bindings.get_insert] at found
    split at found
    · cases found
      rfl
    · cases found
  have onlyY : ∀ x v, c.get? x = some v → x = ⟨"y"⟩ ∧ v = int 2 := by
    intro x v found
    rw [Bindings.get_insert] at found
    split at found
    · next same =>
      cases found
      exact ⟨same, rfl⟩
    · cases found
  have composes := substitution_composes t b c (by decide +kernel)
    (fun x v found => by rw [onlyX x v found]; decide +kernel)
    (fun x v found => by rw [(onlyY x v found).2]; rfl)
    (fun x bound => by
      obtain ⟨v, found⟩ := Option.isSome_iff_exists.1 bound
      rw [(onlyY x v found).1]
      rfl)
    (fun x v found => by rw [onlyX x v found]; decide +kernel)
  have inTurn : Option.any (fun r : Value => r.same u)
      (do (← t.substituteFrom b.toValue false).substituteFrom c.toValue false).toOption = true := by
    decide +kernel
  obtain ⟨⟨d, merged, ⟨r, atOnce, run⟩ | ⟨k, l, _, failed⟩⟩, _⟩ := composes
  · rw [run] at inTurn
    exact ⟨d, r, merged, atOnce, run, inTurn⟩
  · rw [failed] at inTurn
    cases inTurn

end Composition

end Symbolic
