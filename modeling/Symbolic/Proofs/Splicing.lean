import Symbolic.Builtin.Iteration
import Symbolic.Proofs.Substitution

/-!
What splicing does to a template. A sequence that a name is bound to is meant to end up among the arguments where
the name stood, and everything else to stay as it is written (`Bindings.fill`). But lists are spliced
when the arguments are there already, and a list that was written in the template is then like any other: it loses
its brackets too. The two agree on the templates that have no list among arguments, and on no
others (`substitute_fill`). A template without bound names comes out with the brackets of its inner lists
taken away (`substitute_unlisted`).
-/
namespace Symbolic

open Value Pattern

namespace Bindings

mutual

/-- Puts values in the place of bound names; a list that stands for an argument gives its items. -/
def fill (b : Bindings) : Value → Except Error Value
  | .symbol x => .ok ((b.get? x).getD (.symbol x))
  | .expr h as t => do
    let k ← fill b h
    let bs ← fillAll b as
    k.build bs t
  | v => .ok v

def fillAll (b : Bindings) : List Value → Except Error (List Value)
  | [] => .ok []
  | a :: as => do
    let v ← fill b a
    let bs ← fillAll b as
    return (if a.isSymbol then spliceLists [v] else [v]) ++ bs

end

/-- Whether an expression is a list, or becomes one because its head is bound to `List`. -/
def isListing (b : Bindings) : Value → Bool
  | .expr (.symbol x) _ _ => ((b.get? x).getD (.symbol x)).same (sym "List")
  | _ => false

/-- Whether no argument of an expression in a template is a list. -/
def isListless (b : Bindings) (v : Value) : Bool :=
  v.everywhere fun w => w.args.all fun a => !b.isListing a

variable {b : Bindings} {h v : Value} {as : List Value} {t : SymbolSet}

theorem isListless_expr : b.isListless (.expr h as t) =
    (b.isListless h && as.all fun a => !b.isListing a && b.isListless a) := by
  rw [Bool.eq_iff_iff, isListless, everywhere_expr, Bool.and_eq_true, List.all_eq_true, List.all_eq_true]
  constructor
  · rintro ⟨here, head, inside⟩
    refine ⟨head, fun a member => ?_⟩
    rw [Bool.and_eq_true]
    exact ⟨here a member, inside a member⟩
  · rintro ⟨head, both⟩
    have each := fun a member => Bool.and_eq_true_iff.1 (both a member)
    exact ⟨fun a member => (each a member).1, head, fun a member => (each a member).2⟩

theorem fill_other (other : v.canHead = false) : b.fill v = .ok v := by
  cases v with
  | symbol x => cases other
  | expr h as t => cases other
  | _ => rfl

theorem isListless_other (other : v.canHead = false) : b.isListless v = true := by
  cases v with
  | symbol x => cases other
  | expr h as t => cases other
  | _ => rfl

end Bindings

section Comparison

/-- Values that are the same if nothing was to be taken out of them, and are smaller otherwise. -/
structure Squeezed (kept : Bool) (rs ss : List Value) : Prop where
  same (all : kept = true) : rs = ss
  less (fewer : kept = false) : weights rs < weights ss

variable {b : Bindings} {rs rs' ss ss' : List Value} {r s v : Value} {k l kept : Bool}

theorem Squeezed.refl (rs : List Value) : Squeezed true rs rs := ⟨fun _ => rfl, by simp⟩

theorem Squeezed.weights_le (squeezed : Squeezed kept rs ss) : weights rs ≤ weights ss := by
  cases kept with
  | true => exact Nat.le_of_eq (by rw [squeezed.same rfl])
  | false => exact Nat.le_of_lt (squeezed.less rfl)

theorem Squeezed.append (first : Squeezed k rs ss) (later : Squeezed l rs' ss') :
    Squeezed (k && l) (rs ++ rs') (ss ++ ss') where
  same all := by
    obtain ⟨here, there⟩ := Bool.and_eq_true_iff.1 all
    rw [first.same here, later.same there]
  less fewer := by
    have le := first.weights_le
    have leToo := later.weights_le
    rw [weights_append, weights_append]
    rcases Bool.and_eq_false_iff.1 fewer with here | there
    · have := first.less here
      omega
    · have := later.less there
      omega

theorem Squeezed.expr (head : Squeezed k [r] [s]) (args : Squeezed l rs ss) (t : SymbolSet) :
    Squeezed (k && l) [.expr r rs t] [.expr s ss t] where
  same all := by
    obtain ⟨here, there⟩ := Bool.and_eq_true_iff.1 all
    rw [List.singleton_inj.1 (head.same here), args.same there]
  less fewer := by
    have both := (head.append args).less fewer
    rw [weights_append, weights_append] at both
    simp only [weights, weight] at both ⊢
    omega

/-- A list takes its brackets with it. -/
theorem weights_spliceLists_lt (list : r.hasHead "List" = true) : weights (spliceLists [r]) < weight r := by
  obtain ⟨as, t, rfl⟩ := call_of_hasHead list
  have items : spliceLists [.expr (sym "List") as t] = as := by simp [spliceLists, argsOf?]
  rw [items, weight]
  omega

theorem hasHead_iff_same {bs : List Value} {u : SymbolSet} (name : String) :
    (Value.expr r bs u).hasHead name = r.same (sym name) := by
  rw [Bool.eq_iff_iff, sym, same_symbol_iff]
  constructor
  · intro list
    obtain ⟨as, t, same⟩ := call_of_hasHead list
    exact (Value.expr.inj same).1
  · rintro rfl
    exact beq_self_eq_true name

/-- What comes of an expression is a list if it is one or has a name of `List` for its head. -/
theorem hasHead_of_substituted {h : Value} {as bs : List Value} {t u : SymbolSet} (headed : h.isHeaded = true)
    (run : h.substitute true b.entries = .ok r) : (Value.expr r bs u).hasHead "List" = b.isListing (.expr h as t) := by
  cases h with
  | symbol x =>
    rw [substitute_symbol] at run
    cases run
    exact hasHead_iff_same "List"
  | expr h as t =>
    obtain ⟨k, bs, _, _, _, rfl⟩ := (substitute_expr_ok (isHeaded_expr.1 headed).1).1 run
    rfl
  | _ =>
    cases run
    rfl

/-- What a template comes to with all lists spliced, and what it should come to. -/
def FilledAlike (kept : Bool) (x y : Except Error Value) : Prop :=
  (∃ e, x = .error e ∧ y = .error e) ∨
    ∃ r s, x = .ok r ∧ y = .ok s ∧ Squeezed kept [r] [s] ∧ (r = s ∨ r.canHead = true ∧ s.canHead = true)

theorem squeezed_arg {a : Value} (headed : a.isHeaded = true) (first : a.substitute true b.entries = .ok r)
    (second : b.fill a = .ok s) (squeezed : Squeezed (b.isListless a) [r] [s]) :
    Squeezed (!b.isListing a && b.isListless a) (spliceLists [r]) (if a.isSymbol then spliceLists [s] else [s]) := by
  cases a with
  | symbol x =>
    rw [substitute_symbol] at first
    cases first
    cases second
    exact .refl _
  | expr h as t =>
    obtain ⟨callable, headedHead, _⟩ := isHeaded_expr.1 headed
    obtain ⟨k, bs, atHead, _, _, rfl⟩ := (substitute_expr_ok callable).1 first
    rw [← hasHead_of_substituted headedHead atHead]
    by_cases list : (Value.expr k (placed true bs) t).hasHead "List" = true
    · rw [list]
      have le := squeezed.weights_le
      have lt := weights_spliceLists_lt list
      refine ⟨by simp, fun _ => ?_⟩
      simp only [isSymbol, weights, Bool.false_eq_true, if_false] at le ⊢
      omega
    · rw [Bool.eq_false_iff.2 list, spliceLists_singleton (Bool.eq_false_iff.2 list)]
      exact squeezed
  | _ =>
    cases first
    cases second
    exact .refl _

theorem squeezed_args {as : List Value} (headed : ∀ a ∈ as, a.isHeaded = true)
    (each : ∀ a ∈ as, FilledAlike (b.isListless a) (a.substitute true b.entries) (b.fill a)) :
    (∃ e, substituteAll true b.entries as = .error e ∧ b.fillAll as = .error e) ∨
      ∃ rs ss, substituteAll true b.entries as = .ok rs ∧ b.fillAll as = .ok ss ∧
        Squeezed (as.all fun a => !b.isListing a && b.isListless a) (spliceLists rs) ss := by
  induction as with
  | nil => exact .inr ⟨[], [], rfl, rfl, .refl []⟩
  | cons a as ih =>
    obtain ⟨headedHere, headedLater⟩ := List.forall_mem_cons.1 headed
    obtain ⟨here, later⟩ := List.forall_mem_cons.1 each
    rcases here with ⟨e, first, second⟩ | ⟨r, s, first, second, squeezed, _⟩
    · exact .inl ⟨e, by rw [substituteAll, first]; rfl, by rw [Bindings.fillAll, second]; rfl⟩
    rcases ih headedLater later with ⟨e, firsts, seconds⟩ | ⟨rs, ss, firsts, seconds, squeezedAll⟩
    · exact .inl ⟨e, by rw [substituteAll, first, firsts]; rfl, by rw [Bindings.fillAll, second, seconds]; rfl⟩
    · refine .inr ⟨_, _, by rw [substituteAll, first, firsts]; rfl, by rw [Bindings.fillAll, second, seconds]; rfl, ?_⟩
      rw [spliceLists_cons, List.all_cons]
      exact (squeezed_arg headedHere first second squeezed).append squeezedAll

theorem substitute_fill (headed : v.isHeaded = true) :
    FilledAlike (b.isListless v) (v.substitute true b.entries) (b.fill v) := by
  induction v using byParts with
  | expr h as t head args =>
    obtain ⟨callable, headedHead, headedArgs⟩ := isHeaded_expr.1 headed
    rw [substitute_expr callable, Bindings.fill, Bindings.isListless_expr]
    rcases head headedHead with ⟨e, first, second⟩ | ⟨r, s, first, second, squeezed, heads⟩
    · rw [first, second]
      exact .inl ⟨e, rfl, rfl⟩
    rcases squeezed_args headedArgs fun a member => args a member (headedArgs a member)
      with ⟨e, firsts, seconds⟩ | ⟨rs, ss, firsts, seconds, squeezedAll⟩
    · rw [first, second, firsts, seconds]
      exact .inl ⟨e, rfl, rfl⟩
    rw [first, second, firsts, seconds]
    have both := squeezed.expr squeezedAll t
    by_cases callableToo : r.canHead = true
    · have callableFilled : s.canHead = true := by
        rcases heads with rfl | ⟨_, callableFilled⟩
        · exact callableToo
        · exact callableFilled
      refine .inr ⟨_, _, build_ok.2 ⟨callableToo, rfl⟩, build_ok.2 ⟨callableFilled, rfl⟩, both, .inr ⟨rfl, rfl⟩⟩
    · rcases heads with rfl | ⟨callable, _⟩
      · exact .inl ⟨_, if_neg callableToo, if_neg callableToo⟩
      · exact absurd callable callableToo
  | symbol x => exact .inr ⟨_, _, substitute_symbol true b x, rfl, .refl _, .inl rfl⟩
  | other v other =>
    rw [Bindings.isListless_other other]
    exact .inr ⟨v, v, substitute_other other, Bindings.fill_other other, .refl _, .inl rfl⟩

end Comparison

/-! ### Templates without bound names -/

namespace Value

mutual

/-- A value in which every list that is an argument is replaced by its items. -/
def unlisted : Value → Value
  | .expr h as t => .expr (unlisted h) (unlistedAll as) t
  | v => v

def unlistedAll : List Value → List Value
  | [] => []
  | a :: as => spliceLists [unlisted a] ++ unlistedAll as

end

theorem unlistedAll_eq (as : List Value) : unlistedAll as = spliceLists (as.map unlisted) := by
  induction as with
  | nil => rfl
  | cons a as ih => rw [unlistedAll, ih, List.map_cons, spliceLists_cons a.unlisted (as.map unlisted)]

theorem canHead_unlisted (v : Value) : v.unlisted.canHead = v.canHead := by
  cases v <;> rfl

theorem unlisted_other {v : Value} (other : v.canHead = false) : v.unlisted = v := by
  cases v with
  | symbol x => cases other
  | expr h as t => cases other
  | _ => rfl

end Value

section Apart

variable {b : Bindings} {v : Value}

theorem fillAll_apart {as : List Value} (each : ∀ a ∈ as, b.fill a = .ok a) : b.fillAll as = .ok as := by
  induction as with
  | nil => rfl
  | cons a as ih =>
    obtain ⟨here, later⟩ := List.forall_mem_cons.1 each
    have whole : (if a.isSymbol then spliceLists [a] else [a]) = [a] := by
      cases a <;> rfl
    rw [Bindings.fillAll, here, ih later]
    change Except.ok ((if a.isSymbol then spliceLists [a] else [a]) ++ as) = .ok (a :: as)
    rw [whole, List.singleton_append]

/-- Filling in values leaves a template without bound names as it is. -/
theorem fill_apart (headed : v.isHeaded = true) (apart : isApart b v = true) : b.fill v = .ok v := by
  induction v using byParts with
  | expr h as t head args =>
    obtain ⟨callable, headedHead, headedArgs⟩ := isHeaded_expr.1 headed
    obtain ⟨_, apartHead, apartArgs⟩ := everywhere_expr.1 apart
    rw [Bindings.fill, head headedHead apartHead,
      fillAll_apart fun a member => args a member (headedArgs a member) (apartArgs a member)]
    exact build_ok.2 ⟨callable, rfl⟩
  | symbol x => rw [Bindings.fill, isApart_symbol apart, Option.getD_none]
  | other v other => exact Bindings.fill_other other

/-- Splicing takes the brackets away from the lists in a template without bound names. -/
theorem substitute_unlisted (headed : v.isHeaded = true) (apart : isApart b v = true) :
    v.substitute true b.entries = .ok v.unlisted := by
  induction v using byParts with
  | expr h as t head args =>
    obtain ⟨callable, headedHead, headedArgs⟩ := isHeaded_expr.1 headed
    obtain ⟨_, apartHead, apartArgs⟩ := everywhere_expr.1 apart
    refine (substitute_expr_ok callable).2 ⟨h.unlisted, as.map unlisted, head headedHead apartHead, ?_,
      by rw [canHead_unlisted, callable], by rw [unlisted, unlistedAll_eq]; rfl⟩
    rw [List.forall₂_map_right_iff]
    exact List.forall₂_same.2 fun a member => args a member (headedArgs a member) (apartArgs a member)
  | symbol x => rw [substitute_symbol, isApart_symbol apart]; rfl
  | other v other => rw [substitute_other other, unlisted_other other]

end Apart

/-- Substitution of bound values comes to what filling them in comes to, or fails with it, for the
templates that have no list among the arguments of an expression, and for no others, except that nothing at all
happens without bindings. Filling in leaves what has no bound name as it is; substitution takes the
brackets away from all lists in it that are arguments. This is the substitution into the replacements and
conditions of rules, and that of iteration variables. -/
theorem substitution_fills (v : Value) (b : Bindings) (headed : v.isHeaded = true) :
    ((∃ e, b.substitute v = .error e ∧ b.fill v = .error e) ∨
      ∃ r s, b.substitute v = .ok r ∧ b.fill v = .ok s ∧ (r = s ↔ b.isEmpty = true ∨ b.isListless v = true)) ∧
    (isApart b v = true →
      b.fill v = .ok v ∧ b.substitute v = .ok (if b.isEmpty then v else v.unlisted)) ∧
    v.substituteFrom b.toValue true = b.substitute v ∧
    ∀ x w, Iteration.instantiate v (.symbol x) w = (Bindings.empty.insert x w).substitute v := by
  refine ⟨?_, fun apart => ⟨fill_apart headed apart, ?_⟩, substituteFrom_toValue v b true, fun x w => ?_⟩
  · by_cases nothing : b.isEmpty = true
    · have filled := fill_apart headed (isApart_of_isEmpty nothing v)
      exact .inr ⟨v, v, if_pos nothing, filled, by simp [nothing]⟩
    · rw [Bindings.substitute, if_neg nothing]
      rcases substitute_fill (b := b) headed with failed | ⟨r, s, first, second, squeezed, _⟩
      · exact .inl failed
      · refine .inr ⟨r, s, first, second, fun same => .inr ?_, fun kept => ?_⟩
        · by_contra listed
          have less := squeezed.less (Bool.eq_false_iff.2 listed)
          rw [same] at less
          exact Nat.lt_irrefl _ less
        · exact List.singleton_inj.1 (squeezed.same (kept.resolve_left nothing))
  · rw [Bindings.substitute]
    split
    · rfl
    · exact substitute_unlisted headed apart
  · rfl

theorem substitution_fills_sequence :
    let v := call "f" [sym "x", call "g" [sym "z", sym "x"], call "x" []]
    let b := Bindings.empty.insert ⟨"x"⟩ (call "List" [int 1, call "List" [int 2]])
    v.isHeaded = true ∧ b.isListless v = true ∧ ∃ r, b.substitute v = .ok r ∧ b.fill v = .ok r := by
  intro v b
  have headed : v.isHeaded = true := by decide +kernel
  have listless : b.isListless v = true := by decide +kernel
  obtain ⟨⟨e, failed, _⟩ | ⟨r, s, first, second, same⟩, _⟩ := substitution_fills v b headed
  · have succeeds : (b.substitute v).isOk = true := by decide +kernel
    rw [failed] at succeeds
    cases succeeds
  · obtain rfl := same.2 (.inr listless)
    exact ⟨headed, listless, r, first, second⟩

/-- A list that is written in a template loses its brackets, though no bound name occurs in it. -/
theorem written_list_spliced :
    let v := call "f" [call "List" [int 1, int 2]]
    let b := Bindings.empty.insert ⟨"x"⟩ (int 1)
    isApart b v = true ∧ v.substituteFrom b.toValue true = .ok (call "f" [int 1, int 2]) ∧
      Iteration.instantiate v (sym "i") (int 1) = .ok (call "f" [int 1, int 2]) := by
  intro v b
  have headed : v.isHeaded = true := by decide +kernel
  have apart : isApart b v = true := by decide +kernel
  have apartToo : isApart (Bindings.empty.insert ⟨"i"⟩ (int 1)) v = true := by decide +kernel
  refine ⟨apart, ?_, substitute_unlisted headed apartToo⟩
  rw [substituteFrom_toValue]
  exact substitute_unlisted headed apart

end Symbolic
